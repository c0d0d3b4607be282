/-
  **The permission database and the native actions that write it**
  (`permission_object.hpp`, `authorization_manager.cpp`, `eosio_contract.cpp`).

  The permission index is a list of rows in the order of their ids, with the
  uniqueness constraints of its `by_id` and `by_owner` indices as fields: `create`
  fails where the index refuses an object.  A parent is the id of a row, and the id
  0 belongs to a row that `initialize_database` reserves.

  The time stamps, the usage objects and the accounting of RAM are left out; no
  function here reads them.
-/
import YottaChain.Authority
import YottaChain.KeyedList

namespace YottaChain.Permissions

open Checked List

/-! ## 1. Names -/

def systemAccountName : Name := N "eosio"
def nullAccountName : Name := N "eosio.null"
def producersAccountName : Name := N "eosio.prods"
def majorityProducersPermissionName : Name := N "prod.major"
def minorityProducersPermissionName : Name := N "prod.minor"
def activeName : Name := N "active"
def ownerName : Name := N "owner"
def eosioAnyName : Name := N "eosio.any"
def eosioCodeName : Name := N "eosio.code"

/-- `name.to_string().find("eosio.") == 0`, for a name that is not empty. -/
def startsWithEosio (n : Name) : Bool := "eosio.".toList.isPrefixOf (nameToString n)

/-! ## 2. The permission index -/

structure PermissionObject (K : Type) where
  id : Nat
  parent : Nat
  owner : Name
  name : Name
  auth : Authority K
deriving DecidableEq

def PermissionObject.level {K : Type} (p : PermissionObject K) : PermissionLevel :=
  ⟨p.owner, p.name⟩

structure PermissionIndex (K : Type) where
  rows : List (PermissionObject K)
  nextId : Nat
  ids : (rows.map PermissionObject.id).Nodup
  levels : (rows.map PermissionObject.level).Nodup
  fresh : ∀ p ∈ rows, p.id < nextId

namespace PermissionIndex

variable {K : Type}

def findId (idx : PermissionIndex K) (id : Nat) : Option (PermissionObject K) :=
  idx.rows.find? fun p => decide (p.id = id)

def findLevel (idx : PermissionIndex K) (level : PermissionLevel) : Option (PermissionObject K) :=
  idx.rows.find? fun p => decide (p.level = level)

variable {idx : PermissionIndex K} {p : PermissionObject K}

theorem findId_eq_some {id : Nat} : idx.findId id = some p ↔ p ∈ idx.rows ∧ p.id = id :=
  KeyedList.find_eq_some_iff idx.ids

theorem findLevel_eq_some {level : PermissionLevel} :
    idx.findLevel level = some p ↔ p ∈ idx.rows ∧ p.level = level :=
  KeyedList.find_eq_some_iff idx.levels

variable {q : PermissionObject K}

theorem eq_of_id (hp : p ∈ idx.rows) (hq : q ∈ idx.rows) (h : p.id = q.id) : p = q := by
  have hfind : idx.findId q.id = some p := findId_eq_some.mpr ⟨hp, h⟩
  rw [findId_eq_some.mpr ⟨hq, rfl⟩] at hfind
  exact (Option.some.inj hfind).symm

theorem eq_of_level (hp : p ∈ idx.rows) (hq : q ∈ idx.rows) (h : p.level = q.level) : p = q := by
  have hfind : idx.findLevel q.level = some p := findLevel_eq_some.mpr ⟨hp, h⟩
  rw [findLevel_eq_some.mpr ⟨hq, rfl⟩] at hfind
  exact (Option.some.inj hfind).symm

def initializeDatabase : PermissionIndex K where
  rows := [⟨0, 0, 0, 0, ⟨0, [], [], []⟩⟩]
  nextId := 1
  ids := nodup_singleton _
  levels := nodup_singleton _
  fresh := by simp

/-- `create_permission` returns the id of the new row. -/
def createPermission (idx : PermissionIndex K) (account name : Name) (parent : Nat)
    (auth : Authority K) : Checked (PermissionIndex K × Nat) :=
  if h : (⟨account, name⟩ : PermissionLevel) ∈ idx.rows.map PermissionObject.level then
    .error "could not insert object, most likely a uniqueness constraint was violated"
  else
    .ok ({
      rows := idx.rows ++ [⟨idx.nextId, parent, account, name, auth⟩]
      nextId := idx.nextId + 1
      ids := by
        rw [map_append, nodup_append']
        refine ⟨idx.ids, nodup_singleton _, ?_⟩
        rw [map_singleton, disjoint_singleton]
        intro hmem
        obtain ⟨p, hp, hid⟩ := mem_map.mp hmem
        exact absurd (idx.fresh p hp) (by rw [hid]; exact Nat.lt_irrefl _)
      levels := by
        rw [map_append, nodup_append']
        refine ⟨idx.levels, nodup_singleton _, ?_⟩
        rw [map_singleton, disjoint_singleton]
        exact h
      fresh := by
        refine forall_mem_append.mpr ⟨fun p hp => Nat.lt_succ_of_lt (idx.fresh p hp), ?_⟩
        exact forall_mem_singleton.mpr (Nat.lt_succ_self _) }, idx.nextId)

def setAuth (id : Nat) (auth : Authority K) (p : PermissionObject K) : PermissionObject K :=
  if p.id = id then { p with auth := auth } else p

theorem map_setAuth {β : Type} (f : PermissionObject K → β)
    (hf : ∀ (p : PermissionObject K) auth, f { p with auth := auth } = f p) (id : Nat)
    (auth : Authority K) (l : List (PermissionObject K)) :
    (l.map (setAuth id auth)).map f = l.map f := by
  rw [map_map]
  refine map_congr_left fun p _ => ?_
  show f (setAuth id auth p) = f p
  unfold setAuth
  split
  · exact hf p auth
  · rfl

def modifyPermission (idx : PermissionIndex K) (id : Nat) (auth : Authority K) :
    PermissionIndex K where
  rows := idx.rows.map (setAuth id auth)
  nextId := idx.nextId
  ids := by
    rw [map_setAuth _ fun _ _ => rfl]
    exact idx.ids
  levels := by
    rw [map_setAuth _ fun _ _ => rfl]
    exact idx.levels
  fresh := by
    intro p hp
    obtain ⟨q, hq, rfl⟩ := mem_map.mp hp
    unfold setAuth
    split
    · exact idx.fresh q hq
    · exact idx.fresh q hq

def removePermission (idx : PermissionIndex K) (id : Nat) : Checked (PermissionIndex K) := do
  ensure (∀ p ∈ idx.rows, p.parent ≠ id)
    "Cannot remove a permission which has children. Remove the children first."
  pure {
    rows := idx.rows.filter fun p => decide (p.id ≠ id)
    nextId := idx.nextId
    ids := idx.ids.sublist (filter_sublist.map _)
    levels := idx.levels.sublist (filter_sublist.map _)
    fresh := fun p hp => idx.fresh p (mem_of_mem_filter hp) }

/-- `find_permission` refuses empty names. -/
def findPermission (idx : PermissionIndex K) (level : PermissionLevel) :
    Checked (Option (PermissionObject K)) := do
  ensure (level.actor ≠ 0 ∧ level.permission ≠ 0) "Invalid permission"
  pure (idx.findLevel level)

def getPermission (idx : PermissionIndex K) (level : PermissionLevel) :
    Checked (PermissionObject K) := do
  let found ← idx.findPermission level
  match found with
  | some p => .ok p
  | none => .error "Failed to retrieve permission: ${level}"

/-- The loop of `satisfies` with `n` rows to go: it ends at the parent id 0.  A walk over
    more rows than there are meets a row twice and never ends. -/
def walkUp (idx : PermissionIndex K) (id : Nat) : Nat → PermissionObject K → Checked Bool
  | 0, _ => .error "the walk does not end"
  | n + 1, parent =>
      if id = parent.parent then .ok true
      else if parent.parent = 0 then .ok false
      else
        match idx.findId parent.parent with
        | none => .error "no such row"
        | some next => idx.walkUp id n next

/-- `p.satisfies(other)`. -/
def satisfies (idx : PermissionIndex K) (p other : PermissionObject K) : Checked Bool :=
  if p.owner ≠ other.owner then .ok false
  else if p.id = other.id ∨ p.id = other.parent then .ok true
  else
    match idx.findId other.parent with
    | none => .error "no such row"
    | some parent => idx.walkUp p.id idx.rows.length parent

end PermissionIndex

/-! ## 3. The database -/

structure Database (K : Type) where
  /-- `account_object`: the accounts with their privilege. -/
  accounts : Table Name Bool
  permissions : PermissionIndex K
  /-- `permission_link_object`: account, code and message type to the required
      permission. -/
  links : Table (Name × Name × Name) Name

/-- What the chain tells a native action: whether an account is among the
    authorisations of the action, the longest delay, and which keys the node lets
    into authorities while it produces. -/
structure ApplyContext (K : Type) where
  authorized : Name → Bool
  maxTransactionDelay : UInt32
  keyAllowed : K → Bool

variable {K : Type} [LinearOrder K]

def ApplyContext.requireAuthorization (c : ApplyContext K) (account : Name) : Checked Unit :=
  ensure (c.authorized account) "missing authority"

def createNativeAccount (db : Database K) (name : Name) (owner active : Authority K)
    (isPrivileged : Bool) : Checked (Database K) := do
  let accounts ← db.accounts.emplace name isPrivileged
  let (idx, ownerId) ← db.permissions.createPermission name ownerName 0 owner
  let (idx, _) ← idx.createPermission name activeName ownerId active
  pure { db with accounts := accounts, permissions := idx }

/-- `initialize_database` of the controller, as far as it writes accounts and
    permissions. -/
def initializeDatabase (initialKey : K) : Checked (Database K) := do
  let systemAuth := Authority.ofKey initialKey
  let emptyAuthority : Authority K := ⟨1, [], [], []⟩
  let activeProducers : Authority K := ⟨1, [], [⟨⟨systemAccountName, activeName⟩, 1⟩], []⟩
  let db : Database K := ⟨∅, .initializeDatabase, ∅⟩
  let db ← createNativeAccount db systemAccountName systemAuth systemAuth true
  let db ← createNativeAccount db nullAccountName emptyAuthority emptyAuthority false
  let db ← createNativeAccount db producersAccountName emptyAuthority activeProducers false
  let active ← db.permissions.getPermission ⟨producersAccountName, activeName⟩
  let (idx, majority) ← db.permissions.createPermission producersAccountName
    majorityProducersPermissionName active.id activeProducers
  let (idx, _) ← idx.createPermission producersAccountName minorityProducersPermissionName
    majority activeProducers
  pure { db with permissions := idx }

/-! ## 4. Native actions -/

/-- One entry of the loop of `validate_authority_precondition`: owner and active of an
    existing account and the virtual `eosio.code` are not looked up. -/
def checkAuthorityEntry (db : Database K) (entry : PermissionLevelWeight) : Checked Unit := do
  ensure (db.accounts.find entry.permission.actor ≠ none) "account does not exist"
  if entry.permission.permission = ownerName ∨ entry.permission.permission = activeName ∨
      entry.permission.permission = eosioCodeName then pure ()
  else do
    let _ ← db.permissions.getPermission entry.permission
    pure ()

def validateAuthorityPrecondition (c : ApplyContext K) (db : Database K) (auth : Authority K) :
    Checked Unit := do
  auth.accounts.forM (checkAuthorityEntry db)
  ensure (∀ p ∈ auth.keys, c.keyAllowed p.key) "public key is on the blacklist"

def newaccount (c : ApplyContext K) (db : Database K) (creator name : Name)
    (owner active : Authority K) : Checked (Database K) := do
  c.requireAuthorization creator
  ensure (validate owner) "Invalid owner authority"
  ensure (validate active) "Invalid active authority"
  ensure (name ≠ 0) "account name cannot be empty"
  ensure ((nameToString name).length ≤ 12) "account names can only be 12 chars long"
  let privileged ← db.accounts.get creator "unknown key"
  ensure (privileged = false → startsWithEosio name = false)
    "only privileged accounts can have names that start with 'eosio.'"
  ensure (db.accounts.find name = none)
    "Cannot create account named ${name}, as that name is already taken"
  let accounts ← db.accounts.emplace name false
  let db := { db with accounts := accounts }
  validateAuthorityPrecondition c db owner
  validateAuthorityPrecondition c db active
  let (idx, ownerId) ← db.permissions.createPermission name ownerName 0 owner
  let (idx, _) ← idx.createPermission name activeName ownerId active
  pure { db with permissions := idx }

/-- The id of the parent that `updateauth` names; the owner permission has none. -/
def parentId (db : Database K) (account permission parent : Name) : Checked Nat :=
  if permission = ownerName then .ok 0
  else do
    let p ← db.permissions.getPermission ⟨account, parent⟩
    pure p.id

/-- The checks of `updateauth` on its arguments. -/
def checkUpdateauth (c : ApplyContext K) (db : Database K) (account permission parent : Name)
    (auth : Authority K) : Checked Unit := do
  c.requireAuthorization account
  ensure (permission ≠ 0) "Cannot create authority with empty name"
  ensure (startsWithEosio permission = false)
    "Permission names that start with 'eosio.' are reserved"
  ensure (permission ≠ parent) "Cannot set an authority as its own parent"
  let _ ← db.accounts.get account "unknown key"
  ensure (validate auth) "Invalid authority"
  ensure (permission = activeName → parent = ownerName)
    "Cannot change active authority's parent from owner"
  ensure (permission = ownerName → parent = 0) "Cannot change owner authority's parent"
  ensure (permission ≠ ownerName → parent ≠ 0) "Only owner permission can have empty parent"
  ensure (∀ w ∈ auth.waits.getLast?, w.waitSec ≤ c.maxTransactionDelay)
    "Cannot set delay longer than max_transacton_delay"
  validateAuthorityPrecondition c db auth

def updateauth (c : ApplyContext K) (db : Database K) (account permission parent : Name)
    (auth : Authority K) : Checked (Database K) := do
  checkUpdateauth c db account permission parent auth
  let found ← db.permissions.findPermission ⟨account, permission⟩
  let pid ← parentId db account permission parent
  match found with
  | some p => do
      ensure (pid = p.parent) "Changing parent authority is not currently supported"
      pure { db with permissions := db.permissions.modifyPermission p.id auth }
  | none => do
      let (idx, _) ← db.permissions.createPermission account permission pid auth
      pure { db with permissions := idx }

def hasLink (db : Database K) (account permission : Name) : Bool :=
  decide (∃ k ∈ db.links.rows.keys, k.1 = account ∧ db.links.find k = some permission)

def deleteauth (c : ApplyContext K) (db : Database K) (account permission : Name) :
    Checked (Database K) := do
  c.requireAuthorization account
  ensure (permission ≠ activeName) "Cannot delete active authority"
  ensure (permission ≠ ownerName) "Cannot delete owner authority"
  ensure (hasLink db account permission = false)
    "Cannot delete a linked authority. Unlink the authority first. This authority is linked to ${code}::${type}."
  let p ← db.permissions.getPermission ⟨account, permission⟩
  let idx ← db.permissions.removePermission p.id
  pure { db with permissions := idx }

/-- `linkauth` looks the required permission up by its name alone. -/
def linkauth (c : ApplyContext K) (db : Database K) (account code type requirement : Name) :
    Checked (Database K) := do
  ensure (requirement ≠ 0) "Required permission cannot be empty"
  c.requireAuthorization account
  ensure (db.accounts.find account ≠ none) "Failed to retrieve account: ${account}"
  ensure (db.accounts.find code ≠ none) "Failed to retrieve code for account: ${account}"
  ensure (requirement ≠ eosioAnyName → ∃ p ∈ db.permissions.rows, p.name = requirement)
    "Failed to retrieve permission: ${permission}"
  match db.links.find (account, code, type) with
  | some required => do
      ensure (required ≠ requirement)
        "Attempting to update required authority, but new requirement is same as old"
      pure { db with links := db.links.put (account, code, type) requirement }
  | none => do
      let links ← db.links.emplace (account, code, type) requirement
      pure { db with links := links }

def unlinkauth (c : ApplyContext K) (db : Database K) (account code type : Name) :
    Checked (Database K) := do
  c.requireAuthorization account
  let _ ← db.links.get (account, code, type) "Attempting to unlink authority, but no link found"
  pure { db with links := db.links.erase (account, code, type) }

/-! ## 5. Runs -/

inductive NativeAction (K : Type) where
  | newaccount (creator name : Name) (owner active : Authority K)
  | updateauth (account permission parent : Name) (auth : Authority K)
  | deleteauth (account permission : Name)
  | linkauth (account code type requirement : Name)
  | unlinkauth (account code type : Name)

def applyNative (c : ApplyContext K) (db : Database K) : NativeAction K → Checked (Database K)
  | .newaccount creator name owner active => newaccount c db creator name owner active
  | .updateauth account permission parent auth => updateauth c db account permission parent auth
  | .deleteauth account permission => deleteauth c db account permission
  | .linkauth account code type requirement => linkauth c db account code type requirement
  | .unlinkauth account code type => unlinkauth c db account code type

/-- A successful native action that `allowed` admits in its database. -/
def NativeStep (allowed : Database K → NativeAction K → Prop) (db db' : Database K) : Prop :=
  ∃ c a, allowed db a ∧ applyNative c db a = .ok db'

end YottaChain.Permissions
