/-
  **The authorization gate** (`authorization_manager::check_authorization`).

  Every action of a transaction declares levels.  For each of them the gate asks two
  things.  The declared permission has to be the one that the actor linked to the
  action, or one above it; five native actions have checks of their own instead.
  And the checker has to find the declared level satisfied, under the smallest delay
  that an action declaring it was given.  What passes the gate has both
  (`authorization_gate_sound`).
-/
import Mathlib.Order.Bounds.Basic
import YottaChain.AuthorityChecker
import YottaChain.Dispatch
import YottaChain.PermissionForest

namespace YottaChain.Permissions

open Checked List

/-! ## 1. Actions -/

structure UpdateauthData where
  account : Name
  permission : Name
  parent : Name

structure DeleteauthData where
  account : Name
  permission : Name

/-- The data of `linkauth` without its requirement, and of `unlinkauth`. -/
structure LinkData where
  account : Name
  code : Name
  type : Name

structure CanceldelayData where
  cancelingAuth : PermissionLevel
  trxId : Nat

/-- What `data_as` makes of the packed data for each of the native types. -/
structure ActionData where
  updateauth : Option UpdateauthData
  deleteauth : Option DeleteauthData
  linkauth : Option LinkData
  unlinkauth : Option LinkData
  canceldelay : Option CanceldelayData

structure DeclaredAction where
  account : Name
  name : Name
  authorization : List PermissionLevel
  data : ActionData

structure GeneratedTransaction where
  sender : Name
  delayUntil : Int
  published : Int
  authorizations : List (List PermissionLevel)

structure GateContext (K : Type) where
  db : Database K
  generated : Table Nat GeneratedTransaction
  maxTransactionDelay : UInt32
  maxAuthorityDepth : UInt16

def dataAs {α : Type} : Option α → Checked α
  | some a => .ok a
  | none => .error "action data does not unpack"

variable {K : Type}

/-! ## 2. The minimum permission -/

def lookupLinkedPermission (db : Database K) (account scope act : Name) : Option Name :=
  match db.links.find (account, scope, act) with
  | some required => some required
  | none => db.links.find (account, scope, 0)

def nativeAuthActions : List Name :=
  [N "updateauth", N "deleteauth", N "linkauth", N "unlinkauth", N "canceldelay"]

def lookupMinimumPermission (db : Database K) (account scope act : Name) :
    Checked (Option Name) := do
  ensure (scope = systemAccountName → act ∉ nativeAuthActions)
    "cannot call lookup_minimum_permission on native actions that are not allowed to be linked to minimum permissions"
  match lookupLinkedPermission db account scope act with
  | none => pure (some activeName)
  | some required => if required = eosioAnyName then pure none else pure (some required)

/-- `get_permission(auth).satisfies(min)`. -/
def requireSatisfies (idx : PermissionIndex K) (auth : PermissionLevel) (min : PermissionObject K)
    (message : String) : Checked Unit := do
  let p ← idx.getPermission auth
  let b ← idx.satisfies p min
  ensure (b = true) message

def onlyAuthorization (auths : List PermissionLevel) (message : String) : Checked PermissionLevel :=
  match auths with
  | [auth] => .ok auth
  | _ => .error message

def checkUpdateauthAuthorization (db : Database K) (update : UpdateauthData)
    (auths : List PermissionLevel) : Checked Unit := do
  let auth ← onlyAuthorization auths
    "updateauth action should only have one declared authorization"
  ensure (auth.actor = update.account)
    "the owner of the affected permission needs to be the actor of the declared authorization"
  let found ← db.permissions.findPermission ⟨update.account, update.permission⟩
  let min ← match found with
    | some p => .ok p
    | none => db.permissions.getPermission ⟨update.account, update.parent⟩
  requireSatisfies db.permissions auth min
    "updateauth action declares irrelevant authority '${auth}'; minimum authority is ${min}"

def checkDeleteauthAuthorization (db : Database K) (del : DeleteauthData)
    (auths : List PermissionLevel) : Checked Unit := do
  let auth ← onlyAuthorization auths
    "deleteauth action should only have one declared authorization"
  ensure (auth.actor = del.account)
    "the owner of the permission to delete needs to be the actor of the declared authorization"
  let min ← db.permissions.getPermission ⟨del.account, del.permission⟩
  requireSatisfies db.permissions auth min
    "updateauth action declares irrelevant authority '${auth}'; minimum authority is ${min}"

def checkLinkauthAuthorization (db : Database K) (link : LinkData)
    (auths : List PermissionLevel) : Checked Unit := do
  let auth ← onlyAuthorization auths "link action should only have one declared authorization"
  ensure (auth.actor = link.account)
    "the owner of the linked permission needs to be the actor of the declared authorization"
  ensure (link.type ≠ N "updateauth") "Cannot link eosio::updateauth to a minimum permission"
  ensure (link.type ≠ N "deleteauth") "Cannot link eosio::deleteauth to a minimum permission"
  ensure (link.type ≠ N "linkauth") "Cannot link eosio::linkauth to a minimum permission"
  ensure (link.type ≠ N "unlinkauth") "Cannot link eosio::unlinkauth to a minimum permission"
  ensure (link.type ≠ N "canceldelay") "Cannot link eosio::canceldelay to a minimum permission"
  let linked ← lookupMinimumPermission db link.account link.code link.type
  match linked with
  | none => pure ()
  | some name => do
      let min ← db.permissions.getPermission ⟨link.account, name⟩
      requireSatisfies db.permissions auth min
        "link action declares irrelevant authority '${auth}'; minimum authority is ${min}"

def checkUnlinkauthAuthorization (db : Database K) (unlink : LinkData)
    (auths : List PermissionLevel) : Checked Unit := do
  let auth ← onlyAuthorization auths "unlink action should only have one declared authorization"
  ensure (auth.actor = unlink.account)
    "the owner of the linked permission needs to be the actor of the declared authorization"
  match lookupLinkedPermission db unlink.account unlink.code unlink.type with
  | none => .error "cannot unlink non-existent permission link of account '${account}' for actions matching '${code}::${action}'"
  | some name =>
      if name = eosioAnyName then pure ()
      else do
        let min ← db.permissions.getPermission ⟨unlink.account, name⟩
        requireSatisfies db.permissions auth min
          "unlink action declares irrelevant authority '${auth}'; minimum authority is ${min}"

def checkCanceldelayAuthorization (c : GateContext K) (cancel : CanceldelayData)
    (auths : List PermissionLevel) : Checked Int := do
  let auth ← onlyAuthorization auths
    "canceldelay action should only have one declared authorization"
  let min ← c.db.permissions.getPermission cancel.cancelingAuth
  requireSatisfies c.db.permissions auth min
    "canceldelay action declares irrelevant authority '${auth}'; specified authority to satisfy is ${min}"
  let trx ← c.generated.get cancel.trxId
    "cannot cancel trx_id=${tid}, there is no deferred transaction with that transaction id"
  ensure (trx.sender = 0)
    "cannot cancel trx_id=${tid}, there is no deferred transaction with that transaction id"
  ensure (∃ auths ∈ trx.authorizations, cancel.cancelingAuth ∈ auths)
    "canceling_auth in canceldelay action was not found as authorization in the original delayed transaction"
  pure (trx.delayUntil - trx.published)

/-! ## 3. The gate -/

/-- The checks of a native action, whether it is one, and the delay the action is given. -/
def checkSpecialCase (c : GateContext K) (delay : Int) (act : DeclaredAction) :
    Checked (Bool × Int) :=
  if act.account = systemAccountName then
    if act.name = N "updateauth" then do
      let update ← dataAs act.data.updateauth
      checkUpdateauthAuthorization c.db update act.authorization
      pure (true, delay)
    else if act.name = N "deleteauth" then do
      let del ← dataAs act.data.deleteauth
      checkDeleteauthAuthorization c.db del act.authorization
      pure (true, delay)
    else if act.name = N "linkauth" then do
      let link ← dataAs act.data.linkauth
      checkLinkauthAuthorization c.db link act.authorization
      pure (true, delay)
    else if act.name = N "unlinkauth" then do
      let unlink ← dataAs act.data.unlinkauth
      checkUnlinkauthAuthorization c.db unlink act.authorization
      pure (true, delay)
    else if act.name = N "canceldelay" then do
      let cancel ← dataAs act.data.canceldelay
      let had ← checkCanceldelayAuthorization c cancel act.authorization
      pure (true, max delay had)
    else pure (false, delay)
  else pure (false, delay)

def checkMinimumPermission (db : Database K) (act : DeclaredAction) (declared : PermissionLevel) :
    Checked Unit := do
  let name ← lookupMinimumPermission db declared.actor act.account act.name
  match name with
  | none => pure ()
  | some name => do
      let min ← db.permissions.getPermission ⟨declared.actor, name⟩
      requireSatisfies db.permissions declared min
        "action declares irrelevant authority '${auth}'; minimum authority is ${min}"

/-- `permissions_to_satisfy.emplace`, in the order of the map; an entry that is there keeps
    the smaller delay. -/
def emplaceDelay (level : PermissionLevel) (delay : Int) :
    List (PermissionLevel × Int) → List (PermissionLevel × Int)
  | [] => [(level, delay)]
  | (l, d) :: rest =>
      if level = l then (l, if delay < d then delay else d) :: rest
      else if level.less l then (level, delay) :: (l, d) :: rest
      else (l, d) :: emplaceDelay level delay rest

def declareAuthorization (db : Database K) (satisfiedAuthorizations : List PermissionLevel)
    (act : DeclaredAction) (special : Bool × Int) (toSatisfy : List (PermissionLevel × Int))
    (declared : PermissionLevel) : Checked (List (PermissionLevel × Int)) := do
  (if special.1 then pure () else checkMinimumPermission db act declared : Checked Unit)
  if declared ∈ satisfiedAuthorizations then pure toSatisfy
  else pure (emplaceDelay declared special.2 toSatisfy)

def declareAction (c : GateContext K) (satisfiedAuthorizations : List PermissionLevel)
    (delay : Int) (toSatisfy : List (PermissionLevel × Int)) (act : DeclaredAction) :
    Checked (List (PermissionLevel × Int)) := do
  let special ← checkSpecialCase c delay act
  act.authorization.foldlM (declareAuthorization c.db satisfiedAuthorizations act special) toSatisfy

/-- `fc::microseconds::maximum`. -/
def maximumDelay : Int := 9223372036854775807

def effectiveDelay (c : GateContext K) (delay : Int) : Int :=
  if seconds c.maxTransactionDelay ≤ delay then maximumDelay else delay

/-- `permission_to_authority`: no authority where `get_permission` throws. -/
def PermissionIndex.authorityOf (idx : PermissionIndex K) (level : PermissionLevel) :
    Option (Authority K) :=
  match idx.getPermission level with
  | .ok p => some p.auth
  | .error _ => none

section Gate

variable [DecidableEq K]

def checkSatisfied (c : GateContext K) (keys : Finset K) (permissions : List PermissionLevel)
    (used : Finset K) (entry : PermissionLevel × Int) : Checked (Finset K) := do
  let out := satisfied c.db.permissions.authorityOf c.maxAuthorityDepth.toNat
    ⟨keys, permissions, entry.2⟩ used entry.1
  ensure (out.1 = true)
    "transaction declares authority '${auth}', but does not have signatures for it under a provided delay of ${provided_delay} ms, provided permissions ${provided_permissions}, provided keys ${provided_keys}, and a delay max limit of ${delay_max_limit_ms} ms"
  pure out.2

def checkAuthorization (c : GateContext K) (actions : List DeclaredAction) (keys : Finset K)
    (permissions : List PermissionLevel) (delay : Int) (allowUnusedKeys : Bool)
    (satisfiedAuthorizations : List PermissionLevel) : Checked Unit := do
  let toSatisfy ← actions.foldlM
    (declareAction c satisfiedAuthorizations (effectiveDelay c delay)) []
  let used ← toSatisfy.foldlM (checkSatisfied c keys permissions) ∅
  ensure (allowUnusedKeys = true ∨ keys ⊆ used)
    "transaction bears irrelevant signatures from these keys: ${keys}"

end Gate

/-! ## 4. The minimum permission that passes -/

def DeclaredAction.IsNativeAuth (act : DeclaredAction) : Prop :=
  act.account = systemAccountName ∧ act.name ∈ nativeAuthActions

variable {idx : PermissionIndex K}

theorem requireSatisfies_ok {auth : PermissionLevel} {min : PermissionObject K} {message : String}
    (h : requireSatisfies idx auth min message = .ok ()) :
    ∃ p, idx.getPermission auth = .ok p ∧ idx.satisfies p min = .ok true := by
  simp only [requireSatisfies, ok_iff] at h
  obtain ⟨p, hget, b, hsat, rfl, _⟩ := h
  exact ⟨p, hget, hsat⟩

variable {delay : Int} {act : DeclaredAction} {c : GateContext K} {special : Bool × Int}

/-- Of the actions that pass their special case, all but the native ones are checked against
    their minimum permission. -/
theorem checkSpecialCase_ok (h : checkSpecialCase c delay act = .ok special)
    (hact : ¬ act.IsNativeAuth) : special.1 = false := by
  unfold checkSpecialCase at h
  split at h
  · rename_i haccount
    have hname : ∀ n ∈ nativeAuthActions, act.name ≠ n := by
      intro n hn heq
      rw [← heq] at hn
      exact hact ⟨haccount, hn⟩
    rw [if_neg (hname _ (by decide)), if_neg (hname _ (by decide)), if_neg (hname _ (by decide)),
      if_neg (hname _ (by decide)), if_neg (hname _ (by decide))] at h
    cases h
    rfl
  · cases h
    rfl

def AboveMinimum (db : Database K) (act : DeclaredAction) (declared : PermissionLevel) : Prop :=
  ∃ p min, db.permissions.getPermission declared = .ok p ∧
    db.permissions.getPermission ⟨declared.actor,
      (lookupLinkedPermission db declared.actor act.account act.name).getD activeName⟩ = .ok min ∧
    p.owner = min.owner ∧ (p = min ∨ Ancestor db.permissions.rows p min)

theorem checkMinimumPermission_ok {db : Database K} {declared : PermissionLevel}
    (h : checkMinimumPermission db act declared = .ok ())
    (hany : lookupLinkedPermission db declared.actor act.account act.name ≠ some eosioAnyName) :
    AboveMinimum db act declared := by
  simp only [checkMinimumPermission, lookupMinimumPermission, bind_eq_ok] at h
  obtain ⟨name, ⟨_, _, hname⟩, h⟩ := h
  have hsome : name =
      some ((lookupLinkedPermission db declared.actor act.account act.name).getD activeName) := by
    split at hname
    · rename_i hlink
      cases hname
      rw [hlink]
      rfl
    · rename_i required hlink
      split_ifs at hname with heq
      · rw [heq] at hlink
        exact absurd hlink hany
      · cases hname
        rw [hlink]
        rfl
  rw [hsome] at h
  simp only [bind_eq_ok] at h
  obtain ⟨min, hmin, hsat⟩ := h
  obtain ⟨p, hp, hsat⟩ := requireSatisfies_ok hsat
  refine ⟨p, min, hp, hmin, ?_⟩
  exact satisfies_sound (PermissionIndex.getPermission_ok hp).2.1
    (PermissionIndex.getPermission_ok hmin).2.1 hsat

/-! ## 5. The map of delays -/

/-- The map holds pairs of `S`, and for each pair of `S` one with no longer a delay. -/
structure Tracks (t : List (PermissionLevel × Int)) (S : PermissionLevel → Int → Prop) : Prop where
  sub : ∀ l e, (l, e) ∈ t → S l e
  least : ∀ l e, S l e → ∃ d, d ≤ e ∧ (l, d) ∈ t

variable {level : PermissionLevel} {t : List (PermissionLevel × Int)}

theorem mem_emplaceDelay {x : PermissionLevel × Int} (h : x ∈ emplaceDelay level delay t) :
    x ∈ t ∨ x = (level, delay) := by
  induction t with
  | nil => exact .inr (mem_singleton.mp h)
  | cons _ _ ih =>
    rw [emplaceDelay] at h
    split at h
    · rename_i heq
      rcases mem_cons.mp h with rfl | h
      · split
        · exact .inr (by rw [heq])
        · exact .inl (mem_cons_self ..)
      · exact .inl (mem_cons_of_mem _ h)
    · split at h
      · rcases mem_cons.mp h with rfl | h
        · exact .inr rfl
        · exact .inl h
      · rcases mem_cons.mp h with rfl | h
        · exact .inl (mem_cons_self ..)
        · exact (ih h).imp_left (mem_cons_of_mem _)

theorem emplaceDelay_self (level : PermissionLevel) (delay : Int)
    (t : List (PermissionLevel × Int)) : ∃ d, d ≤ delay ∧ (level, d) ∈ emplaceDelay level delay t := by
  induction t with
  | nil => exact ⟨delay, le_refl _, mem_singleton_self _⟩
  | cons y _ ih =>
    rw [emplaceDelay]
    split
    · rename_i heq
      refine ⟨if delay < y.2 then delay else y.2, ?_, ?_⟩
      · split <;> omega
      · rw [heq]
        exact mem_cons_self ..
    · split
      · exact ⟨delay, le_refl _, mem_cons_self ..⟩
      · obtain ⟨d, hd, hmem⟩ := ih
        exact ⟨d, hd, mem_cons_of_mem _ hmem⟩

variable {e : Int} {S : PermissionLevel → Int → Prop}

theorem emplaceDelay_mono (level : PermissionLevel) (delay : Int) {l : PermissionLevel}
    (h : (l, e) ∈ t) : ∃ d, d ≤ e ∧ (l, d) ∈ emplaceDelay level delay t := by
  induction t with
  | nil => cases h
  | cons _ _ ih =>
    rw [emplaceDelay]
    split
    · rcases mem_cons.mp h with rfl | h
      · refine ⟨_, ?_, mem_cons_self ..⟩
        split <;> omega
      · exact ⟨e, le_refl _, mem_cons_of_mem _ h⟩
    · split
      · exact ⟨e, le_refl _, mem_cons_of_mem _ h⟩
      · rcases mem_cons.mp h with rfl | h
        · exact ⟨e, le_refl _, mem_cons_self ..⟩
        · obtain ⟨d, hd, hmem⟩ := ih h
          exact ⟨d, hd, mem_cons_of_mem _ hmem⟩

theorem Tracks.emplace (h : Tracks t S) (level : PermissionLevel) (delay : Int) :
    Tracks (emplaceDelay level delay t) fun l e => S l e ∨ l = level ∧ e = delay where
  sub := by
    intro l e hmem
    rcases mem_emplaceDelay hmem with hmem | heq
    · exact .inl (h.sub l e hmem)
    · exact .inr (Prod.mk.inj heq)
  least := by
    rintro l e (hS | ⟨rfl, rfl⟩)
    · obtain ⟨d, hd, hmem⟩ := h.least l e hS
      obtain ⟨d', hd', hmem'⟩ := emplaceDelay_mono level delay hmem
      exact ⟨d', hd'.trans hd, hmem'⟩
    · exact emplaceDelay_self l e t

theorem Tracks.congr {S' : PermissionLevel → Int → Prop} (h : Tracks t S)
    (hS : ∀ l e, S l e ↔ S' l e) : Tracks t S' where
  sub l e hmem := (hS l e).mp (h.sub l e hmem)
  least l e hl := h.least l e ((hS l e).mpr hl)

/-- The map has the least delay of every level. -/
theorem Tracks.isLeast (h : Tracks t S) (he : S level e) :
    ∃ d, (level, d) ∈ t ∧ IsLeast {e | S level e} d := by
  obtain ⟨d0, _, hmem0⟩ := h.least level e he
  obtain ⟨⟨l, d⟩, hfilter, hmin⟩ := Finset.exists_min_image
    (t.toFinset.filter fun x => x.1 = level) Prod.snd ⟨(level, d0), by simp [hmem0]⟩
  obtain ⟨hmem, rfl⟩ : (l, d) ∈ t ∧ l = level := by simpa using hfilter
  refine ⟨d, hmem, h.sub _ _ hmem, fun e' he' => ?_⟩
  obtain ⟨d', hd', hmem'⟩ := h.least _ _ he'
  exact (hmin (l, d') (by simp [hmem'])).trans hd'

/-! ## 6. Soundness of the gate -/

def Declared (c : GateContext K) (delay : Int) (actions : List DeclaredAction)
    (level : PermissionLevel) (given : Int) : Prop :=
  ∃ act ∈ actions, level ∈ act.authorization ∧
    ∃ special, checkSpecialCase c delay act = .ok (special, given)

variable {t' : List (PermissionLevel × Int)}

theorem declareAuthorizations_ok {db : Database K} {ds : List PermissionLevel}
    (h : ds.foldlM (declareAuthorization db [] act special) t = .ok t') (ht : Tracks t S) :
    (Tracks t' fun l e => S l e ∨ l ∈ ds ∧ e = special.2) ∧
      ∀ d ∈ ds, special.1 = false → checkMinimumPermission db act d = .ok () := by
  induction ds generalizing t S with
  | nil =>
    cases h
    exact ⟨ht.congr fun l e => by simp, fun d hd => absurd hd not_mem_nil⟩
  | cons d _ ih =>
    rw [foldlM_cons, bind_eq_ok] at h
    obtain ⟨t1, hd, hrest⟩ := h
    simp only [declareAuthorization, bind_eq_ok] at hd
    obtain ⟨_, hmin, hd⟩ := hd
    rw [if_neg not_mem_nil] at hd
    cases hd
    obtain ⟨htracks, hmins⟩ := ih hrest (ht.emplace d special.2)
    refine ⟨htracks.congr fun l e => ?_, fun d' hd' hspecial => ?_⟩
    · rw [mem_cons]
      tauto
    · rcases mem_cons.mp hd' with rfl | hd'
      · rw [hspecial] at hmin
        exact hmin
      · exact hmins d' hd' hspecial

theorem declareActions_ok {actions : List DeclaredAction}
    (h : actions.foldlM (declareAction c [] delay) t = .ok t') (ht : Tracks t S) :
    (Tracks t' fun l e => S l e ∨ Declared c delay actions l e) ∧
      ∀ act ∈ actions, ∀ d ∈ act.authorization, (∃ e, Declared c delay actions d e) ∧
        (¬ act.IsNativeAuth → checkMinimumPermission c.db act d = .ok ()) := by
  induction actions generalizing t S with
  | nil =>
    cases h
    exact ⟨ht.congr fun l e => by simp [Declared], fun d hd => absurd hd not_mem_nil⟩
  | cons act actions ih =>
    rw [foldlM_cons, bind_eq_ok] at h
    obtain ⟨t1, hact, hrest⟩ := h
    simp only [declareAction, bind_eq_ok] at hact
    obtain ⟨special, hspecial, hact⟩ := hact
    obtain ⟨htracks1, hmins1⟩ := declareAuthorizations_ok hact ht
    obtain ⟨htracks, hmins⟩ := ih hrest htracks1
    have hdeclared : ∀ l e, Declared c delay (act :: actions) l e ↔
        (l ∈ act.authorization ∧ e = special.2) ∨ Declared c delay actions l e := by
      intro l e
      simp only [Declared, mem_cons, exists_eq_or_imp, hspecial]
      refine or_congr_left (and_congr_right fun _ => ?_)
      constructor
      · rintro ⟨b, hb⟩
        rw [Except.ok.inj hb]
      · rintro rfl
        exact ⟨special.1, rfl⟩
    refine ⟨htracks.congr fun l e => ?_, fun act' hact' d hd => ?_⟩
    · rw [hdeclared]
      tauto
    · rcases mem_cons.mp hact' with rfl | hact'
      · refine ⟨⟨special.2, (hdeclared _ _).mpr (.inl ⟨hd, rfl⟩)⟩, fun hnative => ?_⟩
        exact hmins1 d hd (checkSpecialCase_ok hspecial hnative)
      · obtain ⟨⟨e, he⟩, hmin⟩ := hmins act' hact' d hd
        exact ⟨⟨e, (hdeclared _ _).mpr (.inr he)⟩, hmin⟩

theorem PermissionIndex.authorityOf_eq_some {auth : Authority K}
    (h : idx.authorityOf level = some auth) :
    ∃ p, idx.getPermission level = .ok p ∧ p.auth = auth := by
  unfold authorityOf at h
  split at h
  · rename_i p hp
    exact ⟨p, hp, Option.some.inj h⟩
  · cases h

theorem PermissionIndex.regular (h : ∀ level p, idx.getPermission level = .ok p → p.auth.Checkable)
    :
    Regular idx.authorityOf where
  named := by
    intro level auth hauth
    obtain ⟨p, hp, _⟩ := authorityOf_eq_some hauth
    exact (getPermission_ok hp).1.2
  checkable := by
    intro level auth hauth
    obtain ⟨p, hp, rfl⟩ := authorityOf_eq_some hauth
    exact h level p hp

section Soundness

variable [DecidableEq K]

/-- The loop over the map: every entry holds under its delay. -/
theorem checkSatisfieds_ok {c : GateContext K} {keys : Finset K}
    {permissions : List PermissionLevel} (hreg : Regular c.db.permissions.authorityOf)
    {t : List (PermissionLevel × Int)} {used used' : Finset K}
    (h : t.foldlM (checkSatisfied c keys permissions) used = .ok used') :
    ∀ x ∈ t, Holds c.db.permissions.authorityOf ⟨keys, permissions, x.2⟩ x.1 := by
  induction t generalizing used with
  | nil => exact fun x hx => absurd hx not_mem_nil
  | cons _ _ ih =>
    rw [foldlM_cons, bind_eq_ok] at h
    obtain ⟨used1, hy, hrest⟩ := h
    simp only [checkSatisfied, ok_iff] at hy
    exact forall_mem_cons.mpr ⟨satisfied_sound hreg hy.1, ih hrest⟩

/-- **The gate is sound.**  When `check_authorization` returns, each level that an action
    declares is of a permission that is the linked one or above it, unless the action is one
    of the five native ones or linked to `eosio.any`; and it holds under the smallest delay
    that the gate gives to an action declaring it.  Authorities that pass `validate` are
    `Checkable`; the graph they form is arbitrary. -/
theorem authorization_gate_sound {c : GateContext K}
    (hvalid : ∀ level p, c.db.permissions.getPermission level = .ok p → p.auth.Checkable)
    {actions : List DeclaredAction} {keys : Finset K} {permissions : List PermissionLevel}
    {delay : Int} {allowUnusedKeys : Bool}
    (h : checkAuthorization c actions keys permissions delay allowUnusedKeys [] = .ok ()) :
    ∀ act ∈ actions, ∀ d ∈ act.authorization,
      (¬ act.IsNativeAuth →
        lookupLinkedPermission c.db d.actor act.account act.name ≠ some eosioAnyName →
        AboveMinimum c.db act d) ∧
      ∃ given, IsLeast {e | Declared c (effectiveDelay c delay) actions d e} given ∧
        Holds c.db.permissions.authorityOf ⟨keys, permissions, given⟩ d := by
  simp only [checkAuthorization, bind_eq_ok] at h
  obtain ⟨t, ht, used, hused, _⟩ := h
  have hempty : Tracks [] fun _ _ => False :=
    ⟨fun l e hmem => absurd hmem not_mem_nil, fun l e hfalse => hfalse.elim⟩
  obtain ⟨htracks, hmins⟩ := declareActions_ok ht hempty
  have hholds := checkSatisfieds_ok (PermissionIndex.regular hvalid) hused
  intro act hact d hd
  obtain ⟨⟨e, he⟩, hmin⟩ := hmins act hact d hd
  refine ⟨fun hnative hany => checkMinimumPermission_ok (hmin hnative) hany, ?_⟩
  obtain ⟨given, hmem, hleast⟩ := (htracks.congr fun l e => or_iff_right id).isLeast he
  exact ⟨given, hleast, hholds (d, given) hmem⟩

end Soundness

/-- Two accounts; `alice` needs a key of `bob` beside her own. -/
def samplePermissions : PermissionIndex Nat where
  rows :=
    [⟨1, 0, N "alice", ownerName, .ofKey 2⟩,
      ⟨2, 1, N "alice", activeName, ⟨2, [⟨3, 1⟩], [⟨⟨N "bob", activeName⟩, 1⟩], []⟩⟩,
      ⟨3, 0, N "bob", ownerName, .ofKey 4⟩, ⟨4, 3, N "bob", activeName, .ofKey 5⟩]
  nextId := 5
  ids := by decide
  levels := by decide
  fresh := by decide

def sampleGate : GateContext Nat := ⟨⟨∅, samplePermissions, ∅⟩, ∅, 3600, 6⟩

def sampleAction : DeclaredAction :=
  ⟨N "bob", N "hi", [⟨N "alice", activeName⟩], ⟨none, none, none, none, none⟩⟩

theorem authorization_gate_sound_sample :
    checkAuthorization sampleGate [sampleAction] {3, 5} [] 0 false [] = .ok () ∧
      ∃ given, Holds samplePermissions.authorityOf ⟨{3, 5}, [], given⟩ ⟨N "alice", activeName⟩ := by
  have hcheck : checkAuthorization sampleGate [sampleAction] {3, 5} [] 0 false [] = .ok () := by
    decide +kernel
  have hvalid : ∀ level p, sampleGate.db.permissions.getPermission level = .ok p →
      p.auth.Checkable := by
    intro level p hget
    have hall : ∀ p ∈ samplePermissions.rows, validate p.auth = true := by decide +kernel
    exact .of_validate (hall p (PermissionIndex.getPermission_ok hget).2.1)
  obtain ⟨_, given, _, hholds⟩ := authorization_gate_sound hvalid hcheck sampleAction
    (mem_singleton_self _) ⟨N "alice", activeName⟩ (mem_singleton_self _)
  exact ⟨hcheck, given, hholds⟩

end YottaChain.Permissions
