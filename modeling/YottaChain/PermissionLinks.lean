/-
  **What a permission link requires exists.**

  `check_authorization` reads the permission that a link requires, so a link whose
  permission is missing blocks every action it covers.  `deleteauth` keeps what a link of
  the same account requires, and nothing renames a permission; what remains is that
  `linkauth` asks for a permission of that name in any account.  A link resolves in every
  state exactly when each `linkauth` names a permission of its own account.
-/
import YottaChain.PermissionForest

namespace YottaChain.Permissions

open Checked List

variable {K : Type}

/-! ## 1. Resolved links -/

def PermissionIndex.allLevels (idx : PermissionIndex K) : List PermissionLevel :=
  idx.rows.map PermissionObject.level

variable {idx : PermissionIndex K}

theorem PermissionIndex.getPermission_iff {level : PermissionLevel} :
    (∃ p, idx.getPermission level = .ok p) ↔
      (level.actor ≠ 0 ∧ level.permission ≠ 0) ∧ level ∈ idx.allLevels := by
  constructor
  · rintro ⟨p, h⟩
    obtain ⟨hnames, hp, hlevel⟩ := getPermission_ok h
    exact ⟨hnames, mem_map.mpr ⟨p, hp, hlevel⟩⟩
  · rintro ⟨hnames, hmem⟩
    obtain ⟨p, hp⟩ := mem_map.mp hmem
    refine ⟨p, ?_⟩
    simp only [getPermission, findPermission, ok_iff]
    exact ⟨some p, ⟨hnames, findLevel_eq_some.mpr hp⟩, rfl⟩

/-- Every link but those to `eosio.any` requires a permission that `get_permission` finds. -/
def LinksResolve (db : Database K) : Prop :=
  ∀ account code type required, db.links.find (account, code, type) = some required →
    required ≠ eosioAnyName → ∃ p, db.permissions.getPermission ⟨account, required⟩ = .ok p

def LinksOwn (db : Database K) : NativeAction K → Prop
  | .linkauth account _ _ requirement =>
      requirement = eosioAnyName ∨ (⟨account, requirement⟩ : PermissionLevel) ∈
        db.permissions.allLevels
  | _ => True

variable {db db' : Database K}

theorem LinksResolve.mono (h : LinksResolve db) (hlinks : db'.links = db.links)
    (hlevels : ∀ l ∈ db.permissions.allLevels, l ∈ db'.permissions.allLevels) :
    LinksResolve db' := by
  intro account code type required hfind hany
  rw [hlinks] at hfind
  have hget := h account code type required hfind hany
  rw [PermissionIndex.getPermission_iff] at hget ⊢
  exact ⟨hget.1, hlevels _ hget.2⟩

/-! ## 2. The actions -/

variable {account : Name} {idx' : PermissionIndex K} {name : Name} {auth : Authority K}

theorem PermissionIndex.allLevels_create {parent id : Nat}
    (h : idx.createPermission account name parent auth = .ok (idx', id)) :
    ∀ l ∈ idx.allLevels, l ∈ idx'.allLevels := by
  intro l hl
  rw [allLevels, (createPermission_ok h).2.2, map_append]
  exact mem_append_left _ hl

theorem PermissionIndex.allLevels_modify (idx : PermissionIndex K) (id : Nat) (auth : Authority K) :
    (idx.modifyPermission id auth).allLevels = idx.allLevels :=
  map_setAuth _ (fun _ _ => rfl) id auth idx.rows

theorem PermissionIndex.allLevels_remove {p : PermissionObject K} (hp : p ∈ idx.rows)
    (h : idx.removePermission p.id = .ok idx') :
    ∀ l ∈ idx.allLevels, l ≠ p.level → l ∈ idx'.allLevels := by
  intro l hl hne
  obtain ⟨q, hq, rfl⟩ := mem_map.mp hl
  rw [allLevels, (removePermission_ok h).2]
  refine mem_map_of_mem (mem_filter.mpr ⟨hq, decide_eq_true fun heq => hne ?_⟩)
  rw [eq_of_id hq hp heq]

variable {c : ApplyContext K}

theorem newaccount_levels [LinearOrder K] {creator : Name} {owner active : Authority K}
    (h : newaccount c db creator name owner active = .ok db') :
    db'.links = db.links ∧ ∀ l ∈ db.permissions.allLevels, l ∈ db'.permissions.allLevels := by
  simp only [newaccount, ok_iff] at h
  obtain ⟨_, _, _, _, _, _, _, _, _, _, _, _, _, _, _, _, ⟨idx1, id1⟩, h1,
    ⟨idx2, id2⟩, h2, rfl⟩ := h
  refine ⟨rfl, fun l hl => ?_⟩
  exact PermissionIndex.allLevels_create h2 l (PermissionIndex.allLevels_create h1 l hl)

variable {permission : Name}

theorem updateauth_levels [LinearOrder K] {parent : Name}
    (h : updateauth c db account permission parent auth = .ok db') :
    db'.links = db.links ∧ ∀ l ∈ db.permissions.allLevels, l ∈ db'.permissions.allLevels := by
  simp only [updateauth, bind_eq_ok] at h
  obtain ⟨_, _, found, _, pid, _, h⟩ := h
  cases found with
  | some =>
    simp only [ok_iff] at h
    obtain ⟨_, _, rfl⟩ := h
    refine ⟨rfl, fun l hl => ?_⟩
    rw [PermissionIndex.allLevels_modify]
    exact hl
  | none =>
    simp only [ok_iff] at h
    obtain ⟨⟨idx, id⟩, hcreate, rfl⟩ := h
    exact ⟨rfl, PermissionIndex.allLevels_create hcreate⟩

/-- No link of the account requires the level that is removed. -/
theorem LinksResolve.deleteauth (hl : LinksResolve db)
    (h : deleteauth c db account permission = .ok db') : LinksResolve db' := by
  obtain ⟨_, _, hlink, p, hp, hlevel, idx, hremove, rfl⟩ := deleteauth_ok h
  intro a code type required hfind hany
  have hget := hl a code type required hfind hany
  rw [PermissionIndex.getPermission_iff] at hget ⊢
  refine ⟨hget.1, PermissionIndex.allLevels_remove hp hremove _ hget.2 fun heq => ?_⟩
  rw [hlevel] at heq
  cases heq
  rw [hasLink, decide_eq_false_iff_not] at hlink
  refine hlink ⟨(account, code, type), ?_, rfl, hfind⟩
  exact Finmap.mem_keys.mpr (Finmap.mem_of_lookup_eq_some hfind)

theorem LinksResolve.erase (h : LinksResolve db) (k : Name × Name × Name) :
    LinksResolve { db with links := db.links.erase k } := by
  intro account code type required herase hany
  have hfind := (Table.find_erase db.links k (account, code, type)).symm.trans herase
  split at hfind
  · cases hfind
  · exact h account code type required hfind hany

/-- A new link resolves exactly if its account has the permission. -/
theorem LinksResolve.linkauth_iff {code type requirement : Name} (hl : LinksResolve db)
    (hf : Forest db.accounts db.permissions.rows)
    (h : linkauth c db account code type requirement = .ok db') :
    LinksResolve db' ↔ LinksOwn db (.linkauth account code type requirement) := by
  have hnames : account ≠ 0 ∧ requirement ≠ 0 := by
    simp only [linkauth, ok_iff] at h
    obtain ⟨hrequirement, _, _, haccount, _⟩ := h
    refine ⟨fun hzero => haccount ?_, hrequirement⟩
    rw [hzero]
    exact hf.nameless
  rw [linkauth_ok h]
  constructor
  · intro hl'
    refine or_iff_not_imp_left.mpr fun hany => ?_
    have hget := hl' account code type requirement (Table.find_put_self _ _ _) hany
    exact (PermissionIndex.getPermission_iff.mp hget).2
  · intro hown a co ty required hput hany
    have hfind := (Table.find_put db.links (account, code, type) (a, co, ty) requirement).symm.trans
      hput
    split_ifs at hfind with heq
    · cases heq
      cases hfind
      exact PermissionIndex.getPermission_iff.mpr ⟨hnames, hown.resolve_left hany⟩
    · exact hl a co ty required hfind hany

/-- One step: resolved links stay resolved exactly if a new link is to the account's own
    permission. -/
theorem LinksResolve.applyNative_iff [LinearOrder K] {a : NativeAction K} (hl : LinksResolve db)
    (hf : Forest db.accounts db.permissions.rows) (h : applyNative c db a = .ok db') :
    LinksResolve db' ↔ LinksOwn db a := by
  cases a with
  | newaccount =>
    obtain ⟨hlinks, hlevels⟩ := newaccount_levels h
    exact iff_of_true (hl.mono hlinks hlevels) trivial
  | updateauth =>
    obtain ⟨hlinks, hlevels⟩ := updateauth_levels h
    exact iff_of_true (hl.mono hlinks hlevels) trivial
  | deleteauth => exact iff_of_true (hl.deleteauth h) trivial
  | linkauth => exact hl.linkauth_iff hf h
  | unlinkauth =>
    rw [unlinkauth_ok h]
    exact iff_of_true (hl.erase _) trivial

/-! ## 3. Over every run -/

theorem LinksResolve.initializeDatabase {key : K} (h : Permissions.initializeDatabase key = .ok db)
    :
    LinksResolve db := by
  have hlinks : db.links = ∅ := by
    simp only [Permissions.initializeDatabase, createNativeAccount, ok_iff] at h
    obtain ⟨_, ⟨_, _, _, _, _, _, rfl⟩, _, ⟨_, _, _, _, _, _, rfl⟩, _, ⟨_, _, _, _, _, _, rfl⟩, _,
      _, _, _, _, _, rfl⟩ := h
    rfl
  intro account code type required hfind
  rw [hlinks] at hfind
  cases hfind

/-- **Links resolve.**  While every `linkauth` names a permission of its own account, every
    link of every database reached resolves; and from any of these databases the next action
    keeps that exactly if it meets the same condition. -/
theorem links_resolve_over_runs [LinearOrder K] {key : K} {db₀ db : Database K}
    (hinit : Permissions.initializeDatabase key = .ok db₀)
    (hrun : Run.Steps (NativeStep LinksOwn) db₀ db) :
    LinksResolve db ∧ ∀ (c : ApplyContext K) (a : NativeAction K) (db' : Database K),
      applyNative c db a = .ok db' → (LinksResolve db' ↔ LinksOwn db a) := by
  have hinv : Forest db.accounts db.permissions.rows ∧ LinksResolve db := by
    refine Run.invariant (P := fun db : Database K =>
      Forest db.accounts db.permissions.rows ∧ LinksResolve db) ?_
      ⟨.initializeDatabase hinit, .initializeDatabase hinit⟩ hrun
    rintro db db' ⟨hf, hl⟩ ⟨c, a, hown, happly⟩
    exact ⟨hf.applyNative happly, (hl.applyNative_iff hf happly).mpr hown⟩
  refine ⟨hinv.2, fun c a db' happly => ?_⟩
  exact hinv.2.applyNative_iff hinv.1 happly

/-- The databases up to `alice`'s own permission, and one more with a link of `account` to a
    permission of that name. -/
def sampleLink (account : Name) :
    Checked ((Database Nat × Database Nat × Database Nat) × Database Nat) := do
  let dbs ← sampleDatabases
  let db ← linkauth ⟨fun _ => true, 0, fun _ => true⟩ dbs.2.2 account systemAccountName
    (N "transfer") (N "pay")
  pure (dbs, db)

theorem sampleLink_steps {dbs : Database Nat × Database Nat × Database Nat} {db : Database Nat}
    (h : sampleLink account = .ok (dbs, db)) {allowed : Database Nat → NativeAction Nat → Prop}
    (hallowed : ∀ db a, LinksOwn db a → allowed db a)
    (hlink : allowed dbs.2.2 (.linkauth account systemAccountName (N "transfer") (N "pay"))) :
    Permissions.initializeDatabase 1 = .ok dbs.1 ∧ Run.Steps (NativeStep allowed) dbs.1 db := by
  simp only [sampleLink, sampleDatabases, ok_iff] at h
  obtain ⟨_, ⟨db0, hinit, db1, hnew, db2, hupdate, rfl⟩, db3, hlinkauth, rfl, rfl⟩ := h
  have h1 : NativeStep allowed db0 db1 :=
    ⟨_, .newaccount systemAccountName (N "alice") (.ofKey 2) (.ofKey 3), hallowed _ _ trivial, hnew⟩
  have h2 : NativeStep allowed db1 db2 :=
    ⟨_, .updateauth (N "alice") (N "pay") activeName (.ofKey 4), hallowed _ _ trivial, hupdate⟩
  exact ⟨hinit, .tail (.tail (.single h1) h2) ⟨_, _, hlink, hlinkauth⟩⟩

theorem links_resolve_over_runs_sample : ∃ db₀ db : Database Nat,
    Permissions.initializeDatabase 1 = .ok db₀ ∧ Run.Steps (NativeStep LinksOwn) db₀ db ∧
      db.links.find (N "alice", systemAccountName, N "transfer") = some (N "pay") ∧
      LinksResolve db := by
  obtain ⟨⟨dbs, db⟩, hdbs, hvalues⟩ := exists_of_map_eq_ok (x := sampleLink (N "alice"))
    (f := fun r =>
      (decide ((⟨N "alice", N "pay"⟩ : PermissionLevel) ∈ r.1.2.2.permissions.allLevels),
      r.2.links.find (N "alice", systemAccountName, N "transfer")))
    (b := (true, some (N "pay"))) (by decide +kernel)
  obtain ⟨hown, hfind⟩ := Prod.mk.inj hvalues
  obtain ⟨hinit, hrun⟩ := sampleLink_steps hdbs (fun _ _ h => h) (.inr (of_decide_eq_true hown))
  exact ⟨dbs.1, db, hinit, hrun, hfind, (links_resolve_over_runs hinit hrun).1⟩

/-- `eosio` has no permission `pay`, but may link to it because `alice` has one. -/
theorem link_to_foreign_permission : ∃ db₀ db : Database Nat,
    Permissions.initializeDatabase 1 = .ok db₀ ∧
      Run.Steps (NativeStep fun _ _ => True) db₀ db ∧
      db.links.find (systemAccountName, systemAccountName, N "transfer") = some (N "pay") ∧
      db.permissions.getPermission ⟨systemAccountName, N "pay"⟩ =
        .error "Failed to retrieve permission: ${level}" := by
  obtain ⟨⟨dbs, db⟩, hdbs, hvalues⟩ := exists_of_map_eq_ok (x := sampleLink systemAccountName)
    (f := fun r => (r.2.links.find (systemAccountName, systemAccountName, N "transfer"),
      (r.2.permissions.getPermission ⟨systemAccountName, N "pay"⟩).map fun p => p.id))
    (b := (some (N "pay"), .error "Failed to retrieve permission: ${level}")) (by decide +kernel)
  obtain ⟨hfind, hget⟩ := Prod.mk.inj hvalues
  obtain ⟨hinit, hrun⟩ := sampleLink_steps hdbs (fun _ _ _ => trivial) trivial
  refine ⟨dbs.1, db, hinit, hrun, hfind, ?_⟩
  cases hp : db.permissions.getPermission ⟨systemAccountName, N "pay"⟩ with
  | error =>
    rw [hp] at hget
    cases hget
    rfl
  | ok =>
    rw [hp] at hget
    cases hget

end YottaChain.Permissions
