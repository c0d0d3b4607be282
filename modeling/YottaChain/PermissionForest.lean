/-
  **Permissions form a forest, and `satisfies` is the ancestor relation.**

  `Forest` is the invariant: the row 0 is reserved, every other row belongs to an
  account and is either an owner permission without a parent or hangs below an older
  row of the same account, and every account has its owner and active permissions.
  No action moves a row or removes a row with children, so ids grow along every
  branch.  The walk of `satisfies` therefore ends, and `walkUp_iff` says with what.
-/
import YottaChain.Permissions

namespace YottaChain.Permissions

open Checked List

variable {K : Type}

/-! ## 1. Spec lemmas of the index -/

namespace PermissionIndex

variable {idx idx' : PermissionIndex K} {id : Nat}

theorem createPermission_ok {account name : Name} {parent : Nat} {auth : Authority K}
    (h : idx.createPermission account name parent auth = .ok (idx', id)) :
    id = idx.nextId ∧ idx'.nextId = idx.nextId + 1 ∧
      idx'.rows = idx.rows ++ [⟨idx.nextId, parent, account, name, auth⟩] := by
  unfold createPermission at h
  split at h
  · cases h
  · cases h
    exact ⟨rfl, rfl, rfl⟩

theorem getPermission_ok {level : PermissionLevel} {p : PermissionObject K}
    (h : idx.getPermission level = .ok p) :
    (level.actor ≠ 0 ∧ level.permission ≠ 0) ∧ p ∈ idx.rows ∧ p.level = level := by
  simp only [getPermission, findPermission, ok_iff] at h
  obtain ⟨found, ⟨hnames, hfind⟩, h⟩ := h
  cases found with
  | none => cases h
  | some =>
    cases h
    exact ⟨hnames, findLevel_eq_some.mp hfind⟩

theorem removePermission_ok (h : idx.removePermission id = .ok idx') :
    (∀ p ∈ idx.rows, p.parent ≠ id) ∧ idx'.rows = idx.rows.filter fun p => decide (p.id ≠ id) := by
  simp only [removePermission, ok_iff] at h
  obtain ⟨hchildren, rfl⟩ := h
  exact ⟨hchildren, rfl⟩

end PermissionIndex

/-! ## 2. The invariant -/

theorem activeName_ne_ownerName : activeName ≠ ownerName := by decide

/-- Where a row stands: it belongs to an account and is the owner permission without a
    parent, or it is below an older row of the same account. -/
structure Placed (accounts : Table Name Bool) (rows : List (PermissionObject K))
    (row : PermissionObject K) : Prop where
  account : (accounts.find row.owner).isSome = true
  root : row.name = ownerName → row.parent = 0
  below : row.name ≠ ownerName → ∃ p ∈ rows, p.id = row.parent ∧ p.owner = row.owner ∧
    p.id < row.id ∧ (row.name = activeName → p.name = ownerName)

structure Forest (accounts : Table Name Bool) (rows : List (PermissionObject K)) : Prop where
  reserved : ∃ r ∈ rows, r.id = 0 ∧ r.parent = 0 ∧ r.owner = 0
  placed : ∀ row ∈ rows, row.id ≠ 0 → Placed accounts rows row
  opened : ∀ a, (accounts.find a).isSome = true →
    (∃ o ∈ rows, o.owner = a ∧ o.name = ownerName) ∧ ∃ act ∈ rows, act.owner = a ∧
      act.name = activeName
  nameless : accounts.find 0 = none

variable {accounts : Table Name Bool} {rows : List (PermissionObject K)} {row : PermissionObject K}

theorem Placed.mono {accounts' : Table Name Bool} {rows' : List (PermissionObject K)}
    (h : Placed accounts rows row)
    (haccounts : ∀ a, (accounts.find a).isSome = true → (accounts'.find a).isSome = true)
    (hrows : ∀ p ∈ rows, p.id = row.parent → p ∈ rows') : Placed accounts' rows' row where
  account := haccounts _ h.account
  root := h.root
  below := by
    intro hname
    obtain ⟨p, hp, hid, hrest⟩ := h.below hname
    exact ⟨p, hrows p hp hid, hid, hrest⟩

variable {idx : PermissionIndex K} {p : PermissionObject K}

theorem Forest.id_ne_zero (hf : Forest accounts idx.rows) (hp : p ∈ idx.rows)
    (ha : (accounts.find p.owner).isSome = true) : p.id ≠ 0 := by
  intro hid
  obtain ⟨r, hr, hrid, _, howner⟩ := hf.reserved
  have heq : p = r := PermissionIndex.eq_of_id hp hr (hid.trans hrid.symm)
  rw [heq, howner, hf.nameless] at ha
  cases ha

theorem Forest.id_eq_zero (hf : Forest accounts rows) (hp : p ∈ rows) (howner : p.owner = 0) :
    p.id = 0 := by
  by_contra hid
  have ha := (hf.placed p hp hid).account
  rw [howner, hf.nameless] at ha
  cases ha

/-! ## 3. The actions keep it -/

variable {account name : Name} {auth : Authority K} {idx' : PermissionIndex K}

/-- A new row below an existing one keeps the forest. -/
theorem Forest.create_child (hf : Forest accounts idx.rows) {id : Nat} (hp : p ∈ idx.rows)
    (hpowner : p.owner = account) (haccount : (accounts.find account).isSome = true)
    (hname : name ≠ ownerName) (hactive : name = activeName → p.name = ownerName)
    (h : idx.createPermission account name p.id auth = .ok (idx', id)) :
    Forest accounts idx'.rows := by
  obtain ⟨rfl, _, hrows⟩ := PermissionIndex.createPermission_ok h
  rw [hrows]
  refine ⟨?_, ?_, ?_, hf.nameless⟩
  · obtain ⟨r, hr, hzero⟩ := hf.reserved
    exact ⟨r, mem_append_left _ hr, hzero⟩
  · intro row hrow hid
    rcases mem_append.mp hrow with hrow | hrow
    · exact (hf.placed row hrow hid).mono (fun _ => id) fun q hq _ => mem_append_left _ hq
    · cases mem_singleton.mp hrow
      refine ⟨haccount, fun heq => absurd heq hname, fun _ => ?_⟩
      exact ⟨p, mem_append_left _ hp, rfl, hpowner, idx.fresh p hp, hactive⟩
  · intro a ha
    obtain ⟨⟨o, ho, horest⟩, act, hact, harest⟩ := hf.opened a ha
    exact ⟨⟨o, mem_append_left _ ho, horest⟩, act, mem_append_left _ hact, harest⟩

variable {active owner : Authority K}

theorem Forest.create_account {idx1 idx2 : PermissionIndex K} (hf : Forest accounts idx.rows)
    (privileged : Bool) {id1 id2 : Nat} (hname : name ≠ 0)
    (h1 : idx.createPermission name ownerName 0 owner = .ok (idx1, id1))
    (h2 : idx1.createPermission name activeName id1 active = .ok (idx2, id2)) :
    Forest (accounts.put name privileged) idx2.rows := by
  obtain ⟨rfl, hnext, hrows1⟩ := PermissionIndex.createPermission_ok h1
  obtain ⟨rfl, _, hrows2⟩ := PermissionIndex.createPermission_ok h2
  have hmono : ∀ a, (accounts.find a).isSome = true →
      ((accounts.put name privileged).find a).isSome = true := by
    intro a ha
    rw [Table.find_put]
    split
    · rfl
    · exact ha
  have hself : ((accounts.put name privileged).find name).isSome = true := by
    rw [Table.find_put_self]
    rfl
  rw [hrows2, hrows1, append_assoc]
  refine ⟨?_, ?_, ?_, ?_⟩
  · obtain ⟨r, hr, hzero⟩ := hf.reserved
    exact ⟨r, mem_append_left _ hr, hzero⟩
  · intro row hrow hid
    rcases mem_append.mp hrow with hrow | hrow
    · exact (hf.placed row hrow hid).mono hmono fun q hq _ => mem_append_left _ hq
    · simp only [singleton_append, mem_cons, not_mem_nil, or_false] at hrow
      rcases hrow with rfl | rfl
      · exact ⟨hself, fun _ => rfl, fun hne => absurd rfl hne⟩
      · refine ⟨hself, fun heq => absurd heq activeName_ne_ownerName, fun _ => ?_⟩
        refine ⟨⟨idx.nextId, 0, name, ownerName, owner⟩, by simp, rfl, rfl, ?_, fun _ => rfl⟩
        show idx.nextId < idx1.nextId
        rw [hnext]
        exact Nat.lt_succ_self _
  · intro a ha
    rw [Table.find_put] at ha
    split_ifs at ha with heq
    · subst heq
      exact ⟨⟨⟨idx.nextId, 0, a, ownerName, owner⟩, by simp, rfl, rfl⟩,
        ⟨idx1.nextId, idx.nextId, a, activeName, active⟩, by simp, rfl, rfl⟩
    · obtain ⟨⟨o, ho, horest⟩, act, hact, harest⟩ := hf.opened a ha
      exact ⟨⟨o, mem_append_left _ ho, horest⟩, act, mem_append_left _ hact, harest⟩
  · rw [Table.find_put_ne _ _ (Ne.symm hname)]
    exact hf.nameless

theorem setAuth_same (id : Nat) (auth : Authority K) (p : PermissionObject K) :
    (PermissionIndex.setAuth id auth p).id = p.id ∧
      (PermissionIndex.setAuth id auth p).parent = p.parent ∧
      (PermissionIndex.setAuth id auth p).owner = p.owner ∧
      (PermissionIndex.setAuth id auth p).name = p.name := by
  unfold PermissionIndex.setAuth
  split <;> exact ⟨rfl, rfl, rfl, rfl⟩

theorem Forest.modify (hf : Forest accounts idx.rows) (id : Nat) (auth : Authority K) :
    Forest accounts (idx.modifyPermission id auth).rows := by
  have hmem : ∀ p ∈ idx.rows,
      PermissionIndex.setAuth id auth p ∈ (idx.modifyPermission id auth).rows := by
    intro p hp
    exact mem_map_of_mem hp
  refine ⟨?_, ?_, ?_, hf.nameless⟩
  · obtain ⟨r, hr, hid, hparent, howner⟩ := hf.reserved
    obtain ⟨h1, h2, h3, _⟩ := setAuth_same id auth r
    exact ⟨_, hmem r hr, h1.trans hid, h2.trans hparent, h3.trans howner⟩
  · intro row hrow hid
    obtain ⟨q, hq, rfl⟩ := mem_map.mp hrow
    obtain ⟨h1, h2, h3, h4⟩ := setAuth_same id auth q
    have hplaced := hf.placed q hq (h1 ▸ hid)
    refine ⟨?_, ?_, ?_⟩
    · rw [h3]
      exact hplaced.account
    · rw [h2, h4]
      exact hplaced.root
    · rw [h1, h2, h3, h4]
      intro hname
      obtain ⟨p, hp, hpid, hpowner, hlt, hactive⟩ := hplaced.below hname
      obtain ⟨p1, _, p3, p4⟩ := setAuth_same id auth p
      refine ⟨_, hmem p hp, p1.trans hpid, p3.trans hpowner, ?_, ?_⟩
      · rw [p1]
        exact hlt
      · rw [p4]
        exact hactive
  · intro a ha
    obtain ⟨⟨o, ho, hoowner, honame⟩, act, hact, haowner, haname⟩ := hf.opened a ha
    obtain ⟨_, _, o3, o4⟩ := setAuth_same id auth o
    obtain ⟨_, _, a3, a4⟩ := setAuth_same id auth act
    exact ⟨⟨_, hmem o ho, o3.trans hoowner, o4.trans honame⟩, _, hmem act hact,
      a3.trans haowner, a4.trans haname⟩

/-- A row without children that is neither owner nor active can go. -/
theorem Forest.remove (hf : Forest accounts idx.rows) (hp : p ∈ idx.rows)
    (howner : p.name ≠ ownerName) (hactive : p.name ≠ activeName)
    (h : idx.removePermission p.id = .ok idx') : Forest accounts idx'.rows := by
  obtain ⟨hchildren, hrows⟩ := PermissionIndex.removePermission_ok h
  have hkeep : ∀ q ∈ idx.rows, q.id ≠ p.id → q ∈ idx'.rows := by
    intro q hq hne
    rw [hrows, mem_filter]
    exact ⟨hq, decide_eq_true hne⟩
  have hother : ∀ q ∈ idx.rows, q.name ≠ p.name → q ∈ idx'.rows := by
    intro q hq hne
    refine hkeep q hq fun heq => hne ?_
    rw [PermissionIndex.eq_of_id hq hp heq]
  refine ⟨?_, ?_, ?_, hf.nameless⟩
  · obtain ⟨r, hr, hid, hparent, hzero⟩ := hf.reserved
    -- the reserved row is its own parent, so it is not the one that goes
    refine ⟨r, hkeep r hr ?_, hid, hparent, hzero⟩
    rw [hid, ← hparent]
    exact hchildren r hr
  · intro row hrow hid
    rw [hrows, mem_filter] at hrow
    refine (hf.placed row hrow.1 hid).mono (fun _ => id) fun q hq hqid => hkeep q hq ?_
    rw [hqid]
    exact hchildren row hrow.1
  · intro a ha
    obtain ⟨⟨o, ho, hoowner, honame⟩, act, hact, haowner, haname⟩ := hf.opened a ha
    refine ⟨⟨o, hother o ho ?_, hoowner, honame⟩, act, hother act hact ?_, haowner, haname⟩
    · rw [honame]
      exact Ne.symm howner
    · rw [haname]
      exact Ne.symm hactive

variable {db db' : Database K}

theorem Forest.createNativeAccount (hf : Forest db.accounts db.permissions.rows) (hname : name ≠ 0)
    {privileged : Bool} (h : createNativeAccount db name owner active privileged = .ok db') :
    Forest db'.accounts db'.permissions.rows := by
  simp only [Permissions.createNativeAccount, ok_iff] at h
  obtain ⟨_, ⟨_, rfl⟩, ⟨idx1, id1⟩, h1, ⟨idx2, id2⟩, h2, rfl⟩ := h
  exact hf.create_account privileged hname h1 h2

variable {c : ApplyContext K}

theorem Forest.newaccount [LinearOrder K] (hf : Forest db.accounts db.permissions.rows)
    {creator : Name} (h : newaccount c db creator name owner active = .ok db') :
    Forest db'.accounts db'.permissions.rows := by
  simp only [Permissions.newaccount, ok_iff] at h
  obtain ⟨_, _, _, _, hname, _, _, _, _, _, _, ⟨_, rfl⟩, _, _, _, _, ⟨idx1, id1⟩, h1,
    ⟨idx2, id2⟩, h2, rfl⟩ := h
  exact hf.create_account false hname h1 h2

variable {permission parent : Name}

theorem checkUpdateauth_ok [LinearOrder K]
    (h : checkUpdateauth c db account permission parent auth = .ok ()) :
    (db.accounts.find account).isSome = true ∧ (permission = activeName → parent = ownerName) := by
  simp only [checkUpdateauth, ok_iff] at h
  obtain ⟨_, _, _, _, _, _, hfind, _, hactive, _⟩ := h
  rw [hfind]
  exact ⟨rfl, hactive⟩

theorem Forest.updateauth [LinearOrder K] (hf : Forest db.accounts db.permissions.rows)
    (h : updateauth c db account permission parent auth = .ok db') :
    Forest db'.accounts db'.permissions.rows := by
  simp only [Permissions.updateauth, bind_eq_ok] at h
  obtain ⟨_, hcheck, found, hfound, pid, hpid, h⟩ := h
  obtain ⟨haccount, hactive⟩ := checkUpdateauth_ok hcheck
  cases found with
  | some p =>
    simp only [ok_iff] at h
    obtain ⟨_, _, rfl⟩ := h
    exact hf.modify p.id auth
  | none =>
    simp only [ok_iff] at h
    obtain ⟨⟨idx, id⟩, hcreate, rfl⟩ := h
    simp only [PermissionIndex.findPermission, ok_iff] at hfound
    obtain ⟨_, hfound⟩ := hfound
    have hname : permission ≠ ownerName := by
      -- the account has its owner permission, so this one is not missing
      intro heq
      obtain ⟨⟨o, ho, hoowner, honame⟩, _⟩ := hf.opened account haccount
      have hlevel : o.level = ⟨account, permission⟩ := by
        rw [PermissionObject.level, hoowner, honame, heq]
      rw [PermissionIndex.findLevel_eq_some.mpr ⟨ho, hlevel⟩] at hfound
      cases hfound
    rw [parentId, if_neg hname] at hpid
    simp only [ok_iff] at hpid
    obtain ⟨p, hget, rfl⟩ := hpid
    obtain ⟨_, hp, hplevel⟩ := PermissionIndex.getPermission_ok hget
    have howner : p.owner = account := congrArg PermissionLevel.actor hplevel
    have hpname : p.name = parent := congrArg PermissionLevel.permission hplevel
    refine hf.create_child hp howner haccount hname (fun heq => ?_) hcreate
    rw [hpname]
    exact hactive heq

theorem deleteauth_ok (h : deleteauth c db account permission = .ok db') :
    permission ≠ activeName ∧ permission ≠ ownerName ∧ hasLink db account permission = false ∧
      ∃ p ∈ db.permissions.rows, p.level = ⟨account, permission⟩ ∧
        ∃ idx, db.permissions.removePermission p.id = .ok idx ∧
          db' = { db with permissions := idx } := by
  simp only [deleteauth, ok_iff] at h
  obtain ⟨_, _, hactive, howner, hlink, p, hget, idx, hremove, rfl⟩ := h
  obtain ⟨_, hp, hlevel⟩ := PermissionIndex.getPermission_ok hget
  exact ⟨hactive, howner, hlink, p, hp, hlevel, idx, hremove, rfl⟩

theorem Forest.deleteauth (hf : Forest db.accounts db.permissions.rows)
    (h : deleteauth c db account permission = .ok db') :
    Forest db'.accounts db'.permissions.rows := by
  obtain ⟨hactive, howner, _, p, hp, hlevel, idx, hremove, rfl⟩ := deleteauth_ok h
  have hname : p.name = permission := congrArg PermissionLevel.permission hlevel
  rw [← hname] at hactive howner
  exact hf.remove hp howner hactive hremove

variable {code type : Name}

theorem linkauth_ok {requirement : Name} (h : linkauth c db account code type requirement = .ok db')
    : db' = { db with links := db.links.put (account, code, type) requirement } := by
  simp only [linkauth, ok_iff] at h
  obtain ⟨_, _, _, _, _, _, h⟩ := h
  cases hfind : db.links.find (account, code, type) with
  | none =>
    rw [hfind] at h
    simp only [ok_iff] at h
    obtain ⟨_, ⟨_, rfl⟩, rfl⟩ := h
    rfl
  | some =>
    rw [hfind] at h
    simp only [ok_iff] at h
    obtain ⟨_, _, rfl⟩ := h
    rfl

theorem unlinkauth_ok (h : unlinkauth c db account code type = .ok db') :
    db' = { db with links := db.links.erase (account, code, type) } := by
  simp only [unlinkauth, ok_iff] at h
  obtain ⟨_, _, _, _, rfl⟩ := h
  rfl

theorem Forest.applyNative [LinearOrder K] (hf : Forest db.accounts db.permissions.rows)
    {a : NativeAction K} (h : applyNative c db a = .ok db') :
    Forest db'.accounts db'.permissions.rows := by
  cases a with
  | newaccount => exact hf.newaccount h
  | updateauth => exact hf.updateauth h
  | deleteauth => exact hf.deleteauth h
  | linkauth =>
    rw [linkauth_ok h]
    exact hf
  | unlinkauth =>
    rw [unlinkauth_ok h]
    exact hf

theorem Forest.empty : Forest (K := K) ∅ PermissionIndex.initializeDatabase.rows where
  reserved := ⟨_, mem_singleton_self _, rfl, rfl, rfl⟩
  placed := by
    intro row hrow hid
    rw [mem_singleton.mp hrow] at hid
    exact absurd rfl hid
  opened := by
    intro a ha
    cases ha
  nameless := rfl

variable {key : K}

theorem Forest.initializeDatabase (h : Permissions.initializeDatabase key = .ok db) :
    Forest db.accounts db.permissions.rows := by
  simp only [Permissions.initializeDatabase, ok_iff] at h
  obtain ⟨db₁, h1, db₂, h2, db3, h3, active, hget, ⟨idx1, majority⟩, hmajor, ⟨idx2, _⟩, hminor,
    rfl⟩ := h
  have hf1 := Forest.createNativeAccount (by exact Forest.empty) (by decide) h1
  have hf2 := hf1.createNativeAccount (by decide) h2
  have hf3 := hf2.createNativeAccount (by decide) h3
  obtain ⟨_, hactive, hlevel⟩ := PermissionIndex.getPermission_ok hget
  have howner : active.owner = producersAccountName := congrArg PermissionLevel.actor hlevel
  have haccount : (db3.accounts.find producersAccountName).isSome = true := by
    rw [← howner]
    refine (hf3.placed active hactive fun hid => ?_).account
    obtain ⟨r, hr, hrid, _, hzero⟩ := hf3.reserved
    rw [PermissionIndex.eq_of_id hactive hr (hid.trans hrid.symm), hzero] at howner
    exact absurd howner (by decide)
  have hf4 := hf3.create_child hactive howner haccount (by decide) (fun h => absurd h (by decide))
    hmajor
  obtain ⟨rfl, _, hrows⟩ := PermissionIndex.createPermission_ok hmajor
  have hmem : (⟨db3.permissions.nextId, active.id, producersAccountName,
      majorityProducersPermissionName, ⟨1, [], [⟨⟨systemAccountName, activeName⟩, 1⟩], []⟩⟩ :
      PermissionObject K) ∈ idx1.rows := by
    rw [hrows]
    exact mem_append_right _ (mem_singleton_self _)
  exact hf4.create_child hmem rfl haccount (by decide) (fun h => absurd h (by decide)) hminor

/-! ## 4. The walk to the root -/

/-- `p` is a proper ancestor of `q`. -/
inductive Ancestor (rows : List (PermissionObject K)) (p : PermissionObject K) :
    PermissionObject K → Prop where
  | parent {q : PermissionObject K} : p.id = q.parent → Ancestor rows p q
  | above {q r : PermissionObject K} :
      r ∈ rows → r.id = q.parent → Ancestor rows p r → Ancestor rows p q

/-- Rows older than `row`: what is left of a walk that stands there. -/
def older (rows : List (PermissionObject K)) (row : PermissionObject K) : Nat :=
  (rows.filter fun r => decide (r.id < row.id)).length

theorem older_lt_length (hrow : row ∈ rows) : older rows row < rows.length := by
  rw [older, length_filter_lt_length_iff_exists]
  exact ⟨row, hrow, by simp⟩

theorem older_lt (hp : p ∈ rows) (hlt : p.id < row.id) : older rows p < older rows row := by
  have hmem : p ∈ rows.filter fun r => decide (r.id < row.id) := by
    rw [mem_filter]
    exact ⟨hp, decide_eq_true hlt⟩
  have hfilter : (rows.filter fun r => decide (r.id < row.id)).filter
      (fun r => decide (r.id < p.id)) = rows.filter fun r => decide (r.id < p.id) := by
    rw [filter_filter]
    refine filter_congr fun r _ => ?_
    by_cases hr : r.id < p.id
    · simp [hr, hr.trans hlt]
    · simp [hr]
  have hlength := older_lt_length hmem
  rw [older, hfilter] at hlength
  exact hlength

/-- What a walk finds is an ancestor, whatever the rows are. -/
theorem walkUp_sound {n : Nat} (h : idx.walkUp p.id n row = .ok true) :
    Ancestor idx.rows p row := by
  induction n generalizing row with
  | zero => cases h
  | succ _ ih =>
    rw [PermissionIndex.walkUp] at h
    split at h
    · rename_i hparent
      exact .parent hparent
    · split at h
      · cases h
      · split at h
        · cases h
        · rename_i next hnext
          obtain ⟨hmem, hid⟩ := PermissionIndex.findId_eq_some.mp hnext
          exact .above hmem hid (ih h)

theorem satisfies_sound {q : PermissionObject K} (hp : p ∈ idx.rows) (hq : q ∈ idx.rows)
    (h : idx.satisfies p q = .ok true) : p.owner = q.owner ∧ (p = q ∨ Ancestor idx.rows p q) := by
  unfold PermissionIndex.satisfies at h
  split at h
  · cases h
  · rename_i howner
    refine ⟨not_not.mp howner, ?_⟩
    split at h
    · rename_i hnear
      exact hnear.imp (PermissionIndex.eq_of_id hp hq) .parent
    · split at h
      · cases h
      · rename_i parent hparent
        obtain ⟨hmem, hid⟩ := PermissionIndex.findId_eq_some.mp hparent
        exact .inr (.above hmem hid (walkUp_sound h))

section Walk

variable {accounts : Table Name Bool} {idx : PermissionIndex K} {p q : PermissionObject K}

theorem Forest.not_ancestor_reserved (hf : Forest accounts idx.rows) (hp : p.id ≠ 0)
    (hq : q.parent = 0) (hne : p.id ≠ q.parent) : ¬ Ancestor idx.rows p q := by
  intro h
  induction h with
  | parent heq => exact hne heq
  | above hr hid _ ih =>
    obtain ⟨z, hz, hzid, hzparent, _⟩ := hf.reserved
    have heq := PermissionIndex.eq_of_id hr hz (hid.trans (hq.trans hzid.symm))
    rw [← heq] at hzparent
    exact ih hzparent (by rw [hzparent]; exact hp)

/-- Every row has a parent row; below the root it is an older one. -/
theorem Forest.parent_row (hf : Forest accounts idx.rows) (hq : q ∈ idx.rows) :
    ∃ r ∈ idx.rows, r.id = q.parent ∧ (q.parent ≠ 0 → r.id < q.id) := by
  obtain ⟨z, hz, hzid, hzparent, _⟩ := hf.reserved
  by_cases hid : q.id = 0
  · have heq := PermissionIndex.eq_of_id hq hz (hid.trans hzid.symm)
    rw [← heq] at hzparent
    exact ⟨q, hq, hid.trans hzparent.symm, fun hne => absurd hzparent hne⟩
  · have hplaced := hf.placed q hq hid
    by_cases hname : q.name = ownerName
    · have hroot := hplaced.root hname
      exact ⟨z, hz, hzid.trans hroot.symm, fun hne => absurd hroot hne⟩
    · obtain ⟨r, hr, hrid, _, hlt, _⟩ := hplaced.below hname
      exact ⟨r, hr, hrid, fun _ => hlt⟩

theorem ancestor_iff_of_parent {r : PermissionObject K} (hr : r ∈ idx.rows) (hid : r.id = q.parent)
    (hne : p.id ≠ q.parent) : Ancestor idx.rows p q ↔ Ancestor idx.rows p r := by
  constructor
  · intro h
    cases h with
    | parent heq => exact absurd heq hne
    | above hr' hid' h =>
      rw [PermissionIndex.eq_of_id hr hr' (hid.trans hid'.symm)]
      exact h
  · exact Ancestor.above hr hid

/-- The walk ends within the rows older than where it stands, and finds the ancestors. -/
theorem Forest.walkUp_iff (hf : Forest accounts idx.rows) (hp : p.id ≠ 0) {n : Nat}
    {row : PermissionObject K} (hrow : row ∈ idx.rows) (hn : older idx.rows row < n) :
    ∃ b, idx.walkUp p.id n row = .ok b ∧ (b = true ↔ Ancestor idx.rows p row) := by
  induction n generalizing row with
  | zero => exact absurd hn (Nat.not_lt_zero _)
  | succ _ ih =>
    rw [PermissionIndex.walkUp]
    by_cases hparent : p.id = row.parent
    · rw [if_pos hparent]
      exact ⟨true, rfl, iff_of_true rfl (.parent hparent)⟩
    rw [if_neg hparent]
    by_cases hroot : row.parent = 0
    · rw [if_pos hroot]
      exact ⟨false, rfl, iff_of_false Bool.false_ne_true
        (hf.not_ancestor_reserved hp hroot hparent)⟩
    rw [if_neg hroot]
    obtain ⟨r, hr, hid, hlt⟩ := hf.parent_row hrow
    rw [PermissionIndex.findId_eq_some.mpr ⟨hr, hid⟩]
    have holder := older_lt hr (hlt hroot)
    obtain ⟨b, hwalk, hb⟩ := ih hr (by omega)
    refine ⟨b, hwalk, hb.trans ?_⟩
    exact (ancestor_iff_of_parent hr hid hparent).symm

/-- `satisfies` terminates and is the ancestor relation. -/
theorem Forest.satisfies_iff (hf : Forest accounts idx.rows) (hp : p ∈ idx.rows) (hq : q ∈ idx.rows)
    :
    ∃ b, idx.satisfies p q = .ok b ∧
      (b = true ↔ p.owner = q.owner ∧ (p = q ∨ Ancestor idx.rows p q)) := by
  unfold PermissionIndex.satisfies
  by_cases howner : p.owner = q.owner
  swap
  · rw [if_pos howner]
    exact ⟨false, rfl, iff_of_false Bool.false_ne_true fun h => howner h.1⟩
  rw [if_neg (not_not.mpr howner)]
  by_cases hnear : p.id = q.id ∨ p.id = q.parent
  · rw [if_pos hnear]
    refine ⟨true, rfl, iff_of_true rfl ⟨howner, ?_⟩⟩
    exact hnear.imp (PermissionIndex.eq_of_id hp hq) .parent
  rw [if_neg hnear]
  rw [not_or] at hnear
  have hid : p.id ≠ 0 := by
    -- the rows of the empty account are the reserved row alone
    intro hzero
    obtain ⟨z, hz, hzid, _, hzowner⟩ := hf.reserved
    have hpz := PermissionIndex.eq_of_id hp hz (hzero.trans hzid.symm)
    rw [← hpz, howner] at hzowner
    exact hnear.1 (hzero.trans (hf.id_eq_zero hq hzowner).symm)
  obtain ⟨r, hr, hrid, _⟩ := hf.parent_row hq
  rw [PermissionIndex.findId_eq_some.mpr ⟨hr, hrid⟩]
  obtain ⟨b, hwalk, hb⟩ := hf.walkUp_iff hid hr (older_lt_length hr)
  refine ⟨b, hwalk, hb.trans ?_⟩
  rw [← ancestor_iff_of_parent hr hrid hnear.2]
  constructor
  · intro h
    exact ⟨howner, .inr h⟩
  · rintro ⟨_, rfl | h⟩
    · exact absurd rfl hnear.1
    · exact h

end Walk

/-! ## 5. Over every run -/

/-- Every database that native actions reach from the initial one is a forest. -/
theorem Forest.of_run [LinearOrder K] {db₀ : Database K}
    {allowed : Database K → NativeAction K → Prop}
    (hinit : Permissions.initializeDatabase key = .ok db₀)
    (hrun : Run.Steps (NativeStep allowed) db₀ db) : Forest db.accounts db.permissions.rows := by
  refine Run.invariant (P := fun db : Database K => Forest db.accounts db.permissions.rows) ?_
    (.initializeDatabase hinit) hrun
  rintro db db' hf ⟨c, a, _, happly⟩
  exact hf.applyNative happly

/-- **Permissions form a forest.**  In every database that native actions reach from the
    initial one, levels are unique, every account has its owner permission at a root and its
    active permission below that, every other permission hangs below an older one of its
    account, and `p.satisfies(q)` ends with whether `p` is `q` or an ancestor of `q` in one
    account.  The row 0 is the reserved one and belongs to no account. -/
theorem permissions_form_forest [LinearOrder K] {key : K} {db₀ db : Database K}
    (hinit : Permissions.initializeDatabase key = .ok db₀)
    (hrun : Run.Steps (NativeStep fun _ _ => True) db₀ db) :
    (∀ p ∈ db.permissions.rows, ∀ q ∈ db.permissions.rows,
      p.owner = q.owner → p.name = q.name → p = q) ∧
    (∀ a, (db.accounts.find a).isSome = true →
      ∃ o ∈ db.permissions.rows, o.owner = a ∧ o.name = ownerName ∧ o.parent = 0 ∧
        ∃ act ∈ db.permissions.rows, act.owner = a ∧ act.name = activeName ∧ act.parent = o.id) ∧
    (∀ q ∈ db.permissions.rows, q.id ≠ 0 → q.name ≠ ownerName →
      ∃ p ∈ db.permissions.rows, p.id = q.parent ∧ p.owner = q.owner ∧ p.id < q.id) ∧
    ∀ p ∈ db.permissions.rows, ∀ q ∈ db.permissions.rows,
      ∃ b, db.permissions.satisfies p q = .ok b ∧
        (b = true ↔ p.owner = q.owner ∧ (p = q ∨ Ancestor db.permissions.rows p q)) := by
  have hf := Forest.of_run hinit hrun
  refine ⟨?_, ?_, ?_, ?_⟩
  · intro p hp q hq howner hname
    refine PermissionIndex.eq_of_level hp hq ?_
    rw [PermissionObject.level, PermissionObject.level, howner, hname]
  · intro a ha
    obtain ⟨⟨o, ho, hoowner, honame⟩, act, hact, haowner, haname⟩ := hf.opened a ha
    have hoid := hf.id_ne_zero ho (by rw [hoowner]; exact ha)
    have haid := hf.id_ne_zero hact (by rw [haowner]; exact ha)
    have hactive : act.name ≠ ownerName := by
      rw [haname]
      exact activeName_ne_ownerName
    obtain ⟨p, hp, hid, hpowner, _, hpname⟩ := (hf.placed act hact haid).below hactive
    have hpo : p = o := by
      refine PermissionIndex.eq_of_level hp ho ?_
      rw [PermissionObject.level, PermissionObject.level, hpowner, haowner, hoowner,
        hpname haname, honame]
    refine ⟨o, ho, hoowner, honame, (hf.placed o ho hoid).root honame, act, hact, haowner,
      haname, ?_⟩
    rw [← hid, hpo]
  · intro q hq hid hname
    obtain ⟨p, hp, hpid, howner, hlt, _⟩ := (hf.placed q hq hid).below hname
    exact ⟨p, hp, hpid, howner, hlt⟩
  · intro p hp q hq
    exact hf.satisfies_iff hp hq

def sampleDatabases : Checked (Database Nat × Database Nat × Database Nat) := do
  let c : ApplyContext Nat := ⟨fun _ => true, 0, fun _ => true⟩
  let db₀ ← Permissions.initializeDatabase 1
  let db₁ ← newaccount c db₀ systemAccountName (N "alice") (.ofKey 2) (.ofKey 3)
  let db₂ ← updateauth c db₁ (N "alice") (N "pay") activeName (.ofKey 4)
  pure (db₀, db₁, db₂)

theorem permissions_form_forest_sample : ∃ db₀ db : Database Nat,
    Permissions.initializeDatabase 1 = .ok db₀ ∧
      Run.Steps (NativeStep fun _ _ => True) db₀ db ∧ db.permissions.rows.length = 12 ∧
      ∀ p ∈ db.permissions.rows, ∀ q ∈ db.permissions.rows,
        ∃ b, db.permissions.satisfies p q = .ok b ∧
          (b = true ↔ p.owner = q.owner ∧ (p = q ∨ Ancestor db.permissions.rows p q)) := by
  obtain ⟨dbs, hdbs, hlength⟩ := exists_of_map_eq_ok (x := sampleDatabases)
    (f := fun dbs => dbs.2.2.permissions.rows.length) (b := 12) (by decide +kernel)
  simp only [sampleDatabases, ok_iff] at hdbs
  obtain ⟨db₀, hinit, db₁, hnew, db₂, hupdate, rfl⟩ := hdbs
  have hrun : Run.Steps (NativeStep fun _ _ => True) db₀ db₂ :=
    .tail (.single ⟨_, .newaccount systemAccountName (N "alice") (.ofKey 2) (.ofKey 3), trivial,
      hnew⟩) ⟨_, .updateauth (N "alice") (N "pay") activeName (.ofKey 4), trivial, hupdate⟩
  exact ⟨db₀, db₂, hinit, hrun, hlength, (permissions_form_forest hinit hrun).2.2.2⟩

end YottaChain.Permissions
