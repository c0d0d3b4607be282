/-
  **The three miner tables stay in step, and pools account for their space.**

  `Synced` says of every miner id that it is either unknown to `minerinfo`,
  `miner` and `maccount` alike, or known to all three with agreeing data.
  `Quota` is the law of the pools: the space left and the space of the miners
  of a pool add up to its quota.  Each needs the other at one point: an
  enlarged miner could wrap its space if pools could grow without bound, and the
  pools would lose count if `minerinfo` and `miner` disagreed on a pool.

  The law of the pools is an equation for every pool but the one with the empty
  name, where `delminer` gives nothing back and only the inequality survives.
-/
import YottaChain.HddPoolEffects

namespace YottaChain.HddPool

open FixedWidth Table UInt64

/-! ## 1. Agreement of the miner tables -/

theorem maxPoolSpace_toNat : maxPoolSpace.toNat = 34359738368000 := rfl
theorem maxMinerSpace_toNat : maxMinerSpace.toNat = 6710886400 := rfl
theorem minMinerSpace_toNat : minMinerSpace.toNat = 6553600 := rfl

structure Agrees (info : MinerInfo) (row : Miner) (acc : MAccount) : Prop where
  owner : row.owner = info.owner
  owner_ne : info.owner ≠ 0
  admin : row.admin = info.admin
  pool : row.poolId = info.poolId
  max : row.maxSpace = info.maxSpace
  space : row.space = acc.space
  sold : acc.space.toNat + info.spaceLeft.toNat = info.maxSpace.toNat
  sold_whole : acc.space.toNat % 65536 = 0
  whole : info.maxSpace.toNat % 65536 = 0
  atLeast : minMinerSpace.toNat ≤ info.maxSpace.toNat
  atMost : info.maxSpace.toNat ≤ maxMinerSpace.toNat

def accountsOf (t : Table (Name × UInt64) MAccount) (m : UInt64) (o : Name) : Option MAccount :=
  t.find (o, m)

def only (o : Name) (acc : MAccount) : Name → Option MAccount :=
  Function.update (fun _ => none) o (some acc)

inductive SyncedAt : Option MinerInfo → Option Miner → (Name → Option MAccount) → Prop
  | absent : SyncedAt none none fun _ => none
  | present (info : MinerInfo) (row : Miner) (acc : MAccount) (h : Agrees info row acc) :
      SyncedAt (some info) (some row) (only info.owner acc)

def Synced (s : Tables) : Prop :=
  ∀ m, SyncedAt (s.minerinfo.find m) (s.miner.find m) (accountsOf s.maccount m)

theorem accountsOf_put (t : Table (Name × UInt64) MAccount) (o : Name) (m k : UInt64)
    (a : MAccount) : accountsOf (t.put (o, m) a) k =
      if k = m then Function.update (accountsOf t m) o (some a) else accountsOf t k := by
  funext u
  unfold accountsOf
  rw [find_put]
  by_cases hk : k = m
  · subst hk
    by_cases hu : u = o
    · simp [hu]
    · simp [hu]
  · simp [hk]

theorem accountsOf_erase (t : Table (Name × UInt64) MAccount) (o : Name) (m k : UInt64) :
    accountsOf (t.erase (o, m)) k =
      if k = m then Function.update (accountsOf t m) o none else accountsOf t k := by
  funext u
  unfold accountsOf
  rw [find_erase]
  by_cases hk : k = m
  · subst hk
    by_cases hu : u = o
    · simp [hu]
    · simp [hu]
  · simp [hk]

theorem only_self (o : Name) (acc : MAccount) : only o acc o = some acc :=
  Function.update_self o _ _

theorem only_put (o : Name) (a b : MAccount) : Function.update (only o a) o (some b) = only o b :=
  Function.update_idem _ _ _

theorem only_erase (o : Name) (a : MAccount) :
    Function.update (only o a) o none = fun _ => none := by
  rw [only, Function.update_idem, Function.update_eq_self_iff]

variable {s : Tables} {m : UInt64} {info : MinerInfo}

theorem Synced.known (hs : Synced s) (h : s.minerinfo.find m = some info) :
    ∃ row acc, s.miner.find m = some row ∧ accountsOf s.maccount m = only info.owner acc ∧
      Agrees info row acc := by
  have hm := hs m
  rw [h] at hm
  generalize hrow : s.miner.find m = r, hacc : accountsOf s.maccount m = f at hm
  cases hm with
  | present _ row acc hagree => exact ⟨row, acc, rfl, rfl, hagree⟩

theorem Synced.unknown (hs : Synced s) (h : s.minerinfo.find m = none) :
    s.miner.find m = none ∧ accountsOf s.maccount m = fun _ => none := by
  have hm := hs m
  rw [h] at hm
  generalize hrow : s.miner.find m = r, hacc : accountsOf s.maccount m = f at hm
  cases hm with
  | absent => exact ⟨rfl, rfl⟩

variable {row : Miner}

theorem Synced.of_row (hs : Synced s) (hrow : s.miner.find m = some row) :
    ∃ info acc, s.minerinfo.find m = some info ∧ accountsOf s.maccount m = only info.owner acc ∧
      Agrees info row acc := by
  cases hinfo : s.minerinfo.find m with
  | some info =>
    obtain ⟨row', acc, hrow', honly, hagree⟩ := hs.known hinfo
    rw [hrow] at hrow'
    cases hrow'
    exact ⟨info, acc, rfl, honly, hagree⟩
  | none =>
    rw [(hs.unknown hinfo).1] at hrow
    cases hrow

variable {acc acc' : MAccount} {o : Name}

theorem Synced.of_account (hs : Synced s) (hinfo : s.minerinfo.find m = some info)
    (hacc : s.maccount.find (info.owner, m) = some acc) :
    ∃ row, s.miner.find m = some row ∧ accountsOf s.maccount m = only info.owner acc ∧
      Agrees info row acc := by
  obtain ⟨row, acc', hrow, honly, hagree⟩ := hs.known hinfo
  have h := congrFun honly info.owner
  rw [only_self, accountsOf, hacc] at h
  cases h
  exact ⟨row, hrow, honly, hagree⟩

variable {s' : Tables}

/-- A call that touches the rows of one miner only has to answer for that miner. -/
theorem Synced.of_one (hs : Synced s) (m : UInt64)
    (hinfo : ∀ k, k ≠ m → s'.minerinfo.find k = s.minerinfo.find k)
    (hminer : ∀ k, k ≠ m → s'.miner.find k = s.miner.find k)
    (hacc : ∀ k, k ≠ m → accountsOf s'.maccount k = accountsOf s.maccount k)
    (hm : SyncedAt (s'.minerinfo.find m) (s'.miner.find m) (accountsOf s'.maccount m)) :
    Synced s' := by
  intro k
  by_cases hk : k = m
  · rw [hk]
    exact hm
  · rw [hinfo k hk, hminer k hk, hacc k hk]
    exact hs k

/-- A miner whose three rows are written with agreeing data. -/
theorem Synced.of_put (hs : Synced s) (hinfo : s'.minerinfo = s.minerinfo.put m info)
    (hminer : s'.miner = s.miner.put m row)
    (hother : ∀ k, k ≠ m → accountsOf s'.maccount k = accountsOf s.maccount k)
    (hmine : accountsOf s'.maccount m = only info.owner acc) (h : Agrees info row acc) :
    Synced s' := by
  refine hs.of_one m ?_ ?_ hother ?_
  · intro k hk
    rw [hinfo, find_put_ne _ _ hk]
  · intro k hk
    rw [hminer, find_put_ne _ _ hk]
  · rw [hinfo, hminer, hmine, find_put_self, find_put_self]
    exact .present info row acc h

theorem Synced.of_put_account (hs : Synced s) {old : MAccount}
    (hinfo : s'.minerinfo = s.minerinfo.put m info) (hminer : s'.miner = s.miner.put m row)
    (hacc : s'.maccount = s.maccount.put (info.owner, m) acc)
    (hold : accountsOf s.maccount m = only info.owner old) (h : Agrees info row acc) :
    Synced s' := by
  refine hs.of_put hinfo hminer ?_ ?_ h
  · intro k hk
    rw [hacc, accountsOf_put, if_neg hk]
  · rw [hacc, accountsOf_put, if_pos rfl, hold, only_put]

/-! ## 2. Every call keeps the tables in step -/

theorem Synced.of_same (hs : Synced s) (h : SameRegistry s s') : Synced s' := by
  intro m
  rw [h.minerinfo, h.miner, h.maccount]
  exact hs m

/-- A change of `miner` that touches none of the shared fields. -/
theorem Synced.of_miner_row (hs : Synced s) {row' : Miner} (hrow : s.miner.find m = some row)
    (hsame : ∀ info acc, Agrees info row acc → Agrees info row' acc) :
    Synced { s with miner := s.miner.put m row' } := by
  obtain ⟨info, acc, hinfo, hacc, hagree⟩ := hs.of_row hrow
  exact hs.of_put (put_self_of_some hinfo).symm rfl (fun _ _ => rfl) hacc
    (hsame info acc hagree)

variable {space : UInt64}

theorem agrees_add {status : UInt16} (h : Agrees info row acc) (hwhole : space.toNat % 65536 = 0)
    (hle : space ≤ info.spaceLeft) (hspace : acc'.space = acc.space + space) :
    Agrees { info with spaceLeft := info.spaceLeft - space }
      { row with space := row.space + space, status := status } acc' := by
  have hle' := le_iff_toNat_le.mp hle
  have hmax := h.atMost
  have hsold := h.sold
  have hsw := h.sold_whole
  rw [maxMinerSpace_toNat] at hmax
  have hadd : (acc.space + space).toNat = acc.space.toNat + space.toNat :=
    toNat_add_of_lt (by omega)
  have hsub := toNat_sub_of_le hle'
  have hsold' : acc'.space.toNat + (info.spaceLeft - space).toNat = info.maxSpace.toNat := by
    rw [hspace, hadd, hsub]
    omega
  exact { h with
    space := by rw [hspace, h.space]
    sold := hsold'
    sold_whole := by rw [hspace, hadd]; omega }

theorem agrees_status {status : UInt16} (h : Agrees info row acc)
    (hspace : acc'.space = acc.space) : Agrees info { row with status := status } acc' :=
  { h with
    space := by rw [hspace]; exact h.space
    sold := by rw [hspace]; exact h.sold
    sold_whole := by rw [hspace]; exact h.sold_whole }

theorem agrees_sub (h : Agrees info row acc) (hwhole : space.toNat % 65536 = 0)
    (hle : space ≤ acc.space) (hspace : acc'.space = acc.space - space) :
    Agrees { info with spaceLeft := info.spaceLeft + space }
      { row with space := row.space - space } acc' := by
  have hle' := le_iff_toNat_le.mp hle
  have hmax := h.atMost
  have hsold := h.sold
  have hsw := h.sold_whole
  rw [maxMinerSpace_toNat] at hmax
  -- the sum cannot wrap because the space given back was sold before
  have hadd : (info.spaceLeft + space).toNat = info.spaceLeft.toNat + space.toNat :=
    toNat_add_of_lt (by omega)
  have hsub := toNat_sub_of_le hle'
  have hsold' : acc'.space.toNat + (info.spaceLeft + space).toNat = info.maxSpace.toNat := by
    rw [hspace, hadd, hsub]
    omega
  exact { h with
    space := by rw [hspace, h.space]
    sold := hsold'
    sold_whole := by rw [hspace, hsub]; omega }

theorem agrees_enlarge (real : UInt64) (h : Agrees info row acc) (hwhole : space.toNat % 65536 = 0)
    (hpool : space.toNat ≤ maxPoolSpace.toNat) (hle : space + row.maxSpace ≤ maxMinerSpace) :
    (info.maxSpace + space).toNat = info.maxSpace.toNat + space.toNat ∧
    Agrees { info with maxSpace := info.maxSpace + space, spaceLeft := info.spaceLeft + space }
      { row with maxSpace := row.maxSpace + space, realSpace := real } acc := by
  have hle' := le_iff_toNat_le.mp hle
  have hmax := h.atMost
  have hmin := h.atLeast
  have hsold := h.sold
  have hw := h.whole
  rw [maxPoolSpace_toNat] at hpool
  rw [maxMinerSpace_toNat] at hmax
  have hadd : (info.maxSpace + space).toNat = info.maxSpace.toNat + space.toNat :=
    toNat_add_of_lt (by omega)
  have hadd' : (space + info.maxSpace).toNat = space.toNat + info.maxSpace.toNat :=
    toNat_add_of_lt (by omega)
  have hleft : (info.spaceLeft + space).toNat = info.spaceLeft.toNat + space.toNat :=
    toNat_add_of_lt (by omega)
  rw [h.max, hadd'] at hle'
  refine ⟨hadd, { h with
    max := by rw [h.max]
    sold := by rw [hadd, hleft]; omega
    whole := by rw [hadd]; omega
    atLeast := by rw [hadd]; omega
    atMost := by rw [hadd]; omega }⟩

theorem Synced.delete (hs : Synced s) (hinfo : s.minerinfo.find m = some info)
    {users : Table Name UserHdd} {accounts : Table (Name × UInt64) MAccount}
    (hunbind : Unbinds s m info.owner users accounts) :
    accountsOf accounts m = (fun _ => none) ∧
      ∀ k, k ≠ m → accountsOf accounts k = accountsOf s.maccount k := by
  obtain ⟨row, acc, hrow, hacc, hagree⟩ := hs.known hinfo
  have hfind : s.maccount.find (info.owner, m) = some acc := by
    rw [← only_self info.owner acc, ← hacc]
    rfl
  cases hunbind with
  | nothing h =>
    rcases h with h | h
    · exact absurd h hagree.owner_ne
    · rw [hfind] at h
      cases h
  | row =>
    constructor
    · rw [accountsOf_erase, if_pos rfl, hacc, only_erase]
    · intro k hk
      rw [accountsOf_erase, if_neg hk]

theorem Synced.change_owner {n : Name} (hacc : accountsOf s.maccount m = only o acc) (hne : n ≠ o) :
    accountsOf ((s.maccount.put (n, m) acc).erase (o, m)) m = only n acc := by
  rw [accountsOf_erase, if_pos rfl, accountsOf_put, if_pos rfl, hacc]
  funext u
  unfold only
  by_cases ho : u = o
  · subst ho
    rw [Function.update_self, Function.update_of_ne (Ne.symm hne)]
  · rw [Function.update_of_ne ho]
    by_cases hn : u = n
    · subst hn
      rw [Function.update_self, Function.update_self]
    · rw [Function.update_of_ne hn, Function.update_of_ne hn, Function.update_of_ne ho]

variable {fp : Doubles} {a : Action}

/-- **Every call keeps the three tables in step.**  Each call writes the rows of one miner
    in all three; only `mincdeposit` needs the bound on the pools, for the enlarged space
    not to wrap. -/
theorem Synced.step (hs : Synced s) (hpools : ∀ p pool, s.storepool.find p = some pool →
      pool.spaceLeft.toNat ≤ maxPoolSpace.toNat) (h : Effect fp s a s') : Synced s' := by
  cases h with
  | quiet _ _ hreg => exact hs.of_same hreg
  | build => exact hs.of_same (build_registry _ _ _)
  | poolDelete | poolRegister | poolResize => exact hs
  | @register m adm _ poolId owner maxSpace _ _ howner hid pool hpool hinfo hmask hle hge hleft hacc
      now users husers hminer slots id htakes macc total =>
    have hagree : Agrees ⟨owner, adm, poolId, maxSpace, maxSpace⟩
        ⟨owner, adm, poolId, maxSpace, 0, now, id.toUInt32, 0, defaulMinerLevel, 2⟩
        ⟨0, 0, 0, now⟩ :=
      { owner := rfl, owner_ne := howner, admin := rfl, pool := rfl, max := rfl, space := rfl
        sold := Nat.zero_add _, sold_whole := rfl, whole := and_low16_eq_zero.mp hmask
        atLeast := le_iff_toNat_le.mp hge, atMost := le_iff_toNat_le.mp hle }
    refine hs.of_put rfl rfl ?_ ?_ hagree
    · intro k hk
      exact (accountsOf_put _ _ _ _ _).trans (if_neg hk)
    · refine (accountsOf_put _ _ _ _ _).trans ?_
      rw [if_pos rfl, (hs.unknown hinfo).2]
      rfl
  | @delete m _ _ info hinfo users accounts hunbind slots hdrop =>
    obtain ⟨hmine, hother⟩ := hs.delete hinfo hunbind
    refine hs.of_one m ?_ ?_ hother ?_
    · intro k hk
      exact find_erase_ne _ hk
    · intro k hk
      exact find_erase_ne _ hk
    · dsimp only
      rw [find_erase_self, find_erase_self, hmine]
      exact .absent
  | addSpace hmask _ hinfo _ hacc _ hleft _ hspace =>
    obtain ⟨row, hrow, honly, hagree⟩ := hs.of_account hinfo hacc
    exact hs.of_put_account rfl (adjust_of_some _ hrow) rfl honly
      (agrees_add hagree (and_low16_eq_zero.mp hmask) hleft hspace)
  | subSpace hmask _ hinfo _ hacc _ hhas _ hspace =>
    obtain ⟨row, hrow, honly, hagree⟩ := hs.of_account hinfo hacc
    exact hs.of_put_account rfl (adjust_of_some _ hrow) rfl honly
      (agrees_sub hagree (and_low16_eq_zero.mp hmask) hhas hspace)
  | deactivate _ hinfo _ hacc _ _ hspace | activate _ hinfo _ hacc _ _ hspace =>
    obtain ⟨row, hrow, honly, hagree⟩ := hs.of_account hinfo hacc
    exact hs.of_put_account (put_self_of_some hinfo).symm (adjust_of_some _ hrow) rfl
      honly (agrees_status hagree hspace)
  | movePool _ hinfo _ _ pool =>
    obtain ⟨row, acc, hrow, honly, hagree⟩ := hs.known hinfo
    exact hs.of_put rfl (adjust_of_some _ hrow) (fun _ _ => rfl) honly
      { hagree with pool := rfl }
  | enlarge _ hrow hmask hle _ _ hpool hleft =>
    obtain ⟨info, acc, hinfo, honly, hagree⟩ := hs.of_row hrow
    have hspace := Nat.le_trans (le_iff_toNat_le.mp hleft) (hpools _ _ hpool)
    exact hs.of_put (adjust_of_some _ hinfo) rfl (fun _ _ => rfl) honly
      (agrees_enlarge _ hagree (and_low16_eq_zero.mp hmask) hspace hle).2
  | changeAdmin _ hinfo =>
    obtain ⟨row, acc, hrow, honly, hagree⟩ := hs.known hinfo
    exact hs.of_put rfl (adjust_of_some _ hrow) (fun _ _ => rfl) honly
      { hagree with admin := rfl }
  | @changeOwner m n info hinfo hnew acc hacc hfree t1 t2 t3 hleave hopen henter total =>
    obtain ⟨row, hrow, honly, hagree⟩ := hs.of_account hinfo hacc
    have hne : n ≠ info.owner := by
      rintro rfl
      rw [hacc] at hfree
      cases hfree
    refine hs.of_put rfl (adjust_of_some _ hrow) ?_ (Synced.change_owner honly hne)
      { hagree with owner := rfl, owner_ne := hnew }
    intro k hk
    exact (accountsOf_erase _ _ _ _).trans
      ((if_neg hk).trans ((accountsOf_put _ _ _ _ _).trans (if_neg hk)))
  | setLevel _ hrow | setRealSpace _ hrow => exact hs.of_miner_row hrow fun _ _ h => { h with }
  | sync hminer _ hinfo =>
    obtain ⟨row0, _, hrow0, _, _⟩ := hs.known hinfo
    rw [hminer] at hrow0
    cases hrow0

/-! ## 3. The law of the pools -/

def usedBy (t : Table UInt64 MinerInfo) (p : Name) : Nat :=
  t.total fun _ info => if info.poolId = p then info.maxSpace.toNat else 0

structure PoolLaw (p : Name) (pool : StorePool) (used : Nat) : Prop where
  quota : pool.maxSpace.toNat ≤ maxPoolSpace.toNat
  atMost : pool.spaceLeft.toNat + used ≤ pool.maxSpace.toNat
  exact : p ≠ 0 → pool.spaceLeft.toNat + used = pool.maxSpace.toNat

structure Quota (s : Tables) : Prop where
  law : ∀ p pool, s.storepool.find p = some pool → PoolLaw p pool (usedBy s.minerinfo p)
  home : ∀ m info, s.minerinfo.find m = some info → (s.storepool.find info.poolId).isSome

theorem Quota.left_le (hq : Quota s) (p : Name) (pool : StorePool)
    (h : s.storepool.find p = some pool) : pool.spaceLeft.toNat ≤ maxPoolSpace.toNat := by
  have hlaw := hq.law p pool h
  have hq := hlaw.quota
  have hle := hlaw.atMost
  omega

variable {t : Table UInt64 MinerInfo}

theorem usedBy_put_new (info : MinerInfo) (h : t.find m = none) (p : Name) :
    usedBy (t.put m info) p = (if info.poolId = p then info.maxSpace.toNat else 0) + usedBy t p :=
  total_put_of_none info _ h

variable {old : MinerInfo}

theorem usedBy_put (info : MinerInfo) (h : t.find m = some old) (p : Name) :
    usedBy (t.put m info) p + (if old.poolId = p then old.maxSpace.toNat else 0) =
      usedBy t p + if info.poolId = p then info.maxSpace.toNat else 0 :=
  total_put_add info _ h

theorem usedBy_erase (h : t.find m = some old) (p : Name) :
    usedBy (t.erase m) p + (if old.poolId = p then old.maxSpace.toNat else 0) = usedBy t p :=
  total_erase_add _ h

theorem usedBy_put_same (h : t.find m = some old) (hpool : info.poolId = old.poolId)
    (hmax : info.maxSpace = old.maxSpace) (p : Name) : usedBy (t.put m info) p = usedBy t p := by
  have hput := usedBy_put info h p
  rw [hpool, hmax] at hput
  exact Nat.add_right_cancel hput

theorem le_usedBy (h : t.find m = some info) : info.maxSpace.toNat ≤ usedBy t info.poolId := by
  have herase := usedBy_erase h info.poolId
  rw [if_pos rfl] at herase
  omega

theorem Quota.of_one (hq : Quota s) (p : Name)
    (hother : ∀ q, q ≠ p → s'.storepool.find q = s.storepool.find q)
    (hused : ∀ q, q ≠ p → usedBy s'.minerinfo q = usedBy s.minerinfo q)
    (hp : ∀ pool, s'.storepool.find p = some pool → PoolLaw p pool (usedBy s'.minerinfo p))
    (hhome : ∀ m info, s'.minerinfo.find m = some info →
      (s'.storepool.find info.poolId).isSome) : Quota s' := by
  refine ⟨fun q pool hpool => ?_, hhome⟩
  by_cases hqp : q = p
  · subst hqp
    exact hp pool hpool
  · rw [hother q hqp] at hpool
    rw [hused q hqp]
    exact hq.law q pool hpool

theorem Quota.of_same_size (hq : Quota s) (hinfo : s'.minerinfo = s.minerinfo.put m info)
    (hpools : s'.storepool = s.storepool) (h : s.minerinfo.find m = some old)
    (hpool : info.poolId = old.poolId) (hmax : info.maxSpace = old.maxSpace) : Quota s' := by
  refine ⟨fun p pool hp => ?_, ?_⟩
  · rw [hinfo, usedBy_put_same h hpool hmax]
    exact hq.law p pool (hpools ▸ hp)
  · rw [hpools, hinfo]
    exact forall_put hq.home (hpool ▸ hq.home m old h)

theorem Quota.of_same (hq : Quota s) (hpools : s'.storepool = s.storepool)
    (hinfo : s'.minerinfo = s.minerinfo) : Quota s' := by
  refine ⟨?_, ?_⟩
  · rw [hpools, hinfo]
    exact hq.law
  · rw [hpools, hinfo]
    exact hq.home

/-! ## 4. Every call keeps the law of the pools -/

variable {p : Name} {pool : StorePool}

/-- One pool's row is written, and the miners of other pools keep their space. -/
theorem Quota.of_put (hq : Quota s) (hpools : s'.storepool = s.storepool.put p pool)
    (hused : ∀ q, q ≠ p → usedBy s'.minerinfo q = usedBy s.minerinfo q)
    (hlaw : PoolLaw p pool (usedBy s'.minerinfo p))
    (hhome : ∀ m info, s'.minerinfo.find m = some info →
      info.poolId = p ∨ (s.storepool.find info.poolId).isSome) : Quota s' := by
  refine hq.of_one p ?_ hused ?_ ?_
  · intro q hqp
    rw [hpools, find_put_ne _ _ hqp]
  · intro pool' hp
    rw [hpools, find_put_self] at hp
    cases hp
    exact hlaw
  · intro m info hm
    rw [hpools, find_put]
    split_ifs with hne
    · rfl
    · exact (hhome m info hm).resolve_left hne

/-- A pool that does not exist has no miners. -/
theorem usedBy_of_no_pool (hq : Quota s) (h : s.storepool.find p = none) :
    usedBy s.minerinfo p = 0 := by
  apply total_eq_zero
  intro m info hm
  rw [if_neg]
  rintro rfl
  have hhome := hq.home m info hm
  rw [h] at hhome
  cases hhome

variable {used : Nat} {d : UInt64}

theorem PoolLaw.take (h : PoolLaw p pool used) (hd : d ≤ pool.spaceLeft) :
    PoolLaw p { pool with spaceLeft := pool.spaceLeft - d } (used + d.toNat) := by
  have hsub := toNat_sub_of_le (le_iff_toNat_le.mp hd)
  have hd' := le_iff_toNat_le.mp hd
  refine ⟨h.quota, ?_, fun hp => ?_⟩
  · have hle := h.atMost
    rw [hsub]
    dsimp only
    omega
  · have heq := h.exact hp
    rw [hsub]
    dsimp only
    omega

theorem PoolLaw.give (h : PoolLaw p pool (used + d.toNat)) :
    (pool.spaceLeft + d).toNat = pool.spaceLeft.toNat + d.toNat ∧
      (pool.spaceLeft + d).toNat ≤ pool.maxSpace.toNat ∧
      PoolLaw p { pool with spaceLeft := pool.spaceLeft + d } used := by
  have hle := h.atMost
  have hquota := h.quota
  rw [maxPoolSpace_toNat] at hquota
  have hadd : (pool.spaceLeft + d).toNat = pool.spaceLeft.toNat + d.toNat :=
    toNat_add_of_lt (by omega)
  refine ⟨hadd, by omega, h.quota, ?_, fun hp => ?_⟩
  · rw [hadd]
    dsimp only
    omega
  · have heq := h.exact hp
    rw [hadd]
    dsimp only
    omega

/-- The release of `mchgstrpool` never reaches its clamp. -/
theorem PoolLaw.release (h : PoolLaw p pool (used + d.toNat)) :
    releasePoolSpace pool d = { pool with spaceLeft := pool.spaceLeft + d } := by
  have hle := h.give.2.1
  unfold releasePoolSpace
  rw [if_neg]
  intro hlt
  have hlt' := lt_iff_toNat_lt.mp hlt
  omega

section

variable (hq : Quota s)

include hq

theorem Quota.pool_delete (hs : Synced s) (hpool : s.storepool.find p = some pool)
    (hempty : pool.maxSpace - pool.spaceLeft = 0) :
    Quota { s with storepool := s.storepool.erase p } := by
  have hlaw := hq.law p pool hpool
  have hle := hlaw.atMost
  have hused : usedBy s.minerinfo p = 0 := by
    have hsub := toNat_sub_of_le (a := pool.maxSpace) (b := pool.spaceLeft) (by omega)
    rw [hempty] at hsub
    simp only [UInt64.toNat_zero] at hsub
    omega
  refine hq.of_one p ?_ (fun _ _ => rfl) ?_ ?_
  · intro q hqp
    exact find_erase_ne _ hqp
  · intro pool' hp
    dsimp only at hp
    rw [find_erase_self] at hp
    cases hp
  · intro m info (hm : s.minerinfo.find m = some info)
    have hne : info.poolId ≠ p := by
      rintro rfl
      obtain ⟨_, _, _, _, hagree⟩ := hs.known hm
      have hmin := hagree.atLeast
      have hmax := le_usedBy hm
      rw [minMinerSpace_toNat] at hmin
      omega
    dsimp only
    rw [find_erase_ne _ hne]
    exact hq.home m info hm

theorem Quota.pool_register {owner : Name} (hnew : s.storepool.find p = none) :
    Quota { s with storepool := s.storepool.put p ⟨owner, maxPoolSpace, maxPoolSpace⟩ } := by
  refine hq.of_put rfl (fun _ _ => rfl) ?_ fun m info hm => .inr (hq.home m info hm)
  dsimp only
  rw [usedBy_of_no_pool hq hnew]
  exact ⟨Nat.le_refl _, Nat.le_refl _, fun _ => rfl⟩

theorem Quota.pool_resize (hpool : s.storepool.find p = some pool) {max : UInt64}
    (hmax : max ≤ maxPoolSpace) (hused : pool.maxSpace - pool.spaceLeft ≤ max) :
    Quota { s with
      storepool := s.storepool.put p
        { pool with maxSpace := max, spaceLeft := max - (pool.maxSpace - pool.spaceLeft) } } := by
  have hlaw := hq.law p pool hpool
  have hle := hlaw.atMost
  have hsub := toNat_sub_of_le (a := pool.maxSpace) (b := pool.spaceLeft) (by omega)
  have hused' := le_iff_toNat_le.mp hused
  have hleft := toNat_sub_of_le hused'
  rw [hsub] at hused' hleft
  refine hq.of_put rfl (fun _ _ => rfl) ⟨le_iff_toNat_le.mp hmax, ?_, fun hp0 => ?_⟩
    fun m info hm => .inr (hq.home m info hm)
  · dsimp only
    omega
  · have heq := hlaw.exact hp0
    dsimp only
    omega

theorem Quota.register {i : MinerInfo} (hnew : s.minerinfo.find m = none)
    (hpool : s.storepool.find i.poolId = some pool) (hleft : i.maxSpace ≤ pool.spaceLeft)
    (hpools : s'.storepool = s.storepool.put i.poolId
      { pool with spaceLeft := pool.spaceLeft - i.maxSpace })
    (hinfo : s'.minerinfo = s.minerinfo.put m i) : Quota s' := by
  refine hq.of_put hpools ?_ ?_ ?_
  · intro q hqp
    rw [hinfo, usedBy_put_new i hnew, if_neg (Ne.symm hqp), Nat.zero_add]
  · rw [hinfo, usedBy_put_new i hnew, if_pos rfl, Nat.add_comm]
    exact (hq.law _ _ hpool).take hleft
  · rw [hinfo]
    exact forall_put (fun k j hk => .inr (hq.home k j hk)) (.inl rfl)

theorem Quota.delete (hm : s.minerinfo.find m = some info)
    (hpools : s'.storepool = poolsAfterDelete s.storepool info)
    (hinfo : s'.minerinfo = s.minerinfo.erase m) : Quota s' := by
  obtain ⟨pool, hpool⟩ := Option.isSome_iff_exists.mp (hq.home m info hm)
  have herase := usedBy_erase hm info.poolId
  rw [if_pos rfl] at herase
  have hlaw := hq.law _ _ hpool
  rw [← herase] at hlaw
  have hother : ∀ q, q ≠ info.poolId → usedBy s'.minerinfo q = usedBy s.minerinfo q := by
    intro q hqp
    rw [hinfo, ← usedBy_erase hm q, if_neg (Ne.symm hqp), Nat.add_zero]
  have hhome : ∀ k i, s'.minerinfo.find k = some i → (s.storepool.find i.poolId).isSome := by
    rw [hinfo]
    exact forall_erase hq.home
  unfold poolsAfterDelete at hpools
  split at hpools
  · -- the empty name: the pool keeps its row, and only the inequality is left
    rename_i hzero
    refine hq.of_one info.poolId (fun _ _ => by rw [hpools]) hother ?_ ?_
    · intro pool' hp
      rw [hpools, hpool] at hp
      cases hp
      rw [hinfo]
      refine ⟨hlaw.quota, ?_, fun hne => absurd hzero hne⟩
      have hle := hlaw.atMost
      omega
    · rw [hpools]
      exact hhome
  · rw [adjust_of_some _ hpool] at hpools
    refine hq.of_put hpools hother ?_ fun k i hk => .inr (hhome k i hk)
    rw [hinfo]
    exact hlaw.give.2.2

theorem Quota.enlarge (hinfo : s'.minerinfo = s.minerinfo.put m info)
    (hpools : s'.storepool = s.storepool.put old.poolId
      { pool with spaceLeft := pool.spaceLeft - space }) (hm : s.minerinfo.find m = some old)
    (hsame : info.poolId = old.poolId)
    (hmax : info.maxSpace.toNat = old.maxSpace.toNat + space.toNat)
    (hpool : s.storepool.find old.poolId = some pool) (hleft : space ≤ pool.spaceLeft) :
    Quota s' := by
  have hput := usedBy_put info hm
  refine hq.of_put hpools ?_ ?_ ?_
  · intro q hqp
    have hq' := hput q
    rw [hsame, if_neg (Ne.symm hqp), if_neg (Ne.symm hqp)] at hq'
    rw [hinfo]
    exact hq'
  · have hq' := hput old.poolId
    rw [hsame, if_pos rfl, if_pos rfl, hmax] at hq'
    have hused : usedBy s'.minerinfo old.poolId = usedBy s.minerinfo old.poolId + space.toNat := by
      rw [hinfo]
      omega
    rw [hused]
    exact (hq.law _ _ hpool).take hleft
  · rw [hinfo]
    exact forall_put (fun k i hk => .inr (hq.home k i hk)) (.inl hsame)

/-- A move of a miner is a deletion from the old pool and a registration with the
    new one. -/
theorem Quota.move {old : StorePool} (hm : s.minerinfo.find m = some info)
    (hold : s.storepool.find info.poolId = some old)
    (hpool : (s.storepool.put info.poolId (releasePoolSpace old info.maxSpace)).find p =
      some pool) (hleft : info.maxSpace ≤ pool.spaceLeft)
    (hpools : s'.storepool = (s.storepool.put info.poolId
      (releasePoolSpace old info.maxSpace)).put p
        { pool with spaceLeft := pool.spaceLeft - info.maxSpace })
    (hinfo : s'.minerinfo = s.minerinfo.put m { info with poolId := p }) : Quota s' := by
  have herase := usedBy_erase hm info.poolId
  rw [if_pos rfl] at herase
  have hlaw := hq.law _ _ hold
  rw [← herase] at hlaw
  -- the state between the return and the second update
  let mid : Tables := { s with
    storepool := s.storepool.put info.poolId (releasePoolSpace old info.maxSpace)
    minerinfo := s.minerinfo.erase m }
  have hmid : Quota mid := by
    refine hq.of_put rfl ?_ ?_ ?_
    · intro q hqp
      rw [← usedBy_erase hm q, if_neg (Ne.symm hqp), Nat.add_zero]
    · rw [hlaw.release]
      exact hlaw.give.2.2
    · exact forall_erase fun k i hk => .inr (hq.home k i hk)
  refine hmid.register (m := m) (i := { info with poolId := p })
    (find_erase_self _ _) hpool hleft hpools ?_
  rw [hinfo, put_erase]

/-- **Every call keeps the law of the pools**; that `minerinfo` and `miner` agree is used
    where a miner is enlarged, since the pool is read from one and the space from the
    other. -/
theorem Quota.step (hs : Synced s) (h : Effect fp s a s') : Quota s' := by
  cases h with
  | quiet _ _ hreg => exact hq.of_same hreg.storepool hreg.minerinfo
  | build p g =>
    have hreg := build_registry s (some p) g.maxTableCount
    exact hq.of_same hreg.storepool hreg.minerinfo
  | poolDelete _ hpool hempty => exact hq.pool_delete hs hpool hempty
  | poolRegister hnew => exact hq.pool_register hnew
  | poolResize _ hpool _ hmax hused => exact hq.pool_resize hpool hmax hused
  | @register m adm _ p o max _ _ howner hid pool hpool hinfo hmask hle hge hleft hacc now users
      husers hminer slots id htakes macc total =>
    exact hq.register (i := ⟨o, adm, p, max, max⟩) hinfo hpool hleft rfl rfl
  | delete _ hinfo => exact hq.delete hinfo rfl rfl
  | addSpace _ _ hinfo | subSpace _ _ hinfo | changeAdmin _ hinfo | changeOwner _ hinfo =>
    exact hq.of_same_size rfl rfl hinfo rfl rfl
  | movePool _ hinfo _ hold _ hpool hleft => exact hq.move hinfo hold hpool hleft rfl rfl
  | enlarge row hrow hmask hle _ pool hpool hleft =>
    obtain ⟨info, acc, hinfo, _, hagree⟩ := hs.of_row hrow
    have hspace := Nat.le_trans (le_iff_toNat_le.mp hleft) (hq.left_le _ _ hpool)
    have hmax := (agrees_enlarge row.realSpace hagree (and_low16_eq_zero.mp hmask) hspace hle).1
    rw [hagree.pool] at hpool
    refine hq.enlarge (adjust_of_some _ hinfo) ?_ hinfo rfl hmax hpool hleft
    rw [hagree.pool]
  | deactivate | activate | setLevel | setRealSpace | sync => exact hq.of_same rfl rfl

end

/-! ## 5. Runs -/

/-- Before the first registration: no pools and no miners. -/
structure Fresh (s : Tables) : Prop where
  storepool : s.storepool = ∅
  minerinfo : s.minerinfo = ∅
  miner : s.miner = ∅
  maccount : s.maccount = ∅

structure Registry (s : Tables) : Prop where
  synced : Synced s
  quota : Quota s

theorem Fresh.registry (h : Fresh s) : Registry s where
  synced := by
    intro m
    rw [h.minerinfo, h.miner, h.maccount, find_empty, find_empty]
    exact .absent
  quota := by
    refine ⟨fun p pool hp => ?_, fun m info hm => ?_⟩
    · rw [h.storepool, find_empty] at hp
      cases hp
    · rw [h.minerinfo, find_empty] at hm
      cases hm

theorem Registry.effect (hr : Registry s) (h : Effect fp s a s') : Registry s' where
  synced := hr.synced.step hr.quota.left_le h
  quota := hr.quota.step hr.synced h

theorem Registry.run (hr : Registry s) (h : Run.Steps (AnyStep fp) s s') : Registry s' := by
  refine Run.invariant (P := Registry) ?_ hr h
  intro t t' ht hstep
  obtain ⟨a, _, heffect⟩ := hstep.effect
  exact ht.effect heffect

/-- The old and the new miner tables never drift apart: `minerinfo` and `miner`
    know the same miners and agree on owner, admin, pool and size; the miner has
    a row in the scope of its owner and in no other; and the space sold is the
    same number in all three tables.  So the unchecked subtraction on the miner
    row in `submprofit` does not wrap. -/
theorem miner_tables_agree {fp : Doubles} {s₀ s : Tables} (hfresh : Fresh s₀)
    (hrun : Run.Steps (AnyStep fp) s₀ s) :
    (∀ m, (s.minerinfo.find m).isSome ↔ (s.miner.find m).isSome) ∧
    (∀ m info row, s.minerinfo.find m = some info → s.miner.find m = some row →
      ∃ acc, s.maccount.find (info.owner, m) = some acc ∧
        (∀ o, o ≠ info.owner → s.maccount.find (o, m) = none) ∧
        row.owner = info.owner ∧ row.admin = info.admin ∧ row.poolId = info.poolId ∧
        row.maxSpace = info.maxSpace ∧ info.spaceLeft ≤ info.maxSpace ∧
        info.maxSpace - info.spaceLeft = acc.space ∧ row.space = acc.space) ∧
    (∀ c m space caller s' sent row, submprofit fp c s m space caller = .ok (s', sent) →
      s.miner.find m = some row → space ≤ row.space) := by
  have hs : Synced s := (hfresh.registry.run hrun).synced
  refine ⟨fun m => ?_, fun m info row hinfo hrow => ?_, ?_⟩
  · cases hinfo : s.minerinfo.find m with
    | none =>
      rw [(hs.unknown hinfo).1]
      exact Iff.rfl
    | some =>
      obtain ⟨row, _, hrow, _, _⟩ := hs.known hinfo
      rw [hrow]
      exact iff_of_true rfl rfl
  · obtain ⟨info', acc, hinfo', honly, hagree⟩ := hs.of_row hrow
    rw [hinfo] at hinfo'
    cases hinfo'
    have hsold := hagree.sold
    have hle : info.spaceLeft ≤ info.maxSpace := le_iff_toNat_le.mpr (by omega)
    refine ⟨acc, ?_, fun o ho => ?_, hagree.owner, hagree.admin, hagree.pool, hagree.max, hle, ?_,
      hagree.space⟩
    · rw [← only_self info.owner acc, ← honly]
      rfl
    · have hother := congrFun honly o
      rwa [only, Function.update_of_ne ho] at hother
    · apply UInt64.toNat_inj.mp
      rw [UInt64.toNat_sub_of_le _ _ hle]
      omega
  · intro c m space caller s' sent row h hrow
    have heffect := submprofit_effect h
    cases heffect with
    | quiet ha => cases ha
    | subSpace _ _ hinfo _ hacc _ hhas =>
      obtain ⟨row', hrow', _, hagree⟩ := hs.of_account hinfo hacc
      rw [hrow] at hrow'
      cases hrow'
      rw [hagree.space]
      exact hhas

def sampleRegistration : List Action :=
  [.regstrpool 9 1, .regminer 7 2 3 9 4 6553600 ⟨1000000, coreSymbol⟩ false,
    .addmprofit 7 131072 5, .submprofit 7 65536 5]

theorem miner_tables_agree_sample :
    Fresh Tables.empty ∧ ∃ s, Run.Steps (AnyStep .whole) Tables.empty s ∧
      (s.miner.find 7).map Miner.space = some 65536 ∧
      ((s.minerinfo.find 7).isSome ↔ (s.miner.find 7).isSome) := by
  have hfresh : Fresh Tables.empty := ⟨rfl, rfl, rfl, rfl⟩
  obtain ⟨s, hs, hspace⟩ := Checked.exists_of_map_eq_ok
    (x := runActions .whole (.permissive 5) .empty .empty sampleRegistration)
    (f := fun s => (s.miner.find 7).map Miner.space) (b := some 65536) rfl
  have hrun : Run.Steps (AnyStep .whole) Tables.empty s := runActions_steps (fun _ _ => trivial) hs
  exact ⟨hfresh, s, hrun, hspace, (miner_tables_agree hfresh hrun).1 7⟩

end YottaChain.HddPool
