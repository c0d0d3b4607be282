/-
  **The contract takes any number of miners.**

  Nothing in `hddpool` bounds the number of registrations: pools can be opened
  without limit, the counters wrap around, and the table of internal ids grows
  by one row per miner.  `exists_crowd` is the run that registers `n` miners of
  the least size and puts them to work, for every `n` below `2 ^ 64 - 1`.  The
  fixed widths of the internal ids and of the lottery ranges are then exceeded
  by runs of the contract itself.
-/
import YottaChain.MinerSlots

namespace YottaChain.HddPool

open Checked FixedWidth Table

/-! ## 1. One more miner -/

def crowdMiner (k : UInt64) : Miner where
  owner := ecologyfoundAcc
  admin := 2
  poolId := k
  maxSpace := minMinerSpace
  space := 0
  lastModifyTime := 5
  internalId := k.toUInt32
  realSpace := 0
  level := defaulMinerLevel
  status := 0

/-- The miners `1 .. n` have been registered in this order and work; the lottery
    has not begun. -/
structure Crowd (n : ℕ) (s : Tables) : Prop where
  noPool : ∀ k, n < k.toNat → s.storepool.find k = none
  info : ∀ k, 1 ≤ k.toNat → k.toNat ≤ n →
    ∃ info, s.minerinfo.find k = some info ∧ info.owner = ecologyfoundAcc
  noInfo : ∀ k, n < k.toNat → s.minerinfo.find k = none
  noAccount : ∀ o k, n < k.toNat → s.maccount.find (o, k) = none
  miner : ∀ k, 1 ≤ k.toNat → k.toNat ≤ n → s.miner.find k = some (crowdMiner k)
  noMiner : ∀ k, n < k.toNat → s.miner.find k = none
  slot : ∀ k, 1 ≤ k.toNat → k.toNat ≤ n → s.miner2.find k = some ⟨k, 0⟩
  noSlot : ∀ k, n < k.toNat → s.miner2.find k = none
  head : s.slots.head = ⟨UInt64.ofNat (n + 1), UInt64.ofNat n, UInt64.ofNat n⟩
  headSet : 1 ≤ n → s.miner2ex.isSome
  size : s.miner2.size = n
  total : 1 ≤ n → s.counterstat.isSome
  param : s.newmparam = none
  mscore1 : s.mscore1 = ∅
  mscore2 : s.mscore2 = ∅
  mscore2ex : s.mscore2ex = none

theorem Crowd.empty : Crowd 0 Tables.empty where
  noPool := fun k _ => find_empty k
  info := fun k h1 h2 => by omega
  noInfo := fun k _ => find_empty k
  noAccount := fun o k _ => find_empty (o, k)
  miner := fun k h1 h2 => by omega
  noMiner := fun k _ => find_empty k
  slot := fun k h1 h2 => by omega
  noSlot := fun k _ => find_empty k
  head := rfl
  headSet := fun h => by omega
  size := rfl
  total := fun h => by omega
  param := rfl
  mscore1 := rfl
  mscore2 := rfl
  mscore2ex := rfl

/-- The three calls that add the miner `k`: its own pool, its registration, and a
    report of no space, which puts it to work. -/
def joins (k : UInt64) : List Action :=
  [.regstrpool k 1,
    .regminer k 2 3 k ecologyfoundAcc minMinerSpace ⟨1000000, coreSymbol⟩ false,
    .addmprofit k 0 5]

section Calls

variable {s : Tables} {k : UInt64}

theorem regstrpool_new (h : s.storepool.find k = none) :
    ∃ sent, regstrpool (.permissive 5) s k 1 =
      .ok ({ s with storepool := s.storepool.put k ⟨1, maxPoolSpace, maxPoolSpace⟩ }, sent) := by
  simp only [regstrpool, ok_iff]
  exact ⟨_, rfl, h, _, ⟨h, rfl⟩, _, rfl, rfl, rfl⟩

theorem bindOwner_new {o : Name} (h : s.maccount.find (o, k) = none) :
    ∃ n, bindOwner (.permissive 5) s k o =
      .ok { s with maccount := s.maccount.put (o, k) ⟨0, 0, 0, 5⟩, hddMaccUser := n } := by
  simp only [bindOwner, ok_iff]
  exact ⟨_, h, _, ⟨h, rfl⟩, rfl⟩

theorem openOwner_any (o : Name) :
    ∃ t n, openOwner (.permissive 5) s o = .ok { s with userhdd := t, hddTotalUser := n } := by
  unfold openOwner
  rcases hrow : s.userhdd.find o with _ | row
  · simp only [newUserHdd, ok_iff]
    exact ⟨_, _, _, ⟨hrow, rfl⟩, rfl⟩
  · exact ⟨s.userhdd, s.hddTotalUser, rfl⟩

theorem insertMiner2_grow (hlast : s.slots.head.nextId = s.slots.head.maxTableCount + 1)
    (hnew : s.miner2.find s.slots.head.nextId = none) :
    insertMiner2 s k = .ok ({ s with
      miner2 := s.miner2.put s.slots.head.nextId ⟨k, 0⟩
      miner2ex := some ⟨s.slots.head.nextId + 1, s.slots.head.maxTableCount + 1,
        s.slots.head.maxMinerCount + 1⟩ }, s.slots.head.nextId.toUInt32) := by
  have hlast' : (s.miner2ex.getD {}).nextId = (s.miner2ex.getD {}).maxTableCount + 1 := hlast
  unfold insertMiner2
  dsimp only
  rw [if_pos hlast', bind_eq_ok]
  exact ⟨_, emplace_eq_ok.mpr ⟨hnew, rfl⟩, rfl⟩

/-- The tables after the miner `k` has been registered as the last of all. -/
def enrolled (s : Tables) (k : UInt64) (users : Table Name UserHdd) (macc total : UInt64) : Tables :=
  { s with
    storepool := s.storepool.put k ⟨1, maxPoolSpace, maxPoolSpace - minMinerSpace⟩
    maccount := s.maccount.put (ecologyfoundAcc, k) ⟨0, 0, 0, 5⟩
    userhdd := users
    minerinfo := s.minerinfo.put k ⟨ecologyfoundAcc, 2, k, minMinerSpace, minMinerSpace⟩
    counterstat := totalAfter s.counterstat minMinerSpace true
    miner := s.miner.put k
      { crowdMiner k with internalId := s.slots.head.nextId.toUInt32, status := 2 }
    miner2 := s.miner2.put s.slots.head.nextId ⟨k, 0⟩
    miner2ex := some ⟨s.slots.head.nextId + 1, s.slots.head.maxTableCount + 1,
      s.slots.head.maxMinerCount + 1⟩
    hddMaccUser := macc
    hddTotalUser := total }

theorem regminer_new (hk : k ≠ 0)
    (hpool : s.storepool.find k = some ⟨1, maxPoolSpace, maxPoolSpace⟩)
    (hinfo : s.minerinfo.find k = none) (hacc : s.maccount.find (ecologyfoundAcc, k) = none)
    (hminer : s.miner.find k = none)
    (hlast : s.slots.head.nextId = s.slots.head.maxTableCount + 1)
    (hslot : s.miner2.find s.slots.head.nextId = none) :
    ∃ users macc total sent,
      regminer .whole (.permissive 5) .empty s k 2 3 k ecologyfoundAcc minMinerSpace
        ⟨1000000, coreSymbol⟩ false = .ok (enrolled s k users macc total, sent) := by
  let s1 : Tables := { s with
    storepool := s.storepool.put k ⟨1, maxPoolSpace, maxPoolSpace - minMinerSpace⟩ }
  obtain ⟨macc, hbind⟩ := bindOwner_new (s := s1) hacc
  let s2 : Tables := { s1 with
    maccount := s.maccount.put (ecologyfoundAcc, k) ⟨0, 0, 0, 5⟩, hddMaccUser := macc }
  obtain ⟨users, total, hopen⟩ := openOwner_any (s := s2) ecologyfoundAcc
  let s3 : Tables := { s2 with
    userhdd := users
    hddTotalUser := total
    minerinfo := s.minerinfo.put k ⟨ecologyfoundAcc, 2, k, minMinerSpace, minMinerSpace⟩
    counterstat := totalAfter s.counterstat minMinerSpace true }
  have hinsert := insertMiner2_grow (s := s3) (k := k) hlast hslot
  simp only [regminer, ok_iff]
  exact ⟨users, macc, total, _, rfl, rfl, rfl, UInt64.pos_iff_ne_zero.mpr hk, rfl, _, hpool, rfl,
    hinfo, rfl, by decide, by decide, by decide, _, hbind, _, hopen, _, ⟨hinfo, rfl⟩, hminer, _,
    hinsert, _, ⟨hminer, rfl⟩, _, rfl, rfl, rfl⟩

/-- The tables after the miner `k` has reported that it sold nothing. -/
def working (s : Tables) (k : UInt64) (info : MinerInfo) (acc : MAccount) (row : Miner) : Tables :=
  { s with
    minerinfo := s.minerinfo.put k { info with spaceLeft := info.spaceLeft - 0 }
    maccount := s.maccount.put (info.owner, k) acc
    miner := s.miner.put k { row with status := 0 } }

theorem addmprofit_none {info : MinerInfo} {row : Miner} (hinfo : s.minerinfo.find k = some info)
    (howner : info.owner = ecologyfoundAcc) (hmax : 0 < info.maxSpace)
    (hacc : s.maccount.find (ecologyfoundAcc, k) = some ⟨0, 0, 0, 5⟩)
    (hrow : s.miner.find k = some row) (hstatus : row.status = 2) :
    ∃ acc sent, addmprofit .whole (.permissive 5) s k 0 5 = .ok (working s k info acc row, sent) := by
  have hadjust : (s.miner.adjust k fun row =>
      { row with space := row.space + 0, status := if row.status = 2 then 0 else row.status }) =
      s.miner.put k { row with status := 0 } := by
    rw [adjust_of_some _ hrow, if_pos hstatus, UInt64.add_zero]
  have hrows : minerRows s k = .ok (info, ⟨0, 0, 0, 5⟩) := by
    simp only [minerRows, ok_iff]
    exact ⟨info, hinfo, _, by rw [howner]; exact hacc, rfl, rfl⟩
  have howners : chgOwnerSpace .whole s.userhdd info.owner 0 true true 5 (profitDeadline 0) =
      .ok s.userhdd := by
    rw [chgOwnerSpace, if_pos howner]
  simp only [addmprofit, ok_iff, hadjust, hrows]
  exact ⟨_, _, (), rfl, rfl, _, rfl, fun h => absurd h (UInt64.lt_irrefl 0), hmax, UInt64.zero_le,
    _, rfl, _, howners, rfl, rfl⟩

end Calls

/-- What the three calls for the miner `k` leave behind. -/
structure Joined (s : Tables) (k : UInt64) (s' : Tables) : Prop where
  pools : ∀ j, j ≠ k → s'.storepool.find j = s.storepool.find j
  info : ∃ info, s'.minerinfo.find k = some info ∧ info.owner = ecologyfoundAcc
  infos : ∀ j, j ≠ k → s'.minerinfo.find j = s.minerinfo.find j
  accounts : ∀ o j, j ≠ k → s'.maccount.find (o, j) = s.maccount.find (o, j)
  miner : s'.miner.find k = some (crowdMiner k)
  miners : ∀ j, j ≠ k → s'.miner.find j = s.miner.find j
  miner2 : s'.miner2 = s.miner2.put k ⟨k, 0⟩
  head : s'.miner2ex = some ⟨k + 1, k, s.slots.head.maxMinerCount + 1⟩
  total : s'.counterstat.isSome
  param : s'.newmparam = s.newmparam
  lottery : SameLottery s s'

variable {n : ℕ} {s : Tables}

theorem joins_run (h : Crowd n s) {k : UInt64} (hk : k.toNat = n + 1) :
    ∃ s', runActions .whole (.permissive 5) .empty s (joins k) = .ok s' ∧ Joined s k s' := by
  have hout : n < k.toNat := by omega
  have hk0 : k ≠ 0 := by
    rintro rfl
    simp at hk
  have hof : UInt64.ofNat (n + 1) = k := by rw [← hk, UInt64.ofNat_toNat]
  have hnext : s.slots.head.nextId = k := by rw [h.head, hof]
  have hmax : s.slots.head.maxTableCount + 1 = k := by
    rw [h.head, ← hof, UInt64.ofNat_add]
    rfl
  obtain ⟨sent1, hpool⟩ := regstrpool_new (h.noPool k hout)
  let s1 : Tables := { s with storepool := s.storepool.put k ⟨1, maxPoolSpace, maxPoolSpace⟩ }
  have hnext1 : s1.slots.head.nextId = k := hnext
  obtain ⟨users, macc, total, sent2, hreg⟩ := regminer_new (s := s1) hk0
    (find_put_self _ _ _) (h.noInfo k hout) (h.noAccount _ k hout) (h.noMiner k hout)
    (hnext.trans hmax.symm) (by rw [hnext1]; exact h.noSlot k hout)
  obtain ⟨acc, sent3, hadd⟩ := addmprofit_none (s := enrolled s1 k users macc total) (k := k)
    (find_put_self _ _ _) rfl (show (0 : UInt64) < minMinerSpace by decide)
    (find_put_self _ _ _) (find_put_self _ _ _) rfl
  refine ⟨working (enrolled s1 k users macc total) k
    ⟨ecologyfoundAcc, 2, k, minMinerSpace, minMinerSpace⟩ acc
    { crowdMiner k with internalId := s1.slots.head.nextId.toUInt32, status := 2 }, ?_, ?_⟩
  · simp only [joins, runActions, apply, hpool, bind_eq_ok]
    exact ⟨_, rfl, _, hreg, _, hadd, rfl⟩
  · refine ⟨?_, ⟨_, find_put_self _ _ _, rfl⟩, ?_, ?_, ?_, ?_, ?_, ?_, rfl, rfl,
      ⟨rfl, rfl, rfl⟩⟩
    · intro j hj
      exact (find_put_ne _ _ hj).trans (find_put_ne _ _ hj)
    · intro j hj
      exact (find_put_ne _ _ hj).trans (find_put_ne _ _ hj)
    · intro o j hj
      have hne : ∀ u, (o, j) ≠ (u, k) := fun u heq => hj (Prod.mk.inj heq).2
      exact (find_put_ne _ _ (hne _)).trans (find_put_ne _ _ (hne _))
    · refine (find_put_self _ _ _).trans ?_
      rw [hnext1]
      rfl
    · intro j hj
      exact (find_put_ne _ _ hj).trans (find_put_ne _ _ hj)
    · show s.miner2.put s.slots.head.nextId ⟨k, 0⟩ = _
      rw [hnext]
    · show some (⟨s.slots.head.nextId + 1, s.slots.head.maxTableCount + 1, _⟩ : Miner2Ex) = _
      rw [hnext, hmax]
      rfl

theorem Crowd.join (h : Crowd n s) (hn : n + 2 < 2 ^ 64) :
    ∃ s', Run.Steps (AnyStep .whole) s s' ∧ Crowd (n + 1) s' := by
  obtain ⟨k, hk⟩ : ∃ k : UInt64, k.toNat = n + 1 :=
    ⟨UInt64.ofNat (n + 1), UInt64.toNat_ofNat_of_lt' (by rw [UInt64.size]; omega)⟩
  have hof : UInt64.ofNat (n + 1) = k := by rw [← hk, UInt64.ofNat_toNat]
  have hold : ∀ j : UInt64, 1 ≤ j.toNat → j.toNat ≤ n + 1 → j = k ∨ j ≠ k ∧ j.toNat ≤ n := by
    intro j _ hle
    by_cases hj : j = k
    · exact .inl hj
    · have hne : j.toNat ≠ n + 1 := fun heq => hj (UInt64.toNat_inj.mp (heq.trans hk.symm))
      exact .inr ⟨hj, by omega⟩
  have hout : ∀ j : UInt64, n + 1 < j.toNat → j ≠ k ∧ n < j.toNat := by
    rintro j hlt
    exact ⟨fun hj => by rw [hj] at hlt; omega, by omega⟩
  obtain ⟨s', hrun, hjoin⟩ := joins_run h hk
  refine ⟨s', runActions_steps (fun _ _ => trivial) hrun, ?_⟩
  refine ⟨?_, ?_, ?_, ?_, ?_, ?_, ?_, ?_, ?_, fun _ => by rw [hjoin.head]; rfl, ?_,
    fun _ => hjoin.total, hjoin.param.trans h.param, hjoin.lottery.mscore1.trans h.mscore1,
    hjoin.lottery.mscore2.trans h.mscore2, hjoin.lottery.mscore2ex.trans h.mscore2ex⟩
  · intro j hj
    rw [hjoin.pools j (hout j hj).1]
    exact h.noPool j (hout j hj).2
  · intro j h1 h2
    rcases hold j h1 h2 with rfl | ⟨hne, hle⟩
    · exact hjoin.info
    · rw [hjoin.infos j hne]
      exact h.info j h1 hle
  · intro j hj
    rw [hjoin.infos j (hout j hj).1]
    exact h.noInfo j (hout j hj).2
  · intro o j hj
    rw [hjoin.accounts o j (hout j hj).1]
    exact h.noAccount o j (hout j hj).2
  · intro j h1 h2
    rcases hold j h1 h2 with rfl | ⟨hne, hle⟩
    · exact hjoin.miner
    · rw [hjoin.miners j hne]
      exact h.miner j h1 hle
  · intro j hj
    rw [hjoin.miners j (hout j hj).1]
    exact h.noMiner j (hout j hj).2
  · intro j h1 h2
    rw [hjoin.miner2]
    rcases hold j h1 h2 with rfl | ⟨hne, hle⟩
    · exact find_put_self _ _ _
    · rw [find_put_ne _ _ hne]
      exact h.slot j h1 hle
  · intro j hj
    rw [hjoin.miner2, find_put_ne _ _ (hout j hj).1]
    exact h.noSlot j (hout j hj).2
  · have hcount : s.slots.head.maxMinerCount + 1 = k := by
      rw [h.head, ← hof, UInt64.ofNat_add]
      rfl
    rw [Slots.head, Tables.slots, hjoin.head, hcount, UInt64.ofNat_add (n + 1), hof]
    rfl
  · rw [hjoin.miner2, size_put_of_none _ (h.noSlot k (by omega)), h.size]

/-- Every number of miners below `2 ^ 64 - 1` can be registered. -/
theorem exists_crowd (n : ℕ) (hn : n + 1 < 2 ^ 64) :
    ∃ s, Run.Steps (AnyStep .whole) Tables.empty s ∧ Crowd n s := by
  induction n with
  | zero => exact ⟨_, .refl, Crowd.empty⟩
  | succ n ih =>
    obtain ⟨s, hrun, hs⟩ := ih (by omega)
    obtain ⟨s', hrun', hs'⟩ := hs.join (by omega)
    exact ⟨s', hrun.trans hrun', hs'⟩

/-- A crowd can start the new model, which is what the builder waits for. -/
theorem Crowd.start (h : Crowd n s) (hn : 1 ≤ n) :
    ∃ p, AnyStep .whole s { s with newmparam := some p } := by
  obtain ⟨total, htotal⟩ := Option.isSome_iff_exists.mp (h.total hn)
  have hcall : ∃ p sent, startnewm .whole (.permissive 5) s =
      .ok ({ s with newmparam := some p }, sent) := by
    simp only [startnewm, htotal, h.param, ok_iff]
    exact ⟨_, _, rfl, rfl, _, rfl, _, rfl, rfl, rfl⟩
  obtain ⟨p, sent, hcall⟩ := hcall
  exact ⟨p, .startnewm, trivial, .permissive 5, .empty, sent, hcall⟩

end YottaChain.HddPool
