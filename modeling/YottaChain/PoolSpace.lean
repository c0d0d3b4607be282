/-
  **Space is conserved between pools, miners and the total.**

  `SpaceLaw` collects what the quotas of `hddpool` promise: every pool's free
  space and its miners' space add up to its quota, every miner sits in a pool
  and has a whole number of gigabytes between the two limits, and the total of
  the network is the sum over the miners.

  Two conditions on a run are needed.  A pool with the empty name never gets
  the space of a deleted miner back (`empty_pool_loses_space` is such a run), so
  no step may register it; and the 64-bit total has to be able to hold the sum,
  for which fewer than `2 ^ 47` registered miners are enough.
-/
import YottaChain.MinerRegistry

namespace YottaChain.HddPool

open FixedWidth Table UInt64

/-! ## 1. The total -/

def gigabytes (info : MinerInfo) : Nat := info.maxSpace.toNat / 65536

def registeredGb (t : Table UInt64 MinerInfo) : Nat := t.total fun _ info => gigabytes info

def TotalExact (s : Tables) : Prop := (s.counterstat.getD 0).toNat = registeredGb s.minerinfo

variable {m : UInt64} {info : MinerInfo} {t : Table UInt64 MinerInfo} {old : MinerInfo}

theorem registeredGb_put_same (h : t.find m = some old) (hmax : info.maxSpace = old.maxSpace) :
    registeredGb (t.put m info) = registeredGb t := by
  have hput : registeredGb (t.put m info) + gigabytes old = registeredGb t + gigabytes info :=
    total_put_add info _ h
  rw [gigabytes, gigabytes, hmax] at hput
  exact Nat.add_right_cancel hput

theorem gigabytes_le_registered (h : t.find m = some info) : gigabytes info ≤ registeredGb t := by
  have herase : registeredGb (t.erase m) + gigabytes info = registeredGb t := total_erase_add _ h
  omega

variable {s : Tables}

theorem registeredGb_lt (hs : Synced s) (hsize : s.minerinfo.size < 2 ^ 47) :
    registeredGb s.minerinfo < 2 ^ 64 := by
  have hrow : ∀ m info, s.minerinfo.find m = some info → gigabytes info ≤ 102400 := by
    intro m info hm
    obtain ⟨_, _, _, _, hagree⟩ := hs.known hm
    have hmax := hagree.atMost
    rw [maxMinerSpace_toNat] at hmax
    unfold gigabytes
    omega
  have hle : registeredGb s.minerinfo ≤ 102400 * s.minerinfo.size := total_le_mul_size hrow
  omega

variable {d : UInt64}

theorem totalAfter_increase {total : Option UInt64}
    (h : (total.getD 0).toNat + d.toNat / 65536 < 2 ^ 64) :
    ((totalAfter total d true).getD 0).toNat = (total.getD 0).toNat + d.toNat / 65536 := by
  have hshift := toNat_shiftRight16 d
  rw [← hshift] at h ⊢
  exact toNat_add_of_lt h

theorem totalAfter_decrease {total : Option UInt64} (h : d.toNat / 65536 ≤ (total.getD 0).toNat) :
    ((totalAfter total d false).getD 0).toNat = (total.getD 0).toNat - d.toNat / 65536 := by
  have hshift := toNat_shiftRight16 d
  rw [← hshift] at h ⊢
  show (if d >>> 16 < total.getD 0 then total.getD 0 - (d >>> 16) else 0).toNat = _
  split_ifs with hlt
  · exact toNat_sub_of_le h
  · have hge := le_iff_toNat_le.mp (UInt64.not_lt.mp hlt)
    rw [UInt64.toNat_zero]
    omega

variable {s' : Tables}

theorem TotalExact.of_same_size (ht : TotalExact s) (hinfo : s'.minerinfo = s.minerinfo.put m info)
    (hcounter : s'.counterstat = s.counterstat) (h : s.minerinfo.find m = some old)
    (hmax : info.maxSpace = old.maxSpace) : TotalExact s' := by
  unfold TotalExact
  rw [hinfo, hcounter, registeredGb_put_same h hmax]
  exact ht

theorem TotalExact.of_same (ht : TotalExact s) (hinfo : s'.minerinfo = s.minerinfo)
    (hcounter : s'.counterstat = s.counterstat) : TotalExact s' := by
  unfold TotalExact
  rw [hinfo, hcounter]
  exact ht

variable {fp : Doubles} {a : Action}

theorem TotalExact.step (ht : TotalExact s) (hr : Registry s) (h : Effect fp s a s')
    (hfits : registeredGb s'.minerinfo < 2 ^ 64) : TotalExact s' := by
  cases h with
  | quiet _ _ hreg => exact ht.of_same hreg.minerinfo hreg.counterstat
  | build p g =>
    have hreg := build_registry s (some p) g.maxTableCount
    exact ht.of_same hreg.minerinfo hreg.counterstat
  | poolDelete | poolRegister | poolResize => exact ht
  | @register m adm _ p o max _ _ howner hid pool hpool hinfo hmask hle hge hleft hacc now users
      husers hminer slots id htakes macc total =>
    have hput : registeredGb (s.minerinfo.put m ⟨o, adm, p, max, max⟩) =
        gigabytes ⟨o, adm, p, max, max⟩ + registeredGb s.minerinfo :=
      total_put_of_none _ _ hinfo
    dsimp only at hfits
    rw [hput, Nat.add_comm] at hfits
    unfold TotalExact at ht ⊢
    dsimp only
    rw [hput, Nat.add_comm, ← ht]
    rw [← ht] at hfits
    exact totalAfter_increase hfits
  | @delete m _ _ info hinfo users accounts hunbind slots hdrop =>
    have herase : registeredGb (s.minerinfo.erase m) + gigabytes info =
        registeredGb s.minerinfo := total_erase_add _ hinfo
    have hle := gigabytes_le_registered hinfo
    unfold TotalExact at ht ⊢
    dsimp only
    rw [← ht] at hle herase
    rw [totalAfter_decrease hle]
    exact Nat.sub_eq_of_eq_add herase.symm
  | addSpace _ _ hinfo | subSpace _ _ hinfo | movePool _ hinfo | changeAdmin _ hinfo
  | changeOwner _ hinfo => exact ht.of_same_size rfl rfl hinfo rfl
  | @enlarge m space _ _ row hrow hmask hle hge pool hpool hleft =>
    obtain ⟨info, acc, hinfo, _, hagree⟩ := hr.synced.of_row hrow
    have hspace := Nat.le_trans (le_iff_toNat_le.mp hleft) (hr.quota.left_le _ _ hpool)
    have hwhole := and_low16_eq_zero.mp hmask
    have hmax := (agrees_enlarge row.realSpace hagree hwhole hspace hle).1
    have hput := total_put_add
      { info with maxSpace := info.maxSpace + space, spaceLeft := info.spaceLeft + space }
      (fun _ i => gigabytes i) hinfo
    have hgb : registeredGb (s.minerinfo.put m { info with
        maxSpace := info.maxSpace + space, spaceLeft := info.spaceLeft + space }) =
          registeredGb s.minerinfo + space.toNat / 65536 := by
      unfold registeredGb
      unfold gigabytes at hput ⊢
      dsimp only at hput
      have hw := hagree.whole
      omega
    dsimp only at hfits
    rw [adjust_of_some _ hinfo, hgb] at hfits
    unfold TotalExact at ht ⊢
    dsimp only
    rw [adjust_of_some _ hinfo, hgb, ← ht]
    rw [← ht] at hfits
    exact totalAfter_increase hfits
  | deactivate | activate | setLevel | setRealSpace | sync => exact ht

/-! ## 2. The law over runs -/

structure SpaceLaw (s : Tables) : Prop where
  /-- The free space of a pool and the space of its miners add up to its quota. -/
  pools : ∀ p pool, s.storepool.find p = some pool →
    pool.spaceLeft.toNat + usedBy s.minerinfo p = pool.maxSpace.toNat ∧ pool.maxSpace ≤ maxPoolSpace
  /-- Every miner is in a pool that exists. -/
  home : ∀ m info, s.minerinfo.find m = some info → ∃ pool, s.storepool.find info.poolId = some pool
  sizes : ∀ m info, s.minerinfo.find m = some info →
    info.maxSpace.toNat % 65536 = 0 ∧ minMinerSpace ≤ info.maxSpace ∧ info.maxSpace ≤ maxMinerSpace
  total : (s.counterstat.getD 0).toNat =
    s.minerinfo.total fun _ info => (info.maxSpace >>> 16).toNat
  /-- Space returned to a pool neither wraps nor meets the clamp of `mchgstrpool`. -/
  release : ∀ m info pool, s.minerinfo.find m = some info →
    s.storepool.find info.poolId = some pool →
    pool.spaceLeft.toNat + info.maxSpace.toNat ≤ pool.maxSpace.toNat ∧
      releasePoolSpace pool info.maxSpace =
        { pool with spaceLeft := pool.spaceLeft + info.maxSpace }
  /-- The decrease of the total does not meet its clamp. -/
  decrease : ∀ m info, s.minerinfo.find m = some info → info.maxSpace >>> 16 ≤ s.counterstat.getD 0

theorem SpaceLaw.of_registry (hr : Registry s) (ht : TotalExact s)
    (hzero : s.storepool.find 0 = none) : SpaceLaw s := by
  have hexact : ∀ p pool, s.storepool.find p = some pool →
      PoolLaw p pool (usedBy s.minerinfo p) ∧ p ≠ 0 := by
    intro p pool hp
    refine ⟨hr.quota.law p pool hp, ?_⟩
    rintro rfl
    rw [hzero] at hp
    cases hp
  refine ⟨fun p pool hp => ?_, fun m info hm => ?_, fun m info hm => ?_, ?_,
    fun m info pool hm hp => ?_, fun m info hm => ?_⟩
  · obtain ⟨hlaw, hne⟩ := hexact p pool hp
    exact ⟨hlaw.exact hne, le_iff_toNat_le.mpr hlaw.quota⟩
  · exact Option.isSome_iff_exists.mp (hr.quota.home m info hm)
  · obtain ⟨_, _, _, _, hagree⟩ := hr.synced.known hm
    exact ⟨hagree.whole, le_iff_toNat_le.mpr hagree.atLeast, le_iff_toNat_le.mpr hagree.atMost⟩
  · rw [ht]
    unfold registeredGb gigabytes
    simp only [toNat_shiftRight16]
  · have hlaw := (hexact _ pool hp).1
    have herase := usedBy_erase hm info.poolId
    rw [if_pos rfl] at herase
    rw [← herase] at hlaw
    have hle := hlaw.atMost
    exact ⟨by omega, hlaw.release⟩
  · rw [le_iff_toNat_le, toNat_shiftRight16, ht]
    exact gigabytes_le_registered hm

def NamedPool (a : Action) : Prop := ∀ owner, a ≠ .regstrpool 0 owner

/-- A step that keeps to named pools and to fewer than `2 ^ 47` miners. -/
def SpaceStep (fp : Doubles) (s s' : Tables) : Prop :=
  Step fp NamedPool s s' ∧ s'.minerinfo.size < 2 ^ 47

/-- A pool with the empty name comes only from registering one. -/
theorem Effect.no_empty_pool (h : Effect fp s a s') (ha : NamedPool a)
    (hzero : s.storepool.find 0 = none) : s'.storepool.find 0 = none := by
  have hput : ∀ {p : Name} {pool : StorePool} (pool' : StorePool),
      s.storepool.find p = some pool → (s.storepool.put p pool').find 0 = none := by
    intro p pool pool' hp
    have hne : (0 : Name) ≠ p := by
      rintro rfl
      rw [hzero] at hp
      cases hp
    rw [find_put_ne _ _ hne]
    exact hzero
  cases h with
  | quiet _ _ hreg =>
    rw [hreg.storepool]
    exact hzero
  | build p g =>
    rw [(build_registry s (some p) g.maxTableCount).storepool]
    exact hzero
  | poolDelete =>
    dsimp only
    rw [find_erase]
    split
    · rfl
    · exact hzero
  | @poolRegister p owner hnew =>
    have hne : (0 : Name) ≠ p := by
      rintro rfl
      exact ha owner rfl
    dsimp only
    rw [find_put_ne _ _ hne]
    exact hzero
  | poolResize _ hpool => exact hput _ hpool
  | register _ _ _ hpool => exact hput _ hpool
  | delete =>
    dsimp only
    unfold poolsAfterDelete
    split_ifs with hne
    · exact hzero
    · rw [find_adjust, if_neg (Ne.symm hne)]
      exact hzero
  | addSpace | subSpace | deactivate | activate => exact hzero
  | @movePool m p info hinfo old hold pool hpool hleft =>
    have hmid := hput (releasePoolSpace old info.maxSpace) hold
    have hne : (0 : Name) ≠ p := by
      rintro rfl
      rw [hmid] at hpool
      cases hpool
    dsimp only
    rw [find_put_ne _ _ hne]
    exact hmid
  | enlarge _ _ _ _ _ _ hpool => exact hput _ hpool
  | changeAdmin | changeOwner | setLevel | setRealSpace | sync => exact hzero

/-- Space is conserved in every run from empty tables that registers no pool
    under the empty name. -/
theorem pool_space_conserved {fp : Doubles} {s₀ s : Tables} (hfresh : Fresh s₀)
    (htotal : s₀.counterstat.getD 0 = 0) (hrun : Run.Steps (SpaceStep fp) s₀ s) :
    SpaceLaw s := by
  have hstart : Registry s₀ ∧ TotalExact s₀ ∧ s₀.storepool.find 0 = none := by
    refine ⟨hfresh.registry, ?_, ?_⟩
    · unfold TotalExact registeredGb
      rw [htotal, hfresh.minerinfo, total_empty]
      rfl
    · rw [hfresh.storepool, find_empty]
  have hinv := Run.invariant (P := fun t => Registry t ∧ TotalExact t ∧ t.storepool.find 0 = none)
    (R := SpaceStep fp) ?_ hstart hrun
  · obtain ⟨hr, ht, hzero⟩ := hinv
    exact SpaceLaw.of_registry hr ht hzero
  · rintro t t' ⟨hr, ht, hzero⟩ ⟨hstep, hsize⟩
    obtain ⟨a, ha, heffect⟩ := hstep.effect
    have hr' := hr.effect heffect
    exact ⟨hr', ht.step hr heffect (registeredGb_lt hr'.synced hsize),
      heffect.no_empty_pool ha hzero⟩

/-- Two miners share a pool; one of them grows and moves to another pool, the
    other is deleted. -/
def twoPoolsRun : List Action :=
  [.regstrpool 9 1, .regstrpool 10 1,
    .regminer 7 2 3 9 4 6553600 ⟨1000000, coreSymbol⟩ false,
    .regminer 8 2 3 9 4 6553600 ⟨1000000, coreSymbol⟩ false,
    .mincdeposit 7 6553600 ⟨1000000, coreSymbol⟩ false, .mchgstrpool 7 10, .delminer 8 0 5]

/-- The first pool has all its space back, the second has given away what the
    miner asked for in two calls. -/
theorem pool_space_conserved_sample :
    Fresh Tables.empty ∧ ∃ s, Run.Steps (SpaceStep .whole) Tables.empty s ∧
      (s.storepool.find 9).map StorePool.spaceLeft = some maxPoolSpace ∧
      (s.storepool.find 10).map StorePool.spaceLeft = some (maxPoolSpace - 13107200) ∧
      SpaceLaw s := by
  have hfresh : Fresh Tables.empty := ⟨rfl, rfl, rfl, rfl⟩
  obtain ⟨s, hs, hread⟩ := Checked.exists_of_map_eq_ok
    (x := runTested .whole (.permissive 5) .empty
      (fun _ _ s' => decide (s'.minerinfo.size < 2 ^ 47)) .empty twoPoolsRun)
    (f := fun s => ((s.storepool.find 9).map StorePool.spaceLeft,
      (s.storepool.find 10).map StorePool.spaceLeft))
    (b := (some maxPoolSpace, some (maxPoolSpace - 13107200))) (by decide +kernel)
  obtain ⟨hfirst, hsecond⟩ := Prod.mk.inj hread
  have hrun : Run.Steps (SpaceStep .whole) Tables.empty s := by
    refine runTested_steps (fun a ha _ _ hsize hcall => ?_) hs
    refine ⟨⟨a, ?_, hcall⟩, of_decide_eq_true hsize⟩
    rintro owner rfl
    simp [twoPoolsRun] at ha
  exact ⟨hfresh, s, hrun, hfirst, hsecond, pool_space_conserved hfresh rfl hrun⟩

def emptyPoolRun : List Action :=
  [.regstrpool 0 1, .regminer 7 2 3 0 4 6553600 ⟨1000000, coreSymbol⟩ false, .delminer 7 0 0]

/-- The deleted miner's space is lost: the pool has no miner left and still
    misses 6553600 units. -/
theorem empty_pool_loses_space :
    ∃ s, Run.Steps (AnyStep .whole) Tables.empty s ∧ s.minerinfo.size = 0 ∧
      ∃ pool, s.storepool.find 0 = some pool ∧ usedBy s.minerinfo 0 = 0 ∧
        pool.spaceLeft.toNat + usedBy s.minerinfo 0 + 6553600 = pool.maxSpace.toNat := by
  obtain ⟨s, hs, hread⟩ := Checked.exists_of_map_eq_ok
    (x := runActions .whole (.permissive 5) .empty .empty emptyPoolRun)
    (f := fun s => (s.minerinfo.size, s.storepool.find 0, usedBy s.minerinfo 0))
    (b := (0, some ⟨1, maxPoolSpace, maxPoolSpace - 6553600⟩, 0)) rfl
  simp only [Prod.mk.injEq] at hread
  obtain ⟨hsize, hpool, hused⟩ := hread
  refine ⟨s, runActions_steps (fun _ _ => trivial) hs, hsize, _, hpool, hused, ?_⟩
  rw [hused]
  rfl

end YottaChain.HddPool
