/-
  **The lottery tables always have the shape a draw needs.**

  Every weight is positive and at most `maxWeight`, because the size of a miner
  and its level are bounded.  A list of tickets has at most as many tickets as
  there are internal ids.  So while the id table has fewer than `2 ^ 37` rows no
  running total wraps around, the ranges climb in both buffers, and a draw meets
  neither a modulus by zero nor a missing row.

  Without the bound the ranges do wrap: `ranges_wrap` is a run of the contract
  that ends with a range smaller than the one before it.
-/
import YottaChain.LotteryRounds
import YottaChain.LotteryDraw
import YottaChain.MinerCrowd

namespace YottaChain.HddPool

open Checked Ladder FixedWidth Table UInt64

/-! ## 1. Weights -/

def maxWeight : ℕ := 91808768

def usableSpace (row : Miner) : ℕ :=
  if row.realSpace = 0 then row.maxSpace.toNat else min row.maxSpace.toNat row.realSpace.toNat

def share1 (row : Miner) : ℕ := usableSpace row / 65536 * row.level.toNat / 100

def share2 (row : Miner) : ℕ := 3 * max 1 (row.space.toNat / 65536)

/-- Levels are bounded by the check of `mlevel`. -/
def Levels (s : Tables) : Prop := ∀ m row, s.miner.find m = some row → row.level.toNat ≤ 89657

variable {row : Miner}

theorem weight1_toNat (hmax : row.maxSpace.toNat ≤ maxMinerSpace.toNat)
    (hlevel : row.level.toNat ≤ 89657) : (weight1 row).toNat = share1 row := by
  rw [maxMinerSpace_toNat] at hmax
  have hshare : ∀ space : UInt64, space.toNat ≤ row.maxSpace.toNat →
      ((space >>> 16) * row.level.toUInt64 / 100).toNat =
        space.toNat / 65536 * row.level.toNat / 100 := by
    intro space hspace
    have hgb : space.toNat / 65536 ≤ 102400 := by omega
    have hprod := Nat.mul_le_mul hgb hlevel
    rw [UInt64.toNat_div, UInt64.toNat_mul, UInt32.toNat_toUInt64, toNat_shiftRight16,
      Nat.mod_eq_of_lt (by omega)]
    rfl
  have hzero : row.realSpace = 0 ↔ row.realSpace.toNat = 0 := UInt64.toNat_inj.symm
  unfold weight1 share1 usableSpace
  dsimp only
  by_cases hreal : 0 < row.realSpace ∧ row.realSpace < row.maxSpace
  · have hlt := lt_iff_toNat_lt.mp hreal.2
    have hpos := lt_iff_toNat_lt.mp hreal.1
    rw [UInt64.toNat_zero] at hpos
    rw [if_pos hreal, hshare _ (by omega), if_neg (by rw [hzero]; omega),
      Nat.min_eq_right (by omega)]
  · rw [if_neg hreal, hshare _ (Nat.le_refl _)]
    by_cases h0 : row.realSpace = 0
    · rw [if_pos h0]
    · have hge : row.maxSpace.toNat ≤ row.realSpace.toNat := by
        by_contra hlt
        exact hreal ⟨UInt64.pos_iff_ne_zero.mpr h0, lt_iff_toNat_lt.mpr (by omega)⟩
      rw [if_neg h0, Nat.min_eq_left hge]

theorem weight2_toNat (hspace : row.space.toNat ≤ maxMinerSpace.toNat) :
    (weight2 row).toNat = share2 row := by
  rw [maxMinerSpace_toNat] at hspace
  have hgb := toNat_shiftRight16 row.space
  unfold weight2 share2
  dsimp only
  by_cases h0 : row.space >>> 16 = 0
  · have hz : (row.space >>> 16).toNat = 0 := by rw [h0, UInt64.toNat_zero]
    rw [if_pos h0, ← hgb, hz]
    rfl
  · have hpos : (row.space >>> 16).toNat ≠ 0 := fun h => h0 (UInt64.toNat_inj.mp h)
    rw [if_neg h0, UInt64.toNat_mul, hgb, Nat.max_eq_right (by omega), Nat.mul_comm]
    exact Nat.mod_eq_of_lt (by rw [show (3 : UInt64).toNat = 3 from rfl]; omega)

theorem weight1_le (hmax : row.maxSpace.toNat ≤ maxMinerSpace.toNat)
    (hlevel : row.level.toNat ≤ 89657) : (weight1 row).toNat ≤ maxWeight := by
  rw [weight1_toNat hmax hlevel, share1, maxWeight]
  rw [maxMinerSpace_toNat] at hmax
  have husable : usableSpace row ≤ row.maxSpace.toNat := by
    unfold usableSpace
    split
    · exact Nat.le_refl _
    · exact Nat.min_le_left _ _
  have hgb : usableSpace row / 65536 ≤ 102400 := by omega
  have hprod := Nat.mul_le_mul hgb hlevel
  omega

theorem weight2_bounds (hspace : row.space.toNat ≤ maxMinerSpace.toNat) :
    0 < (weight2 row).toNat ∧ (weight2 row).toNat ≤ maxWeight := by
  rw [weight2_toNat hspace, share2, maxWeight]
  rw [maxMinerSpace_toNat] at hspace
  omega

def Priced (l : List Ticket) : Prop := ∀ t ∈ l, 0 < t.2.toNat ∧ t.2.toNat ≤ maxWeight

variable {l : List Ticket}

theorem Priced.append {l' : List Ticket} (h : Priced l) (h' : Priced l') : Priced (l ++ l') :=
  List.forall_mem_append.mpr ⟨h, h'⟩

theorem Priced.nil : Priced [] := by
  intro t ht
  cases ht

variable {s : Tables} {m : UInt64}

/-- The sizes in the row of a miner are within the bounds. -/
theorem Synced.bounds (hs : Synced s) (hrow : s.miner.find m = some row) :
    row.maxSpace.toNat ≤ maxMinerSpace.toNat ∧ row.space.toNat ≤ maxMinerSpace.toNat := by
  obtain ⟨info, acc, _, _, hagree⟩ := hs.of_row hrow
  have hmost := hagree.atMost
  have hsold := hagree.sold
  rw [hagree.max, hagree.space]
  omega

theorem priced_tickets1 (hs : Synced s) (hl : Levels s) (k : UInt64) : Priced (tickets1 s k) := by
  intro t ht
  obtain ⟨row, hin, hw, hpos⟩ := mem_tickets1.mp ht
  obtain ⟨_, _, _, _, hrow, _, _⟩ := entrant_eq_some.mp hin
  rw [hw]
  exact ⟨lt_iff_toNat_lt.mp hpos, weight1_le (hs.bounds hrow).1 (hl _ _ hrow)⟩

theorem priced_tickets2 (hs : Synced s) (k : UInt64) : Priced (tickets2 s k) := by
  intro t ht
  obtain ⟨row, hin, hw⟩ := mem_tickets2.mp ht
  obtain ⟨_, _, _, _, hrow, _, _⟩ := entrant_eq_some.mp hin
  rw [hw]
  exact weight2_bounds (hs.bounds hrow).2

theorem Levels.adjust (hl : Levels s) {f : Miner → Miner} (hf : ∀ row, (f row).level = row.level) :
    ∀ k r, (s.miner.adjust m f).find k = some r → r.level.toNat ≤ 89657 := by
  intro k r hr
  rw [find_adjust] at hr
  split at hr
  · obtain ⟨row, hrow, rfl⟩ := Option.map_eq_some_iff.mp hr
    rw [hf]
    exact hl m row hrow
  · exact hl k r hr

variable {fp : Doubles} {s' : Tables} {a : Action}

theorem Levels.effect (hl : Levels s) (hs : Synced s) (h : Effect fp s a s') : Levels s' := by
  cases h with
  | quiet _ _ hreg =>
    intro m row hrow
    rw [hreg.miner] at hrow
    exact hl m row hrow
  | build p g =>
    intro m row hrow
    rw [(build_registry s (some p) g.maxTableCount).miner] at hrow
    exact hl m row hrow
  | poolDelete | poolRegister | poolResize => exact hl
  | register => exact forall_put hl (show defaulMinerLevel.toNat ≤ 89657 by decide)
  | delete => exact forall_erase hl
  | addSpace | subSpace | deactivate | activate | movePool | changeAdmin | changeOwner =>
    exact hl.adjust fun _ => rfl
  | enlarge row hrow | setRealSpace row hrow => exact forall_put hl (hl _ row hrow)
  | setLevel _ _ hle => exact forall_put hl (UInt32.le_iff_toNat_le.mp hle)
  | sync hminer _ hinfo =>
    -- in a run from fresh tables nothing is left to be synchronised
    obtain ⟨row, _, hrow, _⟩ := hs.known hinfo
    rw [hminer] at hrow
    cases hrow

/-! ## 2. Runs -/

structure Deployed (s : Tables) : Prop extends Fresh s where
  miner2 : s.miner2 = ∅
  miner2ex : s.miner2ex = none
  mscore1 : s.mscore1 = ∅
  mscore2 : s.mscore2 = ∅
  mscore2ex : s.mscore2ex.getD {} = {}

structure Round.Priced (r : Round) : Prop where
  drawn1 : HddPool.Priced r.drawn1
  drawn2 : HddPool.Priced r.drawn2
  active1 : HddPool.Priced r.active1
  active2 : HddPool.Priced r.active2

/-- The lottery tables of `s` show the round `r`, and what its weights rest on. -/
structure LotteryLaw (s : Tables) (r : Round) : Prop where
  registry : Registry s
  levels : Levels s
  runs : Runs s r
  priced : r.Priced

variable {r : Round}

theorem Round.Priced.build (hs : Synced s) (hl : Levels s) (h : r.Priced) (max : UInt64) :
    (r.build s max).Priced := by
  refine Round.build_keeps ?_ ?_ h
  · intro r hr _
    exact ⟨hr.drawn1.append (priced_tickets1 hs hl _), hr.drawn2.append (priced_tickets2 hs _),
      hr.active1, hr.active2⟩
  · intro r hr _
    exact ⟨.nil, .nil, hr.drawn1, hr.drawn2⟩

theorem LotteryLaw.effect (h : LotteryLaw s r) (he : Effect fp s a s')
    (hsmall : s'.miner2.size + 1 < 2 ^ 64) : ∃ r', LotteryLaw s' r' ∧ Turn s r a r' := by
  obtain ⟨r', hruns, hturn⟩ := h.runs.effect he hsmall
  refine ⟨r', ⟨h.registry.effect he, h.levels.effect h.registry.synced he, hruns, ?_⟩, hturn⟩
  cases hturn with
  | still => exact h.priced
  | build => exact h.priced.build h.registry.synced h.levels _

theorem Deployed.law (h : Deployed s) : LotteryLaw s Round.first where
  registry := h.toFresh.registry
  levels := by
    intro m row hrow
    rw [h.miner, find_empty] at hrow
    cases hrow
  runs := by
    refine .first ?_ h.mscore1 h.mscore2 h.mscore2ex
    rw [Slots.Counted, Slots.head, Tables.slots, h.miner2ex]
    exact Nat.zero_le _
  priced := ⟨.nil, .nil, .nil, .nil⟩

theorem LotteryLaw.run {s0 : Tables} {r0 : Round} (h0 : LotteryLaw s0 r0)
    (hrun : Run.Steps (AnyStep fp) s0 s) (hsmall : s.miner2.size + 1 < 2 ^ 64) :
    ∃ r, LotteryLaw s r := by
  have hsmall' : s.miner2.size < 2 ^ 64 - 1 := by omega
  refine Run.invariant_below (P := fun s => ∃ r, LotteryLaw s r) (fun s => s.miner2.size) ?_ ?_
    ⟨r0, h0⟩ hrun hsmall'
  · intro s s' hstep
    obtain ⟨a, _, he⟩ := hstep.effect
    exact he.miner2_size_le
  · rintro s s' ⟨r, hr⟩ hstep hb
    obtain ⟨a, _, he⟩ := hstep.effect
    obtain ⟨r', hr', _⟩ := hr.effect he (by omega)
    exact ⟨r', hr'⟩

/-! ## 3. Ladders that do not wrap -/

def weights (l : List Ticket) : List (UInt64 × ℕ) := l.map fun t => (t.1, t.2.toNat)

theorem toNat_height (h : height (weights l) l.length < 2 ^ 64) (i : ℕ) (hi : i ≤ l.length) :
    (height l i).toNat = height (weights l) i := by
  induction i with
  | zero => simp
  | succ i ih =>
    have hlt : i < l.length := by omega
    have hget : l[i]? = some (l[i].1, l[i].2) := List.getElem?_eq_getElem hlt
    have hget' : (weights l)[i]? = some (l[i].1, l[i].2.toNat) := by
      rw [weights, List.getElem?_map, hget]
      rfl
    have hrest := height_mono (weights l) hi
    have hstep := height_succ hget'
    rw [height_succ hget, toNat_add_of_lt, ih (by omega), hstep]
    rw [ih (by omega)]
    omega

variable {t : Table (Scope × UInt64) MScore} {scope : Scope} {k : UInt64}

theorem rung_row (h : Rungs (rungs t scope) l) (hpos : 1 ≤ k.toNat) (hle : k.toNat ≤ l.length) :
    ∃ m w, l[k.toNat - 1]? = some (m, w) ∧ t.find (scope, k) = some ⟨m, height l k.toNat⟩ := by
  obtain ⟨m, w, hget, hrow⟩ := h.get hpos hle
  rw [rungs, UInt64.ofNat_toNat] at hrow
  obtain ⟨row, hfind, heq⟩ := Option.map_eq_some_iff.mp hrow
  simp only [Prod.mk.injEq] at heq
  refine ⟨m, w, hget, ?_⟩
  rw [hfind, ← heq.1, ← heq.2]

/-- With fewer than `2 ^ 37` priced tickets no total wraps around. -/
theorem Priced.height_lt (h : Priced l) (hlen : l.length < 2 ^ 37) :
    height (weights l) l.length < 2 ^ 64 := by
  have hle : height (weights l) l.length ≤ maxWeight * (weights l).length := by
    apply height_le
    intro e he
    obtain ⟨t, ht, rfl⟩ := List.mem_map.mp he
    exact (h t ht).2
  rw [show (weights l).length = l.length by simp [weights], maxWeight] at hle
  omega

def lastRange (find : UInt64 → Option MScore) (count : UInt64) : UInt64 :=
  if count = 0 then 0 else ((find count).map MScore.range).getD 0

theorem climbs_of_rungs {count : UInt64} (h : Rungs (rungs t scope) l)
    (hcount : count.toNat = l.length) (hp : Priced l) (hlen : l.length < 2 ^ 37) :
    Climbs (fun k => t.find (scope, k)) count := by
  have hwrap := hp.height_lt hlen
  have hwlen : (weights l).length = l.length := by simp [weights]
  have hpos : ∀ e ∈ weights l, 0 < e.2 := by
    intro e he
    obtain ⟨t, ht, rfl⟩ := List.mem_map.mp he
    exact (hp t ht).1
  -- ranges are heights, and heights grow
  have hlt : ∀ i j, i < j → j ≤ l.length → height l i < height l j := by
    intro i j hij hj
    rw [lt_iff_toNat_lt, toNat_height hwrap i (by omega), toNat_height hwrap j hj]
    exact height_lt hpos hij (by omega)
  have hrow : ∀ k : UInt64, 1 ≤ k → k ≤ count →
      ∃ m, t.find (scope, k) = some ⟨m, height l k.toNat⟩ := by
    intro k h1 hk
    obtain ⟨m, w, _, hfind⟩ := rung_row h (one_le_iff.mp h1) (by
      rw [← hcount]
      exact le_iff_toNat_le.mp hk)
    exact ⟨m, hfind⟩
  refine ⟨?_, ?_, ?_⟩
  · intro k h1 hk
    obtain ⟨m, hfind⟩ := hrow k h1 hk
    exact ⟨_, hfind⟩
  · intro row h1 hfind
    obtain ⟨m, hfind'⟩ := hrow 1 (UInt64.le_refl 1) h1
    rw [hfind] at hfind'
    cases hfind'
    rw [← height_zero l]
    exact hlt 0 _ Nat.zero_lt_one (by rw [← hcount]; exact one_le_iff.mp h1)
  · intro j k rowj rowk h1 hjk hk hj hk'
    have hjk' := lt_iff_toNat_lt.mp hjk
    have hk'' := le_iff_toNat_le.mp hk
    obtain ⟨mj, hfj⟩ := hrow j h1 (le_iff_toNat_le.mpr (by omega))
    obtain ⟨mk, hfk⟩ := hrow k (one_le_iff.mpr (by omega)) hk
    rw [hj] at hfj
    rw [hk'] at hfk
    cases hfj
    cases hfk
    exact hlt _ _ hjk' (by omega)

theorem lastRange_of_rungs (h : Rungs (rungs t scope) l) (hle : k.toNat ≤ l.length) :
    lastRange (fun k => t.find (scope, k)) k = height l k.toNat := by
  unfold lastRange
  by_cases hzero : k = 0
  · rw [if_pos hzero, hzero, UInt64.toNat_zero, height_zero]
  · have hpos : 1 ≤ k.toNat := by
      have : k.toNat ≠ 0 := fun h0 => hzero (UInt64.toNat_inj.mp h0)
      omega
    obtain ⟨m, w, _, hfind⟩ := rung_row h hpos hle
    rw [if_neg hzero]
    dsimp only
    rw [hfind]
    rfl

/-! ## 4. The buffer in use stays as it is -/

structure ActiveSame (b b' : Build) : Prop where
  scope : b'.ex.activeScope = b.ex.activeScope
  count1 : b'.ex.activeCount1 = b.ex.activeCount1
  count2 : b'.ex.activeCount2 = b.ex.activeCount2
  rows1 : ∀ k, b'.mscore1.find (b.ex.activeScope, k) = b.mscore1.find (b.ex.activeScope, k)
  rows2 : ∀ k, b'.mscore2.find (b.ex.activeScope, k) = b.mscore2.find (b.ex.activeScope, k)

theorem ActiveSame.refl (b : Build) : ActiveSame b b := ⟨rfl, rfl, rfl, fun _ => rfl, fun _ => rfl⟩

theorem ActiveSame.trans {a b c : Build} (h : ActiveSame a b) (h' : ActiveSame b c) :
    ActiveSame a c := by
  refine ⟨h'.scope.trans h.scope, h'.count1.trans h.count1, h'.count2.trans h.count2, ?_, ?_⟩
  · intro k
    rw [← h.rows1 k, ← h.scope]
    exact h'.rows1 k
  · intro k
    rw [← h.rows2 k, ← h.scope]
    exact h'.rows2 k

theorem flip_currentS_ne (g : MScore2Ex) : g.flip.currentS ≠ g.currentS := by
  rw [flip_currentS]
  by_cases hs : g.currentS = 0
  · simp [hs]
  · simpa [hs] using Ne.symm hs

theorem visit_active (s : Tables) (b : Build) :
    ActiveSame b (Build.visit s b.ex.buildScope b).advance ∧
      (Build.visit s b.ex.buildScope b).advance.ex.currentS = b.ex.currentS ∧
      (Build.visit s b.ex.buildScope b).advance.ex.buildScope = b.ex.buildScope := by
  have hne : ∀ k j : UInt64, (b.ex.activeScope, k) ≠ (b.ex.buildScope, j) := by
    intro k j heq
    exact activeScope_ne_buildScope b.ex (Prod.mk.inj heq).1
  rw [Build.visit_eq]
  rcases entrant s b.ex.buildProcId with _ | ⟨m, row⟩
  · exact ⟨⟨rfl, rfl, rfl, fun _ => rfl, fun _ => rfl⟩, rfl, rfl⟩
  · dsimp only
    by_cases hw : 0 < weight1 row
    · simp only [hw, if_true]
      exact ⟨⟨rfl, rfl, rfl, fun k => find_put_ne _ _ (hne k _),
        fun k => find_put_ne _ _ (hne k _)⟩, rfl, rfl⟩
    · simp only [hw, if_false]
      exact ⟨⟨rfl, rfl, rfl, fun _ => rfl, fun k => find_put_ne _ _ (hne k _)⟩, rfl, rfl⟩

theorem loop_active (s : Tables) (max : UInt64) (n : ℕ) (b : Build)
    (h : (Build.loop s b.ex.buildScope max n b).ex.currentS = b.ex.currentS) :
    ActiveSame b (Build.loop s b.ex.buildScope max n b) := by
  induction n generalizing b with
  | zero => exact .refl b
  | succ _ ih =>
    obtain ⟨hsame, hcur, hscope⟩ := visit_active s b
    rw [Build.loop_succ] at h ⊢
    by_cases hend : max < (Build.visit s b.ex.buildScope b).advance.ex.buildProcId
    · rw [if_pos hend] at h
      exact absurd (h.trans hcur.symm) (flip_currentS_ne _)
    · rw [if_neg hend] at h ⊢
      have hrest := ih (Build.visit s b.ex.buildScope b).advance
      rw [hscope] at hrest
      exact hsame.trans (hrest (h.trans hcur.symm))

/-- A call of the builder that does not change the buffers leaves the one in use alone. -/
theorem onbuild_active {c : Ctx} {slot : UInt32} {sent : List Sent}
    (h : onbuild c s slot = .ok (s', sent)) (hcur : s'.lottery.ex.currentS = s.lottery.ex.currentS)
    :
    ActiveSame s.lottery s'.lottery := by
  have heffect : Effect .whole s (.onbuild slot) s' := onbuild_effect h
  rcases heffect.lottery_cases with heq | ⟨_, p, g, _, _, rfl⟩
  · rw [heq]
    exact .refl _
  · unfold buildTables at hcur ⊢
    by_cases hend : g.maxTableCount < (s.mscore2ex.getD {}).buildProcId
    · simp only [hend, if_true, Tables.lottery] at hcur
      exact absurd hcur (flip_currentS_ne _)
    · simp only [hend, if_false, Tables.lottery] at hcur ⊢
      exact loop_active { s with newmparam := some p } g.maxTableCount 3 s.lottery hcur

/-! ## 5. The shape of the tables -/

/-- In every run from an empty deployment, while the id table has fewer than
    `2 ^ 37` rows: the ranges climb over the rows in use and over the rows
    written so far, whose last range is `prev_build_range`; a call of the builder
    that does not change the buffers leaves the one in use alone; and a draw takes
    no modulus by zero and meets no missing row. -/
theorem lottery_tables_shaped {fp : Doubles} {s₀ s : Tables} (h₀ : Deployed s₀)
    (hrun : Run.Steps (AnyStep fp) s₀ s) (hsmall : s.miner2.size < 2 ^ 37) :
    Climbs (fun k => s.mscore1.find (s.lottery.ex.activeScope, k)) s.lottery.ex.activeCount1 ∧
    Climbs (fun k => s.mscore2.find (s.lottery.ex.activeScope, k)) s.lottery.ex.activeCount2 ∧
    Climbs (fun k => s.mscore1.find (s.lottery.ex.buildScope, k)) s.lottery.ex.buildCount1 ∧
    lastRange (fun k => s.mscore1.find (s.lottery.ex.buildScope, k)) s.lottery.ex.buildCount1 =
      s.lottery.ex.prevBuildRange1 ∧
    Climbs (fun k => s.mscore2.find (s.lottery.ex.buildScope, k)) s.lottery.ex.buildCount2 ∧
    lastRange (fun k => s.mscore2.find (s.lottery.ex.buildScope, k)) s.lottery.ex.buildCount2 =
      s.lottery.ex.prevBuildRange2 ∧
    (∀ c slot s' sent, onbuild c s slot = .ok (s', sent) →
      s'.lottery.ex.currentS = s.lottery.ex.currentS → ActiveSame s.lottery s'.lottery) ∧
    (∀ random, rewardproc1 s random ≠ .modZero ∧ rewardproc1 s random ≠ .missingRow) ∧
    (∀ random, rewardproc2 s random ≠ .modZero ∧ rewardproc2 s random ≠ .missingRow) := by
  obtain ⟨r, hlaw⟩ := h₀.law.run hrun (by omega)
  have hshows := hlaw.runs.shows
  have hb := hlaw.runs.bounded
  have hcounted : s.slots.head.maxTableCount.toNat ≤ s.miner2.size := hlaw.runs.counted
  have hproc := hb.proc_le
  have hd1 := hb.fits.drawn1
  have hd2 := hb.fits.drawn2
  have hlen1 : r.active1.length < 2 ^ 37 := Nat.lt_of_le_of_lt (hb.active1.trans hcounted) hsmall
  have hlen2 : r.active2.length < 2 ^ 37 := Nat.lt_of_le_of_lt (hb.active2.trans hcounted) hsmall
  have hclimb1 := climbs_of_rungs hshows.table1.active hshows.table1.count hlaw.priced.active1 hlen1
  have hclimb2 := climbs_of_rungs hshows.table2.active hshows.table2.count hlaw.priced.active2 hlen2
  refine ⟨hclimb1, hclimb2, ?_, ?_, ?_, ?_, fun c slot s' sent => onbuild_active, ?_, ?_⟩
  · exact climbs_of_rungs hshows.table1.building hshows.table1.buildCount hlaw.priced.drawn1
      (by omega)
  · have hcount := hshows.table1.buildCount
    exact (lastRange_of_rungs hshows.table1.building hcount.le).trans
      (hcount ▸ hshows.table1.prev.symm)
  · exact climbs_of_rungs hshows.table2.building hshows.table2.buildCount hlaw.priced.drawn2
      (by omega)
  · have hcount := hshows.table2.buildCount
    exact (lastRange_of_rungs hshows.table2.building hcount.le).trans
      (hcount ▸ hshows.table2.prev.symm)
  · intro random
    unfold rewardproc1
    rcases hex : s.mscore2ex with _ | g
    · simp
    · have hg : s.lottery.ex = g := by simp [Tables.lottery, hex]
      rw [hg] at hclimb1
      have hcount := hshows.table1.count
      rw [hg] at hcount
      exact rewardproc_sound hclimb1 (hshows.table1.ground _) (by omega) random
  · intro random
    unfold rewardproc2
    rcases hex : s.mscore2ex with _ | g
    · simp
    · have hg : s.lottery.ex = g := by simp [Tables.lottery, hex]
      rw [hg] at hclimb2
      have hcount := hshows.table2.count
      rw [hg] at hcount
      exact rewardproc_sound hclimb2 (hshows.table2.ground _) (by omega) random

theorem Deployed.empty : Deployed Tables.empty where
  storepool := rfl
  minerinfo := rfl
  miner := rfl
  maccount := rfl
  miner2 := rfl
  miner2ex := rfl
  mscore1 := rfl
  mscore2 := rfl
  mscore2ex := rfl

def enrol (m : UInt64) : List Action :=
  [.regminer m 2 3 9 4 6553600 ⟨1000000, coreSymbol⟩ false, .addmprofit m 0 5]

def sampleCrowd : List Action :=
  .regstrpool 9 1 :: enrol 7 ++ enrol 8 ++ enrol 10 ++ enrol 11 ++ [.startnewm]

/-- A pass in two calls.  Between them one of the miners that have been looked at leaves and
    comes back, and a new one takes a slot behind all others. -/
def samplePass : List Action := .onbuild 1 :: .delminer 7 0 5 :: enrol 7 ++ enrol 12 ++ [.onbuild 2]

theorem lottery_tables_shaped_sample :
    Deployed Tables.empty ∧ ∃ s, Run.Steps (AnyStep .whole) Tables.empty s ∧
      s.lottery.ex.activeCount1 = 5 ∧ s.miner2.size < 2 ^ 37 ∧
      Climbs (fun k => s.mscore1.find (s.lottery.ex.activeScope, k))
        s.lottery.ex.activeCount1 := by
  obtain ⟨s, hs, hview⟩ := Checked.exists_of_map_eq_ok
    (x := runActions .whole (.permissive 5) .empty .empty (sampleCrowd ++ samplePass))
    (f := fun s => (s.lottery.ex.activeCount1, s.miner2.size)) (b := (5, 5)) (by decide +kernel)
  obtain ⟨hcount, hsize⟩ := Prod.mk.inj hview
  have hrun : Run.Steps (AnyStep .whole) Tables.empty s := runActions_steps (fun _ _ => trivial) hs
  have hsmall : s.miner2.size < 2 ^ 37 := by rw [hsize]; decide
  exact ⟨.empty, s, hrun, hcount, hsmall, (lottery_tables_shaped .empty hrun hsmall).1⟩

/-! ## 6. Beyond the bound -/

/-- The miners `1 .. n` stand in line for the builder. -/
structure Lineup (n : ℕ) (s : Tables) : Prop where
  miner : ∀ k, 1 ≤ k.toNat → k.toNat ≤ n → s.miner.find k = some (crowdMiner k)
  slot : ∀ k, 1 ≤ k.toNat → k.toNat ≤ n → s.miner2.find k = some ⟨k, 0⟩
  head : ∃ g, s.miner2ex = some g ∧ g.maxTableCount = UInt64.ofNat n
  param : s.newmparam.isSome

def lineTickets (w : UInt64) (i : ℕ) : List Ticket :=
  (List.range i).map fun j => (UInt64.ofNat (j + 1), w)

/-- The round after the first `i` miners in line. -/
def lineRound (i : ℕ) : Round :=
  ⟨0, UInt64.ofNat (i + 1), lineTickets 66438 i, lineTickets 3 i, [], []⟩

theorem lineTickets_succ (w : UInt64) (i : ℕ) :
    lineTickets w (i + 1) = lineTickets w i ++ [(UInt64.ofNat (i + 1), w)] := by
  simp [lineTickets, List.range_succ]

theorem weight1_crowdMiner (k : UInt64) : weight1 (crowdMiner k) = 66438 := by
  have hreal : ¬ (0 < (crowdMiner k).realSpace ∧
      (crowdMiner k).realSpace < (crowdMiner k).maxSpace) :=
    fun h => absurd h.1 (UInt64.lt_irrefl 0)
  unfold weight1
  dsimp only
  rw [if_neg hreal]
  show (minMinerSpace >>> 16) * defaulMinerLevel.toUInt64 / 100 = 66438
  decide

theorem weight2_crowdMiner (k : UInt64) : weight2 (crowdMiner k) = 3 := by
  unfold weight2 crowdMiner
  dsimp only
  decide

variable {i n : ℕ}

theorem Lineup.scan (h : Lineup n s) (hi : i < n) (hn : n < 2 ^ 64) :
    (lineRound i).scan s = lineRound (i + 1) := by
  have hk : (UInt64.ofNat (i + 1)).toNat = i + 1 := toNat_ofNat_of_lt' (by rw [UInt64.size]; omega)
  have hin : entrant s (UInt64.ofNat (i + 1)) =
      some (UInt64.ofNat (i + 1), crowdMiner (UInt64.ofNat (i + 1))) := by
    refine entrant_eq_some.mpr ⟨_, h.slot _ (by omega) (by omega), rfl, ?_,
      h.miner _ (by omega) (by omega), rfl, ?_⟩
    · intro h0
      rw [h0] at hk
      simp at hk
    · show (0 : UInt64) < minMinerSpace
      decide
  simp only [Round.scan, lineRound, tickets1, tickets2, hin, weight1_crowdMiner,
    weight2_crowdMiner, lineTickets_succ]
  rw [if_pos (by decide), UInt64.ofNat_add (i + 1)]
  rfl

theorem Lineup.build (h : Lineup n s) (hi : i + 3 < n) (hn : n < 2 ^ 64) :
    (lineRound i).build s (UInt64.ofNat n) = lineRound (i + 3) := by
  have hnot : ∀ j, j < n → ¬ UInt64.ofNat n < (lineRound j).proc := by
    intro j hj
    show ¬ UInt64.ofNat n < UInt64.ofNat (j + 1)
    rw [lt_iff_toNat_lt, toNat_ofNat_of_lt' (by rw [UInt64.size]; omega),
      toNat_ofNat_of_lt' (by rw [UInt64.size]; omega)]
    omega
  rw [Round.build, if_neg (hnot i (by omega)), Round.scans, h.scan (by omega) hn,
    if_neg (hnot _ (by omega)), Round.scans, h.scan (by omega) hn, if_neg (hnot _ (by omega)),
    Round.scans, h.scan (by omega) hn, if_neg (hnot _ (by omega)), Round.scans]

theorem Lineup.call (h : Lineup n s) (hr : Runs s (lineRound i)) (hi : i + 3 < n)
    (hn : n + 1 < 2 ^ 64) :
    ∃ s', AnyStep .whole s s' ∧ Lineup n s' ∧ Runs s' (lineRound (i + 3)) := by
  obtain ⟨g, hex, hmax⟩ := h.head
  have hmaxn : g.maxTableCount.toNat = n := by
    rw [hmax]
    exact toNat_ofNat_of_lt' (by rw [UInt64.size]; omega)
  obtain ⟨s', hstep, hreg, hparam, hruns⟩ := hr.call .whole h.param hex (by omega)
  rw [hmax, h.build hi (by omega)] at hruns
  refine ⟨s', hstep, ⟨?_, ?_, ?_, hparam⟩, hruns⟩
  · rw [hreg.miner]
    exact h.miner
  · rw [hreg.miner2]
    exact h.slot
  · rw [hreg.miner2ex]
    exact h.head

theorem Lineup.calls (h : Lineup n s) (hr : Runs s (lineRound 0)) (hn : n + 1 < 2 ^ 64) (j : ℕ)
    (hj : 3 * j < n) :
    ∃ s', Run.Steps (AnyStep .whole) s s' ∧ Lineup n s' ∧ Runs s' (lineRound (3 * j)) := by
  induction j with
  | zero => exact ⟨s, .refl, h, hr⟩
  | succ _ ih =>
    obtain ⟨s', hrun, hline, hruns⟩ := ih (by omega)
    obtain ⟨s'', hstep, hline', hruns'⟩ := hline.call hruns (by omega) hn
    exact ⟨s'', hrun.tail hstep, hline', hruns'⟩

theorem height_lineTickets (w : UInt64) (n i : ℕ) (hi : i ≤ n) :
    height (lineTickets w n) i = UInt64.ofNat i * w := by
  induction i with
  | zero => simp
  | succ i ih =>
    have hget : (lineTickets w n)[i]? = some (UInt64.ofNat (i + 1), w) := by
      rw [lineTickets, List.getElem?_map, List.getElem?_range (by omega)]
      rfl
    rw [height_succ hget, ih (by omega), UInt64.ofNat_add, UInt64.add_mul]
    simp

theorem Crowd.lineup (h : Crowd n s) (hn : 1 ≤ n) (p : NewMParam) :
    Lineup n { s with newmparam := some p } := by
  refine ⟨h.miner, h.slot, ?_, rfl⟩
  obtain ⟨g, hg⟩ := Option.isSome_iff_exists.mp (h.headSet hn)
  refine ⟨g, hg, ?_⟩
  have hhead := h.head
  rw [Slots.head, Tables.slots, hg] at hhead
  exact congrArg Miner2Ex.maxTableCount hhead

theorem Crowd.runs (h : Crowd n s) (hn : n < 2 ^ 64) (p : Option NewMParam) :
    Runs { s with newmparam := p } Round.first := by
  refine .first ?_ h.mscore1 h.mscore2 (by rw [h.mscore2ex]; rfl)
  have hmax : s.slots.head.maxTableCount.toNat = n := by
    rw [h.head]
    exact toNat_ofNat_of_lt' (by rw [UInt64.size]; omega)
  show s.slots.head.maxTableCount.toNat ≤ s.miner2.size
  rw [hmax, h.size]

/-- Without a bound on the number of miners the ranges wrap around: with
    277653512654050 miners of the least size in line, one range of the buffer
    under construction is smaller than the range before it. -/
theorem ranges_wrap :
    ∃ s, Run.Steps (AnyStep .whole) Tables.empty s ∧
      ¬ Climbs (fun k => s.mscore1.find (s.lottery.ex.buildScope, k)) s.lottery.ex.buildCount1 := by
  obtain ⟨s1, hrun1, hcrowd⟩ := exists_crowd 277653512654050 (by decide)
  obtain ⟨p, hstart⟩ := hcrowd.start (by decide)
  have hline := hcrowd.lineup (by decide) p
  obtain ⟨s, hrun2, _, hruns⟩ := hline.calls (hcrowd.runs (by decide) _) (by decide) 92551170884683
    (by decide)
  refine ⟨s, (hrun1.tail hstart).trans hrun2, ?_⟩
  have htable := hruns.shows.table1
  -- the rows 277653512654046 and 277653512654047
  have hlen : (lineTickets 66438 (3 * 92551170884683)).length = 277653512654049 := by
    simp [lineTickets]
  have hrow : ∀ k : UInt64, 1 ≤ k.toNat → k.toNat ≤ 277653512654049 →
      ∃ m, s.mscore1.find (s.lottery.ex.buildScope, k) = some ⟨m, k * 66438⟩ := by
    intro k h1 h2
    obtain ⟨m, w, _, hfind⟩ := rung_row htable.building h1 (by rw [lineRound, hlen]; exact h2)
    refine ⟨m, hfind.trans ?_⟩
    rw [lineRound, height_lineTickets _ _ _ (by omega), UInt64.ofNat_toNat]
  obtain ⟨m, hm⟩ := hrow 277653512654046 (by decide) (by decide)
  obtain ⟨m', hm'⟩ := hrow 277653512654047 (by decide) (by decide)
  intro hclimbs
  have hcount : s.lottery.ex.buildCount1 = 277653512654049 := by
    apply UInt64.toNat_inj.mp
    rw [show s.lottery.ex.buildCount1.toNat = _ from htable.buildCount, lineRound, hlen]
    rfl
  have hlt : (277653512654046 : UInt64) * 66438 < 277653512654047 * 66438 :=
    hclimbs.climb 277653512654046 277653512654047 _ _ (by decide) (by decide)
      (by rw [hcount]; decide) hm hm'
  exact absurd hlt (by decide)

end YottaChain.HddPool
