/-
  **Drawing from a buffer whose ranges climb.**

  A buffer is fit for a draw when its rows `1 .. count` exist and their ranges
  climb from a positive first one (`Climbs`).  The binary search of `rewardproc1`
  and `rewardproc2` then stays among these rows, the modulus is taken by a
  positive number, and the choice after the search finds its rows too.

  The row that is drawn is the one whose share of the ranges has the residue of the
  random number.  A miner id of zero marks that nothing has been hit yet, so that this is said
  of rows that stand for miners; `regminer` refuses the id zero.
-/
import YottaChain.HddPoolLottery
import Mathlib.Order.Interval.Finset.Nat

namespace YottaChain.HddPool

open FixedWidth UInt64

/-- The rows `1 .. count` exist and their ranges climb from a positive one. -/
structure Climbs (find : UInt64 → Option MScore) (count : UInt64) : Prop where
  rows : ∀ k, 1 ≤ k → k ≤ count → ∃ row, find k = some row
  first : ∀ row, 1 ≤ count → find 1 = some row → 0 < row.range
  climb : ∀ j k rowj rowk, 1 ≤ j → j < k → k ≤ count → find j = some rowj →
    find k = some rowk → rowj.range < rowk.range

theorem one_le_iff {k : UInt64} : 1 ≤ k ↔ 1 ≤ k.toNat := by
  rw [le_iff_toNat_le, toNat_one]

variable {find : UInt64 → Option MScore} {count : UInt64}

theorem Climbs.last_pos (h : Climbs find count) (hcount : 1 ≤ count) {row : MScore}
    (hrow : find count = some row) : 0 < row.range := by
  by_cases hone : count = 1
  · rw [hone] at hrow
    exact h.first row hcount hrow
  · obtain ⟨row1, hrow1⟩ := h.rows 1 (UInt64.le_refl 1) hcount
    have hlt : 1 < count := UInt64.lt_of_le_of_ne hcount (Ne.symm hone)
    have hfirst := h.first row1 hcount hrow1
    exact UInt64.lt_trans hfirst
      (h.climb 1 count row1 row (UInt64.le_refl 1) hlt (UInt64.le_refl _) hrow1 hrow)

/-- The two bounds of the search: from 1, at most one apart the wrong way, and up
    to `count`. -/
structure Between (low high count : UInt64) : Prop where
  one_le : 1 ≤ low.toNat
  gap : low.toNat ≤ high.toNat + 1
  le_count : high.toNat ≤ count.toNat

variable {high low : UInt64}

theorem toNat_mid (h : Between low high count) (hcount : count.toNat < 2 ^ 63) :
    ((low + high) / 2).toNat = (low.toNat + high.toNat) / 2 := by
  have hgap := h.gap
  have hhigh := h.le_count
  rw [UInt64.toNat_div, toNat_add_of_lt (by omega)]
  rfl

/-- The search gives up or stops between its bounds; it never meets a missing row. -/
theorem searchLoop_cases (sel : UInt64) (hrows : ∀ k, 1 ≤ k → k ≤ count → ∃ row, find k = some row)
    (hcount : count.toNat < 2 ^ 63) (n : Nat) (low high : UInt64) (h : Between low high count) :
    searchLoop find sel n low high = .gaveUp ∨ ∃ m low' high',
      searchLoop find sel n low high = .stopped m low' high' ∧ Between low' high' count := by
  induction n generalizing low high with
  | zero => exact .inl rfl
  | succ n ih =>
    have hlow := h.one_le
    have hhigh := h.le_count
    rw [searchLoop]
    by_cases hle : low ≤ high
    · have hle' := le_iff_toNat_le.mp hle
      have hmid := toNat_mid h hcount
      obtain ⟨row, hrow⟩ := hrows ((low + high) / 2) (one_le_iff.mpr (by omega))
        (le_iff_toNat_le.mpr (by omega))
      simp only [hle, if_true, hrow]
      by_cases heq : row.range = sel
      · simp only [heq, if_true]
        exact .inr ⟨_, low, high, rfl, h⟩
      · simp only [heq, if_false]
        by_cases hlt : row.range < sel
        · -- go on above the middle
          simp only [hlt, if_true]
          have hup : ((low + high) / 2 + 1).toNat = (low.toNat + high.toNat) / 2 + 1 := by
            rw [toNat_add_of_lt (by rw [toNat_one]; omega), hmid, toNat_one]
          exact ih _ _ ⟨by omega, by omega, hhigh⟩
        · -- go on below the middle
          simp only [hlt, if_false]
          have hdown : ((low + high) / 2 - 1).toNat = (low.toNat + high.toNat) / 2 - 1 := by
            rw [toNat_sub_of_le (by rw [toNat_one]; omega), hmid, toNat_one]
          exact ih _ _ ⟨hlow, by omega, by omega⟩
    · simp only [hle, if_false]
      exact .inr ⟨0, low, high, rfl, h⟩

/-- The choice between the two bounds: the only row that may be missing is the one
    behind the last, and it is not asked for, because the last range is reached. -/
theorem pickBetween_picks {sel : UInt64} (hrows : ∀ k, 1 ≤ k → k ≤ count → ∃ row, find k = some row)
    (hcount : 1 ≤ count) {last : MScore} (hlast : find count = some last) (hsel : sel ≤ last.range)
    (h : Between low high count) : ∃ m, pickBetween find sel low high = .picked m := by
  have hlow := h.one_le
  have hgap := h.gap
  have hhigh := h.le_count
  unfold pickBetween
  by_cases hone : low = 1
  · obtain ⟨row, hrow⟩ := hrows 1 (UInt64.le_refl 1) hcount
    simp only [hone, if_true, hrow]
    by_cases hreach : sel ≤ row.range
    · simp only [hreach, if_true]
      exact ⟨_, rfl⟩
    · simp only [hreach, if_false]
      exact ⟨_, rfl⟩
  · have hlow1 : low.toNat ≠ 1 := fun h1 => hone (UInt64.toNat_inj.mp h1)
    obtain ⟨row, hrow⟩ := hrows high (one_le_iff.mpr (by omega))
      (le_iff_toNat_le.mpr hhigh)
    simp only [hone, if_false, hrow]
    by_cases hreach : sel ≤ row.range
    · simp only [hreach, if_true]
      exact ⟨_, rfl⟩
    · simp only [hreach, if_false]
      have hlt : high.toNat < count.toNat := by
        refine Nat.lt_of_le_of_ne hhigh fun heq => hreach ?_
        rw [UInt64.toNat_inj.mp heq, hlast] at hrow
        cases hrow
        exact hsel
      obtain ⟨row2, hrow2⟩ := hrows low (one_le_iff.mpr hlow)
        (le_iff_toNat_le.mpr (by omega))
      simp only [hrow2]
      exact ⟨_, rfl⟩

/-- A draw from a climbing buffer takes no modulus by zero and meets no missing row. -/
theorem rewardproc_sound (h : Climbs find count) (hground : find 0 = none)
    (hcount : count.toNat < 2 ^ 63) (random : UInt64) :
    rewardproc find count random ≠ .modZero ∧ rewardproc find count random ≠ .missingRow := by
  unfold rewardproc
  by_cases hzero : count = 0
  · simp [hzero, hground]
  · have hpos : 1 ≤ count := one_le_iff.mpr (by
      have : count.toNat ≠ 0 := fun h0 => hzero (UInt64.toNat_inj.mp h0)
      omega)
    obtain ⟨last, hlast⟩ := h.rows count hpos (UInt64.le_refl _)
    have hlastpos := h.last_pos hpos hlast
    have hsel : random % last.range + 1 ≤ last.range := by
      have hmod : (random % last.range).toNat < last.range.toNat := by
        rw [UInt64.toNat_mod]
        exact Nat.mod_lt _ (UInt64.lt_iff_toNat_lt.mp hlastpos)
      have hlt := last.range.toNat_lt
      rw [le_iff_toNat_le, toNat_add_of_lt (by rw [toNat_one]; omega), toNat_one]
      omega
    have hne : last.range ≠ 0 := UInt64.pos_iff_ne_zero.mp hlastpos
    have hstart : Between 1 count count := ⟨Nat.le_refl _, by rw [toNat_one]; omega, Nat.le_refl _⟩
    simp only [hlast, hne, if_false]
    rcases searchLoop_cases (random % last.range + 1) h.rows hcount 20 1 count hstart
      with hgave | ⟨m, low, high, hstop, hbetween⟩
    · simp [hgave]
    · simp only [hstop]
      by_cases hm : m = 0
      · obtain ⟨m', hpick⟩ := pickBetween_picks h.rows hpos hlast hsel hbetween
        simp [hm, hpick]
      · simp [hm]

/-! ## The row that is drawn -/

def rangeAt (find : UInt64 → Option MScore) (k : UInt64) : Nat :=
  (find k).elim 0 fun row => row.range.toNat

/-- The rows `1 .. count` can be drawn from: their ranges climb, there is at least one, and
    each stands for a miner; ids of miners are not zero. -/
structure Drawable (find : UInt64 → Option MScore) (count : UInt64) : Prop
    extends Climbs find count where
  nonempty : 1 ≤ count
  ground : find 0 = none
  miner : ∀ k row, find k = some row → row.minerid ≠ 0

/-- The residue `r` belongs to the row `i`. -/
def DrawsRow (find : UInt64 → Option MScore) (i : UInt64) (r : Nat) : Prop :=
  rangeAt find (i - 1) < r + 1 ∧ r + 1 ≤ rangeAt find i

instance decidableDrawsRow (find : UInt64 → Option MScore) (i : UInt64) (r : Nat) :
    Decidable (DrawsRow find i r) :=
  inferInstanceAs (Decidable (_ ∧ _))

section Draw

variable {find : UInt64 → Option MScore} {count sel low high k : UInt64} {row : MScore}

theorem rangeAt_of_find (h : find k = some row) : rangeAt find k = row.range.toNat := by
  rw [rangeAt, h]
  rfl

theorem toNat_pred (hk : 1 ≤ k.toNat) : (k - 1).toNat = k.toNat - 1 := toNat_sub_of_le hk

theorem pos_of_find (hground : find 0 = none) (hrow : find k = some row) : 1 ≤ k.toNat := by
  have hne : k.toNat ≠ 0 := fun heq => by
    rw [UInt64.toNat_inj.mp (show k.toNat = (0 : UInt64).toNat from heq), hground] at hrow
    cases hrow
  omega

variable {j : UInt64}

theorem Drawable.rangeAt_lt (h : Drawable find count) (hjk : j < k) (hk : k ≤ count) :
    rangeAt find j < rangeAt find k := by
  have hlt := lt_iff_toNat_lt.mp hjk
  obtain ⟨rowk, hrowk⟩ := h.rows k (one_le_iff.mpr (by omega)) hk
  rw [rangeAt_of_find hrowk]
  by_cases hj : j = 0
  · rw [hj, rangeAt, h.ground]
    by_cases hone : k = 1
    · exact lt_iff_toNat_lt.mp (h.first rowk h.nonempty (hone ▸ hrowk))
    · obtain ⟨row1, hrow1⟩ := h.rows 1 (UInt64.le_refl 1) h.nonempty
      have hk1 : 1 < k := lt_iff_toNat_lt.mpr (by
        have hne : k.toNat ≠ 1 := fun heq => hone (UInt64.toNat_inj.mp heq)
        show 1 < k.toNat
        omega)
      have hclimb := lt_iff_toNat_lt.mp
        (h.climb 1 k row1 rowk (UInt64.le_refl 1) hk1 hk hrow1 hrowk)
      exact Nat.zero_lt_of_lt hclimb
  · have hj1 : 1 ≤ j := one_le_iff.mpr (by
      have hne : j.toNat ≠ 0 := fun heq => hj (UInt64.toNat_inj.mp heq)
      omega)
    obtain ⟨rowj, hrowj⟩ := h.rows j hj1 (UInt64.le_trans (UInt64.le_of_lt hjk) hk)
    rw [rangeAt_of_find hrowj]
    exact lt_iff_toNat_lt.mp (h.climb j k rowj rowk hj1 hjk hk hrowj hrowk)

theorem Drawable.rangeAt_le (h : Drawable find count) (hjk : j ≤ k) (hk : k ≤ count) :
    rangeAt find j ≤ rangeAt find k := by
  by_cases heq : j = k
  · rw [heq]
  · exact Nat.le_of_lt (h.rangeAt_lt (UInt64.lt_of_le_of_ne hjk heq) hk)

/-- What the search keeps: rows below the lower bound end before the number that is sought, and
    rows above the upper bound after it. -/
structure Narrowed (find : UInt64 → Option MScore) (count sel low high : UInt64) : Prop
    extends Between low high count where
  below : ∀ k, k.toNat < low.toNat → rangeAt find k < sel.toNat
  above : ∀ k, high.toNat < k.toNat → k.toNat ≤ count.toNat → sel.toNat < rangeAt find k

structure HoldsTicket (find : UInt64 → Option MScore) (count sel i : UInt64) : Prop where
  one_le : 1 ≤ i.toNat
  le_count : i.toNat ≤ count.toNat
  below : rangeAt find (i - 1) < sel.toNat
  reach : sel.toNat ≤ rangeAt find i

/-- A probe without an exact hit narrows the search.  The middle may have wrapped around; it is
    then below the lower bound, and the search goes on above it. -/
theorem Narrowed.probe (h : Drawable find count) (hn : Narrowed find count sel low high)
    {mid : UInt64} (hmid : mid.toNat ≤ high.toNat) (hlt64 : mid.toNat < 2 ^ 63)
    (hrow : find mid = some row) (hne : row.range ≠ sel) :
    (row.range < sel → Narrowed find count sel (mid + 1) high) ∧
      (¬ row.range < sel → low.toNat ≤ mid.toNat ∧ Narrowed find count sel low (mid - 1)) := by
  have hhigh := hn.le_count
  have hpos := pos_of_find h.ground hrow
  have hrange := rangeAt_of_find hrow
  have hup : (mid + 1).toNat = mid.toNat + 1 := toNat_add_of_lt (by
    show mid.toNat + 1 < 2 ^ 64
    omega)
  have hdown := toNat_pred hpos
  constructor
  · intro hlt
    have hlt' := lt_iff_toNat_lt.mp hlt
    refine ⟨⟨by omega, by omega, hhigh⟩, ?_, hn.above⟩
    intro k hk
    have hle := h.rangeAt_le (le_iff_toNat_le.mpr (show k.toNat ≤ mid.toNat by omega))
      (le_iff_toNat_le.mpr (show mid.toNat ≤ count.toNat by omega))
    omega
  · intro hlt
    have hge : sel.toNat < row.range.toNat := by
      have hne' : row.range.toNat ≠ sel.toNat := fun heq => hne (UInt64.toNat_inj.mp heq)
      rw [UInt64.lt_iff_toNat_lt] at hlt
      omega
    have hlow : low.toNat ≤ mid.toNat := by
      by_contra hmidlow
      have hbelow := hn.below mid (by omega)
      omega
    refine ⟨hlow, ⟨hn.one_le, by omega, by omega⟩, hn.below, ?_⟩
    intro k hk hkc
    have hle := h.rangeAt_le (le_iff_toNat_le.mpr (show mid.toNat ≤ k.toNat by omega))
      (le_iff_toNat_le.mpr hkc)
    omega

/-- The middle is between the bounds, or has wrapped around. -/
theorem Between.middle (h : Between low high count) (hle : low ≤ high) :
    ((low + high) / 2).toNat ≤ high.toNat ∧ ((low + high) / 2).toNat < 2 ^ 63 ∧
      (count.toNat < 2 ^ 63 → ((low + high) / 2).toNat = (low.toNat + high.toNat) / 2) := by
  have hle' := le_iff_toNat_le.mp hle
  have hlt := toNat_lt high
  refine ⟨?_, ?_, toNat_mid h⟩
  · rw [UInt64.toNat_div, UInt64.toNat_add]
    show (low.toNat + high.toNat) % 2 ^ 64 / 2 ≤ _
    omega
  · rw [UInt64.toNat_div, UInt64.toNat_add]
    show (low.toNat + high.toNat) % 2 ^ 64 / 2 < _
    omega

/-- What the search comes to, if it gives up only under the condition `gives`: the row that holds
    the number, or bounds that have met around it. -/
def Search.Fits (find : UInt64 → Option MScore) (count sel : UInt64) (gives : Prop) :
    Search → Prop
  | .missingRow => 2 ^ 63 ≤ count.toNat
  | .gaveUp => gives
  | .stopped m low high =>
      (∃ i row, HoldsTicket find count sel i ∧ find i = some row ∧ m = row.minerid) ∨
        m = 0 ∧ Narrowed find count sel low high ∧ high.toNat < low.toNat

theorem Search.Fits.mono {gives gives' : Prop} {r : Search} (h : gives → gives')
    (hr : r.Fits find count sel gives) : r.Fits find count sel gives' := by
  cases r with
  | missingRow => exact hr
  | gaveUp => exact h hr
  | stopped => exact hr

/-- The rows that are left after a probe: at most half, unless the middle has wrapped around. -/
theorem halved {n size left : Nat} (hsize : 1 ≤ size)
    (hhalf : count.toNat < 2 ^ 63 → 2 * left ≤ size)
    (h : 2 ^ 63 ≤ count.toNat ∨ n = 0 ∨ 2 ^ n ≤ 2 * left) :
    2 ^ 63 ≤ count.toNat ∨ n + 1 = 0 ∨ 2 ^ (n + 1) ≤ 2 * size := by
  rcases Nat.lt_or_ge count.toNat (2 ^ 63) with hsmall | hbig
  · refine .inr (.inr ?_)
    have hleft := hhalf hsmall
    rcases h with hbig | rfl | hpow
    · exact absurd hbig (Nat.not_le_of_lt hsmall)
    · exact Nat.mul_le_mul_left 2 hsize
    · rw [Nat.pow_succ, Nat.mul_comm]
      exact Nat.mul_le_mul_left 2 (Nat.le_trans hpow hleft)
  · exact .inl hbig

/-- The search gives up only when there are too many rows for its number of probes, or when the
    sum of its bounds wraps around. -/
theorem searchLoop_fits (h : Drawable find count) (n : Nat)
    (hn : Narrowed find count sel low high) :
    (searchLoop find sel n low high).Fits find count sel
      (2 ^ 63 ≤ count.toNat ∨ n = 0 ∨ 2 ^ n ≤ 2 * (high.toNat + 1 - low.toNat)) := by
  induction n generalizing low high with
  | zero => exact .inr (.inl rfl)
  | succ n ih =>
    rw [searchLoop]
    by_cases hle : low ≤ high
    · obtain ⟨hmid, hlt63, hexact⟩ := hn.middle hle
      have hle' := le_iff_toNat_le.mp hle
      have hone := hn.one_le
      have hhigh := hn.le_count
      simp only [hle, if_true]
      generalize (low + high) / 2 = mid at hmid hlt63 hexact ⊢
      cases hrow : find mid with
      | none =>
        -- a row is missing only where the middle has wrapped around
        by_contra hsmall
        have hsmall' : count.toNat < 2 ^ 63 := Nat.lt_of_not_le hsmall
        have hmid' := hexact hsmall'
        obtain ⟨row, hfound⟩ := h.rows mid (one_le_iff.mpr (by omega))
          (le_iff_toNat_le.mpr (by omega))
        rw [hrow] at hfound
        cases hfound
      | some row =>
        have hpos := pos_of_find h.ground hrow
        by_cases heq : row.range = sel
        · simp only [heq, if_true]
          refine .inl ⟨mid, row, ⟨hpos, by omega, ?_, ?_⟩, hrow, rfl⟩
          · rw [← heq, ← rangeAt_of_find hrow]
            refine h.rangeAt_lt (lt_iff_toNat_lt.mpr ?_) (le_iff_toNat_le.mpr ?_)
            · rw [toNat_pred hpos]
              omega
            · omega
          · rw [← heq, rangeAt_of_find hrow]
        · simp only [heq, if_false]
          obtain ⟨hup, hdown⟩ := hn.probe h hmid hlt63 hrow heq
          by_cases hlt : row.range < sel
          · simp only [hlt, if_true]
            have hmid1 : (mid + 1).toNat = mid.toNat + 1 := toNat_add_of_lt (by
              show mid.toNat + 1 < 2 ^ 64
              omega)
            refine (ih (hup hlt)).mono (halved (by omega) ?_)
            intro hsmall
            have hmid' := hexact hsmall
            omega
          · simp only [hlt, if_false]
            obtain ⟨_, hn'⟩ := hdown hlt
            have hmid1 := toNat_pred hpos
            refine (ih hn').mono (halved (by omega) ?_)
            intro hsmall
            have hmid' := hexact hsmall
            omega
    · simp only [hle, if_false]
      rw [le_iff_toNat_le] at hle
      exact .inr ⟨rfl, hn, by omega⟩

/-- When the bounds have met, the row at the lower bound holds the number. -/
theorem pickBetween_holdsTicket (h : Drawable find count) (hreach : sel.toNat ≤ rangeAt find count)
    (hn : Narrowed find count sel low high) (hmet : high.toNat < low.toNat) :
    ∃ row, HoldsTicket find count sel low ∧ find low = some row ∧
      pickBetween find sel low high = .picked row.minerid := by
  have hone := hn.one_le
  have hgap := hn.gap
  have hlow : low.toNat ≤ count.toNat := by
    by_contra hover
    have hbelow := hn.below count (by omega)
    omega
  have habove := hn.above low hmet hlow
  obtain ⟨row, hrow⟩ := h.rows low (one_le_iff.mpr hone) (le_iff_toNat_le.mpr hlow)
  have hrange := rangeAt_of_find hrow
  refine ⟨row, ⟨hone, hlow, hn.below _ ?_, by omega⟩, hrow, ?_⟩
  · rw [toNat_pred hone]
    omega
  · unfold pickBetween
    by_cases hfirst : low = 1
    · rw [hfirst] at hrow
      simp only [hfirst, if_true, hrow]
      rw [if_pos (le_iff_toNat_le.mpr (by omega))]
    · have hlow1 : low.toNat ≠ 1 := fun h1 => hfirst (UInt64.toNat_inj.mp h1)
      obtain ⟨row', hrow'⟩ := h.rows high (one_le_iff.mpr (by omega))
        (le_iff_toNat_le.mpr (by omega))
      have hbelow := hn.below high hmet
      rw [rangeAt_of_find hrow'] at hbelow
      simp only [hfirst, if_false, hrow', hrow]
      rw [if_neg]
      rw [le_iff_toNat_le]
      omega

def Draw.Nobody : Draw → Prop
  | .picked minerid => minerid = 0
  | _ => True

theorem exists_holdsTicket (h : Drawable find count) (hpos : 1 ≤ sel.toNat)
    (hreach : sel.toNat ≤ rangeAt find count) : ∃ i, HoldsTicket find count sel i := by
  classical
  have hex : ∃ n, ∃ k : UInt64, k.toNat = n ∧ sel.toNat ≤ rangeAt find k :=
    ⟨count.toNat, count, rfl, hreach⟩
  obtain ⟨i, hi, hsel⟩ := Nat.find_spec hex
  have hmin : ∀ k : UInt64, k.toNat < i.toNat → rangeAt find k < sel.toNat := fun k hk =>
    Nat.lt_of_not_le fun hle => Nat.find_min hex (hi ▸ hk) ⟨k, rfl, hle⟩
  have hone : 1 ≤ i.toNat := by
    have hne : i.toNat ≠ 0 := fun heq => by
      rw [UInt64.toNat_inj.mp (show i.toNat = (0 : UInt64).toNat from heq), rangeAt, h.ground] at hsel
      exact absurd hsel (Nat.not_le_of_lt hpos)
    omega
  have hle : i.toNat ≤ count.toNat := by
    rw [hi]
    exact Nat.find_min' hex ⟨count, rfl, hreach⟩
  refine ⟨i, hone, hle, hmin _ ?_, hsel⟩
  rw [toNat_pred hone]
  omega

theorem HoldsTicket.unique (h : Drawable find count) {i : UInt64} (hi : HoldsTicket find count sel i)
    (hj : HoldsTicket find count sel j) : i = j := by
  have hbefore : ∀ {x y : UInt64}, HoldsTicket find count sel x → HoldsTicket find count sel y →
      ¬ x.toNat < y.toNat := by
    intro x y hx hy hlt
    have hle := h.rangeAt_le (j := x) (k := y - 1)
      (le_iff_toNat_le.mpr (by rw [toNat_pred hy.one_le]; omega))
      (le_iff_toNat_le.mpr (by rw [toNat_pred hy.one_le]; have := hy.le_count; omega))
    have hreach := hx.reach
    have hbelow := hy.below
    omega
  refine UInt64.toNat_inj.mp ?_
  have hij := hbefore hi hj
  have hji := hbefore hj hi
  omega

/-- A draw takes the row that holds the number, or nobody if there are too many rows. -/
theorem rewardproc_holdsTicket (h : Drawable find count) {last : MScore} (hlast : find count = some last)
    (random : UInt64) :
    (random % last.range + 1).toNat = random.toNat % last.range.toNat + 1 ∧
      ∃ i row, HoldsTicket find count (random % last.range + 1) i ∧ find i = some row ∧
        (rewardproc find count random = .picked row.minerid ∨
          2 ^ 19 ≤ count.toNat ∧ (rewardproc find count random).Nobody) := by
  have hpos := h.last_pos h.nonempty hlast
  have hmod : random.toNat % last.range.toNat < last.range.toNat :=
    Nat.mod_lt _ (lt_iff_toNat_lt.mp hpos)
  have hlt := last.range.toNat_lt
  have hsel : (random % last.range + 1).toNat = random.toNat % last.range.toNat + 1 := by
    rw [toNat_add_of_lt, UInt64.toNat_mod, UInt64.toNat_one]
    rw [UInt64.toNat_mod, UInt64.toNat_one]
    omega
  refine ⟨hsel, ?_⟩
  have hreach : (random % last.range + 1).toNat ≤ rangeAt find count := by
    rw [rangeAt_of_find hlast]
    omega
  have hne : last.range ≠ 0 := UInt64.pos_iff_ne_zero.mp hpos
  have hproc : rewardproc find count random =
      match searchLoop find (random % last.range + 1) 20 1 count with
      | .missingRow => .missingRow
      | .gaveUp => .gaveUp
      | .stopped selMinerid low high => if selMinerid ≠ 0 then .picked selMinerid
          else pickBetween find (random % last.range + 1) low high := by
    rw [rewardproc, hlast]
    exact if_neg hne
  generalize random % last.range + 1 = sel at hsel hreach hproc ⊢
  have hstart : Narrowed find count sel 1 count := by
    refine ⟨⟨Nat.le_refl _, ?_, Nat.le_refl _⟩, ?_, ?_⟩
    · rw [toNat_one]
      omega
    · intro k hk
      have hzero : k.toNat = 0 := by
        rw [toNat_one] at hk
        omega
      rw [UInt64.toNat_inj.mp (show k.toNat = (0 : UInt64).toNat from hzero), rangeAt, h.ground]
      show 0 < _
      omega
    · intro k hk hkc
      omega
  have hfits := searchLoop_fits h 20 hstart
  have hexists := exists_holdsTicket h (by omega) hreach
  rw [hproc]
  cases hloop : searchLoop find sel 20 1 count with
  | missingRow =>
    rw [hloop] at hfits
    obtain ⟨i, hi⟩ := hexists
    obtain ⟨row, hrow⟩ := h.rows i (one_le_iff.mpr hi.one_le)
      (le_iff_toNat_le.mpr hi.le_count)
    exact ⟨i, row, hi, hrow, .inr ⟨Nat.le_trans (by decide) hfits, trivial⟩⟩
  | gaveUp =>
    rw [hloop] at hfits
    obtain ⟨i, hi⟩ := hexists
    obtain ⟨row, hrow⟩ := h.rows i (one_le_iff.mpr hi.one_le)
      (le_iff_toNat_le.mpr hi.le_count)
    refine ⟨i, row, hi, hrow, .inr ⟨?_, trivial⟩⟩
    rcases hfits with hbig | hzero | hpow
    · exact Nat.le_trans (by decide) hbig
    · cases hzero
    · rw [toNat_one] at hpow
      omega
  | stopped m low high =>
    rw [hloop] at hfits
    rcases hfits with ⟨i, row, hi, hrow, rfl⟩ | ⟨rfl, hn, hmet⟩
    · refine ⟨i, row, hi, hrow, .inl ?_⟩
      exact if_pos (h.miner i row hrow)
    · obtain ⟨row, hi, hrow, hpick⟩ := pickBetween_holdsTicket h hreach hn hmet
      exact ⟨low, row, hi, hrow, .inl hpick⟩

/-- Every draw takes the row of its residue, or nobody if there are `2 ^ 19` rows or more, and a row
    has as many residues as its range is above the one before. -/
structure Proportional (find : UInt64 → Option MScore) (count : UInt64) (draw : UInt64 → Draw) :
    Prop where
  draws : ∀ random : UInt64, ∃ i row, 1 ≤ i ∧ i ≤ count ∧ find i = some row ∧
    (∀ j, 1 ≤ j → j ≤ count → (DrawsRow find j (random.toNat % rangeAt find count) ↔ j = i)) ∧
    (draw random = .picked row.minerid ∨ 2 ^ 19 ≤ count.toNat ∧ (draw random).Nobody)
  share : ∀ i, 1 ≤ i → i ≤ count →
    ((Finset.range (rangeAt find count)).filter (DrawsRow find i)).card =
      rangeAt find i - rangeAt find (i - 1)

theorem Drawable.proportional (h : Drawable find count) :
    Proportional find count (rewardproc find count) := by
  obtain ⟨last, hlast⟩ := h.rows count h.nonempty (UInt64.le_refl _)
  constructor
  case draws =>
    intro random
    obtain ⟨hsel, i, row, hi, hrow, hdraw⟩ := rewardproc_holdsTicket h hlast random
    refine ⟨i, row, one_le_iff.mpr hi.one_le, le_iff_toNat_le.mpr hi.le_count, hrow, ?_, hdraw⟩
    intro j hj hjc
    rw [rangeAt_of_find hlast, DrawsRow, ← hsel]
    constructor
    · intro hdraws
      exact HoldsTicket.unique h
        ⟨one_le_iff.mp hj, le_iff_toNat_le.mp hjc, hdraws.1, hdraws.2⟩ hi
    · rintro rfl
      exact ⟨hi.below, hi.reach⟩
  case share =>
    intro i hi hic
    have hle := h.rangeAt_le hic (UInt64.le_refl _)
    have hset : (Finset.range (rangeAt find count)).filter (DrawsRow find i) =
        Finset.Ico (rangeAt find (i - 1)) (rangeAt find i) := by
      ext r
      rw [Finset.mem_filter, Finset.mem_range, Finset.mem_Ico, DrawsRow]
      omega
    rw [hset, Nat.card_Ico]

end Draw

/-- The rows that `rewardproc1` and `rewardproc2` see. -/
def rows1 (s : Tables) (g : MScore2Ex) (k : UInt64) : Option MScore :=
  s.mscore1.find (g.activeScope, k)

def rows2 (s : Tables) (g : MScore2Ex) (k : UInt64) : Option MScore :=
  s.mscore2.find (g.activeScope, k)

/-- The lottery picks in proportion to the weights, from every buffer whose ranges climb and whose
    rows stand for miners. -/
theorem lottery_proportional_to_weight {s : Tables} {g : MScore2Ex} (hg : s.mscore2ex = some g) :
    (Drawable (rows1 s g) g.activeCount1 →
      Proportional (rows1 s g) g.activeCount1 (rewardproc1 s)) ∧
    (Drawable (rows2 s g) g.activeCount2 →
      Proportional (rows2 s g) g.activeCount2 (rewardproc2 s)) := by
  constructor
  · intro h
    have hproc : rewardproc1 s = rewardproc (rows1 s g) g.activeCount1 := by
      funext random
      rw [rewardproc1, hg]
      rfl
    rw [hproc]
    exact h.proportional
  · intro h
    have hproc : rewardproc2 s = rewardproc (rows2 s g) g.activeCount2 := by
      funext random
      rw [rewardproc2, hg]
      rfl
    rw [hproc]
    exact h.proportional

/-- A buffer with the three rows `1 .. 3`, in steps of one. -/
def sampleBuffer (first second third : UInt64) : Tables :=
  { Tables.empty with
    mscore1 := ((Table.put ∅ (.scopea, 1) ⟨first, 1⟩).put (.scopea, 2) ⟨second, 2⟩).put
      (.scopea, 3) ⟨third, 3⟩
    mscore2ex := some { mscore1S0Count := 3 } }

theorem rows1_sampleBuffer (first second third k : UInt64) :
    rows1 (sampleBuffer first second third) { mscore1S0Count := 3 } k =
      if k = 3 then some ⟨third, 3⟩ else if k = 2 then some ⟨second, 2⟩
      else if k = 1 then some ⟨first, 1⟩ else none := by
  show (sampleBuffer first second third).mscore1.find (Scope.scopea, k) = _
  simp only [sampleBuffer, Table.find_put, Prod.mk.injEq, true_and, Table.find_empty]

theorem drawable_sampleBuffer :
    Drawable (rows1 (sampleBuffer 5 6 7) { mscore1S0Count := 3 }) 3 := by
  have hcases : ∀ k row, rows1 (sampleBuffer 5 6 7) { mscore1S0Count := 3 } k = some row →
      row.range = k ∧ row.minerid ≠ 0 ∧ 1 ≤ k := by
    intro k row hrow
    rw [rows1_sampleBuffer] at hrow
    split at hrow
    · rename_i hk
      cases hrow
      subst hk
      decide
    · split at hrow
      · rename_i hk
        cases hrow
        subst hk
        decide
      · split at hrow
        · rename_i hk
          cases hrow
          subst hk
          decide
        · cases hrow
  constructor
  case nonempty => decide
  case ground => exact rows1_sampleBuffer 5 6 7 0
  case miner =>
    intro k row hrow
    exact (hcases k row hrow).2.1
  case toClimbs =>
    constructor
    case rows =>
      intro k hk hk3
      rw [one_le_iff] at hk
      have hle : k.toNat ≤ 3 := le_iff_toNat_le.mp hk3
      rw [rows1_sampleBuffer]
      split
      · exact ⟨_, rfl⟩
      · rename_i h3
        split
        · exact ⟨_, rfl⟩
        · rename_i h2
          have hne3 : k.toNat ≠ 3 := fun heq => h3 (UInt64.toNat_inj.mp heq)
          have hne2 : k.toNat ≠ 2 := fun heq => h2 (UInt64.toNat_inj.mp heq)
          rw [if_pos (UInt64.toNat_inj.mp (show k.toNat = (1 : UInt64).toNat by
            rw [UInt64.toNat_one]
            omega))]
          exact ⟨_, rfl⟩
    case first =>
      intro row _ hrow
      rw [(hcases 1 row hrow).1]
      decide
    case climb =>
      intro j k rowj rowk _ hjk _ hrowj hrowk
      rw [(hcases j rowj hrowj).1, (hcases k rowk hrowk).1]
      exact hjk

theorem lottery_proportional_to_weight_sample :
    Proportional (rows1 (sampleBuffer 5 6 7) { mscore1S0Count := 3 }) 3
      (rewardproc1 (sampleBuffer 5 6 7)) :=
  (lottery_proportional_to_weight (s := sampleBuffer 5 6 7) rfl).1 drawable_sampleBuffer

/-- An exact hit on a row with the miner id 0 is taken for no hit, and the row before is picked. -/
theorem zero_miner_draws_another_row :
    let s := sampleBuffer 5 0 7
    let g : MScore2Ex := { mscore1S0Count := 3 }
    s.mscore2ex = some g ∧ rows1 s g 0 = none ∧ rows1 s g 1 = some ⟨5, 1⟩ ∧
      rows1 s g 2 = some ⟨0, 2⟩ ∧ rows1 s g 3 = some ⟨7, 3⟩ ∧ g.activeCount1 = 3 ∧
      DrawsRow (rows1 s g) 2 (1 % rangeAt (rows1 s g) 3) ∧ rewardproc1 s 1 = .picked 5 := by
  refine ⟨rfl, rfl, rfl, rfl, rfl, rfl, ?_, ?_⟩
  · decide +kernel
  · decide +kernel

end YottaChain.HddPool
