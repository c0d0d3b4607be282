/-
  **The arithmetic of the usage accumulators** (`resource_limits_private.hpp`).

  An accumulator holds an average times the precision.  A new period lets it decay, rounding
  down, and a contribution is added to it, rounded up.  The functions of the code are
  described here by equations between natural numbers with the conditions under which they
  do not throw; nothing below unfolds them again.
-/
import Mathlib.Tactic.Ring
import YottaChain.ResourceLimits

namespace YottaChain.Resources

open Checked

/-! ## 1. Rounding -/

variable {den : Nat}

theorem integerDivideCeil_mul_le (num : Nat) (hden : 0 < den) :
    integerDivideCeil num den * den ≤ num + (den - 1) := by
  have hsplit := Nat.div_add_mod num den
  rw [Nat.mul_comm] at hsplit
  unfold integerDivideCeil
  rw [Nat.add_mul]
  split
  · omega
  · omega

theorem add_div_le_integerDivideCeil (num : Nat) {k : Nat} (hk : k < den) :
    (num + k) / den ≤ integerDivideCeil num den := by
  have hden : 0 < den := Nat.lt_of_le_of_lt (Nat.zero_le k) hk
  have hsplit := Nat.div_add_mod num den
  have hmod := Nat.mod_lt num hden
  apply Nat.le_of_lt_succ
  rw [Nat.div_lt_iff_lt_mul hden]
  unfold integerDivideCeil
  split
  · calc num + k < (num / den + 2) * den := by
          rw [Nat.add_mul, Nat.mul_comm (num / den)]
          omega
      _ = _ := by rw [Nat.succ_eq_add_one, Nat.add_assoc]
  · calc num + k < (num / den + 1) * den := by
          rw [Nat.add_mul, Nat.mul_comm (num / den)]
          omega
      _ = _ := by rw [Nat.succ_eq_add_one, Nat.add_zero]

theorem integerDivideCeil_le (num : Nat) (hden : 0 < den) :
    integerDivideCeil num den ≤ (num + (den - 1)) / den :=
  (Nat.le_div_iff_mul_le hden).mpr (integerDivideCeil_mul_le num hden)

/-- **The three roundings.**  What has been used is rounded up in a report and down in a check;
    the check after a contribution that was rounded up stays within the report and the amount,
    because the window is not longer than the precision. -/
theorem used_after_le (v c : Nat) {w p : Nat} (hw : 0 < w) (hwp : w ≤ p) :
    (v + integerDivideCeil (c * p) w) * w / p ≤ integerDivideCeil (v * w) p + c := by
  have hp : 0 < p := Nat.lt_of_lt_of_le hw hwp
  have hcontrib := integerDivideCeil_mul_le (c * p) hw
  calc (v + integerDivideCeil (c * p) w) * w / p
      ≤ (v * w + (w - 1) + c * p) / p := by
        apply Nat.div_le_div_right
        rw [Nat.add_mul]
        omega
    _ = (v * w + (w - 1)) / p + c := Nat.add_mul_div_right _ _ hp
    _ ≤ integerDivideCeil (v * w) p + c := by
        apply Nat.add_le_add_right
        exact add_div_le_integerDivideCeil (v * w) (Nat.lt_of_lt_of_le (Nat.sub_one_lt_of_lt hw) hwp)

/-! ## 2. Machine integers -/

theorem toNat_le_uint64Max (a : UInt64) : a.toNat ≤ uint64Max := Nat.le_of_lt_succ a.toNat_lt

theorem toNat_ofNat_of_le {n : Nat} (h : n ≤ uint64Max) : (UInt64.ofNat n).toNat = n :=
  UInt64.toNat_ofNat_of_lt' (Nat.lt_succ_of_le h)

theorem Ratio.of_eq_ok {r : Ratio} {value result : UInt64} :
    r.of value = .ok result ↔ value.toNat * r.numerator.toNat ≤ uint64Max ∧
      result.toNat = value.toNat * r.numerator.toNat / r.denominator.toNat := by
  have hguard : (r.numerator = 0 ∨ uint64Max / r.numerator.toNat ≥ value.toNat) ↔
      value.toNat * r.numerator.toNat ≤ uint64Max := by
    by_cases hzero : r.numerator = 0
    · simp [hzero]
    · have hpos : 0 < r.numerator.toNat := by
        rw [Nat.pos_iff_ne_zero]
        exact fun h => hzero (UInt64.toNat_inj.mp h)
      rw [or_iff_right hzero]
      exact Nat.le_div_iff_mul_le hpos
  simp only [Ratio.of, ok_iff, hguard]
  refine and_congr_right fun hle => ?_
  have hlt : value.toNat * r.numerator.toNat < 2 ^ 64 := Nat.lt_succ_of_le hle
  rw [← UInt64.toNat_inj, UInt64.toNat_div, UInt64.toNat_mul, Nat.mod_eq_of_lt hlt]
  exact eq_comm

/-! ## 3. Accumulators -/

namespace Accumulator

variable {a a' : Accumulator} {units : UInt64} {ordinal windowSize : UInt32}

theorem toNat_average (a : Accumulator) :
    a.average.toNat = integerDivideCeil a.valueEx.toNat rateLimitingPrecision := by
  apply toNat_ofNat_of_le
  refine (integerDivideCeil_le _ (by decide)).trans ?_
  have hvalue := toNat_le_uint64Max a.valueEx
  unfold rateLimitingPrecision uint64Max at *
  omega

/-- The value left after `periods` of a window. -/
def decayed (value window periods : Nat) : Nat := value * (window - periods) / window

theorem decayed_le (value window periods : Nat) : decayed value window periods ≤ value := by
  unfold decayed
  refine Nat.div_le_of_le_mul ?_
  rw [Nat.mul_comm window]
  exact Nat.mul_le_mul_left value (Nat.sub_le window periods)

/-- A new period: the value decays, to nothing when the window has passed. -/
theorem decay_eq_ok :
    a.decay ordinal windowSize = .ok a' ↔ a.lastOrdinal < ordinal ∧
      a.valueEx.toNat * (windowSize.toNat - (ordinal.toNat - a.lastOrdinal.toNat)) ≤ uint64Max ∧
      a'.lastOrdinal = ordinal ∧
      a'.valueEx.toNat = decayed a.valueEx.toNat windowSize.toNat
        (ordinal.toNat - a.lastOrdinal.toNat) ∧
      a'.consumed = a'.average := by
  have hresult : ∀ value : UInt64,
      ({ (⟨ordinal, value, a.consumed⟩ : Accumulator) with
        consumed := (⟨ordinal, value, a.consumed⟩ : Accumulator).average } = a' ↔
      a'.lastOrdinal = ordinal ∧ a'.valueEx = value ∧ a'.consumed = a'.average) := by
    intro value
    constructor
    · rintro rfl
      exact ⟨rfl, rfl, rfl⟩
    · rintro ⟨rfl, rfl, hconsumed⟩
      cases a'
      simp only [mk.injEq, true_and]
      exact hconsumed.symm
  simp only [decay, ok_iff, hresult]
  refine and_congr_right fun hlater => ?_
  have hlt : a.lastOrdinal.toNat < ordinal.toNat := UInt32.lt_iff_toNat_lt.mp hlater
  split_ifs with hwithin
  · have hdelta : (ordinal - a.lastOrdinal).toNat = ordinal.toNat - a.lastOrdinal.toNat :=
      UInt32.toNat_sub_of_le _ _ (UInt32.le_iff_toNat_le.mpr (Nat.le_of_lt hlt))
    have hnumerator : (windowSize.toUInt64 - (ordinal - a.lastOrdinal).toUInt64).toNat =
        windowSize.toNat - (ordinal.toNat - a.lastOrdinal.toNat) := by
      rw [FixedWidth.toNat_sub_of_le]
      · simp only [UInt32.toNat_toUInt64, hdelta]
      · simp only [UInt32.toNat_toUInt64, hdelta]
        omega
    simp only [Ratio.of_eq_ok, hnumerator, UInt32.toNat_toUInt64]
    constructor
    · rintro ⟨value, ⟨hle, hvalue⟩, hordinal, rfl, hconsumed⟩
      exact ⟨hle, hordinal, hvalue, hconsumed⟩
    · rintro ⟨hle, hordinal, hvalue, hconsumed⟩
      exact ⟨a'.valueEx, ⟨hle, hvalue⟩, hordinal, rfl, hconsumed⟩
  · have hzero : windowSize.toNat - (ordinal.toNat - a.lastOrdinal.toNat) = 0 := by omega
    simp only [pure_eq_ok, decayed, hzero, Nat.mul_zero, Nat.zero_div, Nat.zero_le, true_and]
    constructor
    · rintro ⟨_, rfl, hordinal, hvalue, hconsumed⟩
      refine ⟨hordinal, ?_, hconsumed⟩
      rw [hvalue]
      rfl
    · rintro ⟨hordinal, hvalue, hconsumed⟩
      exact ⟨0, rfl, hordinal, UInt64.toNat_inj.mp hvalue, hconsumed⟩

def contrib (units : UInt64) (windowSize : UInt32) : Nat :=
  integerDivideCeil (units.toNat * rateLimitingPrecision) windowSize.toNat

inductive Entered (a : Accumulator) (ordinal windowSize : UInt32) : Accumulator → Prop where
  | same : a.lastOrdinal = ordinal → Entered a ordinal windowSize a
  | later {b : Accumulator} : a.lastOrdinal ≠ ordinal → a.decay ordinal windowSize = .ok b →
      Entered a ordinal windowSize b

variable {b : Accumulator}

theorem Entered.lastOrdinal (h : Entered a ordinal windowSize b) : b.lastOrdinal = ordinal := by
  cases h with
  | same heq => exact heq
  | later _ hdecay =>
    obtain ⟨_, _, hordinal, _, _⟩ := decay_eq_ok.mp hdecay
    exact hordinal

theorem Entered.valueEx_le (h : Entered a ordinal windowSize b) :
    b.valueEx.toNat ≤ a.valueEx.toNat := by
  cases h with
  | same _ => exact Nat.le_refl _
  | later _ hdecay =>
    obtain ⟨_, _, _, hvalue, _⟩ := decay_eq_ok.mp hdecay
    rw [hvalue]
    exact decayed_le _ _ _

theorem entered_iff :
    (if a.lastOrdinal ≠ ordinal then a.decay ordinal windowSize else pure a :
      Checked Accumulator) = .ok b ↔ Entered a ordinal windowSize b := by
  split
  · rename_i hne
    refine ⟨.later hne, fun h => ?_⟩
    cases h with
    | same heq => exact absurd heq hne
    | later _ hdecay => exact hdecay
  · rename_i heq
    rw [pure_eq_ok]
    refine ⟨fun h => h ▸ .same (not_not.mp heq), fun h => ?_⟩
    cases h with
    | same => rfl
    | later hne => exact absurd hne heq

theorem add_eq_ok :
    a.add units ordinal windowSize = .ok a' ↔
      units.toNat ≤ uint64Max / rateLimitingPrecision ∧
      a.consumed.toNat + units.toNat ≤ uint64Max ∧
      a.valueEx.toNat + contrib units windowSize ≤ uint64Max ∧
      ∃ b, Entered a ordinal windowSize b ∧ a'.lastOrdinal = ordinal ∧
        a'.consumed = b.consumed + units ∧
        a'.valueEx.toNat = b.valueEx.toNat + contrib units windowSize := by
  simp only [add, ok_iff, entered_iff]
  rw [← contrib]
  generalize contrib units windowSize = c
  have hconsumed := toNat_le_uint64Max a.consumed
  have hvalue := toNat_le_uint64Max a.valueEx
  refine and_congr_right fun _ => and_congr (by omega) ?_
  have hsum : (c ≤ uint64Max ∧ uint64Max - a.valueEx.toNat ≥ c) ↔
      a.valueEx.toNat + c ≤ uint64Max := by
    omega
  rw [← and_assoc, hsum]
  refine and_congr_right fun hle => exists_congr fun b => and_congr_right fun hb => ?_
  have hdecayed := hb.valueEx_le
  have hadd : (b.valueEx + UInt64.ofNat c).toNat = b.valueEx.toNat + c := by
    have hc : (UInt64.ofNat c).toNat = c := toNat_ofNat_of_le (by omega)
    rw [FixedWidth.toNat_add_of_lt, hc]
    rw [hc]
    exact Nat.lt_succ_of_le ((Nat.add_le_add_right hdecayed c).trans hle)
  constructor
  · rintro rfl
    exact ⟨hb.lastOrdinal, rfl, hadd⟩
  · rintro ⟨hordinal, hconsumed', hvalue'⟩
    cases a'
    simp only [mk.injEq]
    exact ⟨hb.lastOrdinal.trans hordinal.symm, UInt64.toNat_inj.mp (hadd.trans hvalue'.symm),
      hconsumed'.symm⟩

theorem add_lastOrdinal (h : a.add units ordinal windowSize = .ok a') :
    a'.lastOrdinal = ordinal := by
  obtain ⟨_, _, _, b, _, hordinal, _⟩ := add_eq_ok.mp h
  exact hordinal

theorem exists_add_same (hsame : a.lastOrdinal = ordinal) :
    (∃ a', a.add units ordinal windowSize = .ok a') ↔
      units.toNat ≤ uint64Max / rateLimitingPrecision ∧
      a.consumed.toNat + units.toNat ≤ uint64Max ∧
      a.valueEx.toNat + contrib units windowSize ≤ uint64Max := by
  constructor
  · rintro ⟨a', h⟩
    obtain ⟨hraw, hconsumed, hvalue, _⟩ := add_eq_ok.mp h
    exact ⟨hraw, hconsumed, hvalue⟩
  · rintro ⟨hraw, hconsumed, hvalue⟩
    refine ⟨⟨ordinal, UInt64.ofNat (a.valueEx.toNat + contrib units windowSize),
      a.consumed + units⟩, add_eq_ok.mpr ⟨hraw, hconsumed, hvalue, a, .same hsame, rfl, rfl, ?_⟩⟩
    exact toNat_ofNat_of_le hvalue

theorem add_same_valueEx (hsame : a.lastOrdinal = ordinal)
    (h : a.add units ordinal windowSize = .ok a') :
    a'.valueEx.toNat = a.valueEx.toNat + contrib units windowSize := by
  obtain ⟨_, _, _, b, hb, _, _, hvalue⟩ := add_eq_ok.mp h
  cases hb with
  | same => exact hvalue
  | later hne => exact absurd hsame hne

@[simp] theorem contrib_zero (windowSize : UInt32) : contrib 0 windowSize = 0 := by
  simp [contrib, integerDivideCeil]

/-- To enter a period without a contribution makes nothing larger than it was, but for the
    tracked usage, which becomes the average. -/
theorem add_zero_le (h : a.add 0 ordinal windowSize = .ok a') :
    a'.valueEx.toNat ≤ a.valueEx.toNat ∧
      a'.consumed.toNat ≤ max a.consumed.toNat (a.valueEx.toNat / rateLimitingPrecision + 1) := by
  obtain ⟨_, _, _, b, hb, _, hconsumed, hvalue⟩ := add_eq_ok.mp h
  rw [contrib_zero, Nat.add_zero] at hvalue
  have hle := hb.valueEx_le
  refine ⟨hvalue ▸ hle, ?_⟩
  rw [hconsumed, UInt64.add_zero]
  cases hb with
  | same _ => exact Nat.le_max_left _ _
  | later _ hdecay =>
    obtain ⟨_, _, _, _, haverage⟩ := decay_eq_ok.mp hdecay
    refine Nat.le_trans ?_ (Nat.le_max_right _ _)
    rw [haverage, toNat_average, integerDivideCeil]
    refine Nat.add_le_add (Nat.div_le_div_right hle) ?_
    split
    · exact Nat.le_refl 1
    · exact Nat.zero_le 1

end Accumulator

end YottaChain.Resources
