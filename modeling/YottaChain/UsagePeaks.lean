/-
  **The averages of usage stay below the peak** (`resource_limits_private.hpp`).

  Each period takes away at least one part in `w` of the value, rounded down, and adds a
  contribution of at most `c`, the share of the peak rounded up.  So `w * c` is a fixed point
  that the value never passes, and with the bound on the peak no sum or product comes near the
  end of 64 bits.  A gap as long as the window takes away everything.
-/
import YottaChain.MovingAverage

namespace YottaChain.Resources

open Checked List

variable {den : Nat}

theorem integerDivideCeil_eq (num : Nat) (hden : 0 < den) :
    integerDivideCeil num den = (num + (den - 1)) / den :=
  Nat.le_antisymm (integerDivideCeil_le num hden)
    (add_div_le_integerDivideCeil num (Nat.sub_one_lt_of_lt hden))

theorem integerDivideCeil_mono {num num' : Nat} (h : num ≤ num') (hden : 0 < den) :
    integerDivideCeil num den ≤ integerDivideCeil num' den := by
  rw [integerDivideCeil_eq num hden, integerDivideCeil_eq num' hden]
  exact Nat.div_le_div_right (Nat.add_le_add_right h _)

structure PeakBounds (w : UInt32) (U : Nat) : Prop where
  two_le : 2 ≤ w.toNat
  le_precision : w.toNat ≤ 10 ^ 6
  room : w.toNat * (U * 10 ^ 6 + w.toNat) < 2 ^ 64

def peakShare (w : UInt32) (U : Nat) : Nat := integerDivideCeil (U * 10 ^ 6) w.toNat

namespace PeakBounds

variable {w : UInt32} {U : Nat}

section

variable (h : PeakBounds w U)

include h

theorem share_mul_le : w.toNat * peakShare w U ≤ U * 10 ^ 6 + (w.toNat - 1) := by
  have hpos : 0 < w.toNat := Nat.lt_of_lt_of_le (by decide) h.two_le
  rw [Nat.mul_comm]
  exact integerDivideCeil_mul_le _ hpos

theorem double_lt : 2 * (U * 10 ^ 6 + w.toNat) < 2 ^ 64 :=
  Nat.lt_of_le_of_lt (Nat.mul_le_mul_right _ h.two_le) h.room

theorem share_le : 2 * peakShare w U ≤ U * 10 ^ 6 + (w.toNat - 1) :=
  Nat.le_trans (Nat.mul_le_mul_right _ h.two_le) h.share_mul_le

theorem contrib_le {units : UInt64} (hunits : units.toNat ≤ U) :
    Accumulator.contrib units w ≤ peakShare w U :=
  integerDivideCeil_mono (Nat.mul_le_mul_right _ hunits)
    (Nat.lt_of_lt_of_le (by decide) h.two_le)

/-- A period takes away one of the `w` shares. -/
theorem decayed_le {value periods : Nat}
    (hvalue : value ≤ w.toNat * peakShare w U) (hperiods : 1 ≤ periods) :
    Accumulator.decayed value w.toNat periods ≤ (w.toNat - 1) * peakShare w U := by
  have hpos : 0 < w.toNat := Nat.lt_of_lt_of_le (by decide) h.two_le
  unfold Accumulator.decayed
  calc value * (w.toNat - periods) / w.toNat
      ≤ w.toNat * peakShare w U * (w.toNat - 1) / w.toNat := by
        apply Nat.div_le_div_right
        exact Nat.mul_le_mul hvalue (by omega)
    _ = (w.toNat - 1) * peakShare w U := by
        rw [Nat.mul_assoc, Nat.mul_div_cancel_left _ hpos, Nat.mul_comm]

theorem average_le {a : Accumulator}
    (ha : a.valueEx.toNat ≤ w.toNat * peakShare w U) : a.average.toNat ≤ U + 1 := by
  have hshare := h.share_mul_le
  have hle := h.le_precision
  rw [Accumulator.toNat_average, integerDivideCeil_eq _ (by decide)]
  unfold rateLimitingPrecision
  omega

end

end PeakBounds

namespace Accumulator

def fresh : Accumulator := ⟨0, 0, 0⟩

/-- Calls of `add`, each with its units and its ordinal. -/
def addAll (w : UInt32) (a : Accumulator) (calls : List (UInt64 × UInt32)) : Checked Accumulator :=
  calls.foldlM (fun a call => a.add call.1 call.2 w) a

variable {w : UInt32} {U : Nat} {a : Accumulator} {units : UInt64} {ordinal : UInt32}

/-- The value has not passed the peak, and the tracked usage not much more than twice. -/
structure BelowPeak (w : UInt32) (U : Nat) (a : Accumulator) : Prop where
  value : a.valueEx.toNat ≤ w.toNat * peakShare w U
  consumed : a.consumed.toNat ≤ 2 * U + 1

theorem belowPeak_fresh : BelowPeak w U fresh := ⟨Nat.zero_le _, Nat.zero_le _⟩

/-- A later period can be entered, and its contribution be added. -/
theorem BelowPeak.add (h : PeakBounds w U) (ha : BelowPeak w U a)
    (hlater : a.lastOrdinal < ordinal) (hunits : units.toNat ≤ U) :
    ∃ a', a.add units ordinal w = .ok a' ∧ BelowPeak w U a' ∧ a'.lastOrdinal = ordinal := by
  have hlt := UInt32.lt_iff_toNat_lt.mp hlater
  have hmul := h.share_mul_le
  have hroom := h.room
  have hdouble := h.double_lt
  have hshare := h.share_le
  have hcontrib := h.contrib_le hunits
  have hvalue := ha.value
  have hconsumed := ha.consumed
  have hdecayed := h.decayed_le hvalue (show 1 ≤ ordinal.toNat - a.lastOrdinal.toNat by omega)
  have hstep : (w.toNat - 1) * peakShare w U + peakShare w U = w.toNat * peakShare w U := by
    rw [← Nat.succ_mul]
    congr 1
    have htwo := h.two_le
    omega
  have hproduct : a.valueEx.toNat * (w.toNat - (ordinal.toNat - a.lastOrdinal.toNat)) ≤
      uint64Max := by
    have hle : a.valueEx.toNat * (w.toNat - (ordinal.toNat - a.lastOrdinal.toNat)) ≤
        (U * 10 ^ 6 + w.toNat) * w.toNat := Nat.mul_le_mul (by omega) (Nat.sub_le _ _)
    rw [Nat.mul_comm] at hroom
    exact Nat.le_of_lt_succ (Nat.lt_of_le_of_lt hle hroom)
  generalize hd : decayed a.valueEx.toNat w.toNat (ordinal.toNat - a.lastOrdinal.toNat) = d
    at hdecayed
  have hmax : uint64Max = 2 ^ 64 - 1 := rfl
  let b : Accumulator :=
    ⟨ordinal, UInt64.ofNat d, (⟨ordinal, UInt64.ofNat d, 0⟩ : Accumulator).average⟩
  have hbvalue : b.valueEx.toNat = d := toNat_ofNat_of_le (by omega)
  have hbaverage : b.average.toNat ≤ U + 1 := h.average_le (by omega)
  have hentered : Entered a ordinal w b := by
    refine .later (fun heq => ?_) (decay_eq_ok.mpr ⟨hlater, hproduct, rfl, ?_, rfl⟩)
    · rw [heq] at hlt
      exact Nat.lt_irrefl _ hlt
    · rw [hbvalue, hd]
  have hsum : (b.consumed + units).toNat = b.average.toNat + units.toNat := by
    refine FixedWidth.toNat_add_of_lt ?_
    show b.average.toNat + units.toNat < 2 ^ 64
    omega
  have hnew : (UInt64.ofNat (d + contrib units w)).toNat = d + contrib units w :=
    toNat_ofNat_of_le (by omega)
  refine ⟨⟨ordinal, UInt64.ofNat (d + contrib units w), b.consumed + units⟩,
    add_eq_ok.mpr ⟨?_, by omega, by omega, b, hentered, rfl, rfl, ?_⟩, ⟨?_, ?_⟩, rfl⟩
  · rw [hmax]
    unfold rateLimitingPrecision
    omega
  · rw [hnew, hbvalue]
  · rw [hnew]
    omega
  · rw [hsum]
    omega

/-- After a gap as long as the window nothing of the earlier calls is left. -/
theorem BelowPeak.add_eq_fresh (h : PeakBounds w U) (ha : BelowPeak w U a)
    (hgap : a.lastOrdinal.toNat + w.toNat ≤ ordinal.toNat) (hunits : units.toNat ≤ U) :
    a.add units ordinal w = fresh.add units ordinal w := by
  have htwo := h.two_le
  have hlater : a.lastOrdinal < ordinal := UInt32.lt_iff_toNat_lt.mpr (by omega)
  obtain ⟨a', hadd, _⟩ := ha.add h hlater hunits
  obtain ⟨hraw, _, _, b, hentered, hordinal, hconsumed, hvalue⟩ := add_eq_ok.mp hadd
  have hpositive : fresh.lastOrdinal < ordinal := by
    rw [UInt32.lt_iff_toNat_lt]
    show 0 < ordinal.toNat
    omega
  have hfresh : Entered fresh ordinal w b := by
    cases hentered with
    | same heq =>
      rw [heq] at hgap
      omega
    | later _ hdecay =>
      obtain ⟨_, _, hb, hbvalue, hbaverage⟩ := decay_eq_ok.mp hdecay
      refine .later (fun heq => ?_) (decay_eq_ok.mpr ⟨hpositive, ?_, hb, ?_, hbaverage⟩)
      · rw [heq] at hpositive
        exact UInt32.lt_irrefl _ hpositive
      · show 0 * _ ≤ _
        rw [Nat.zero_mul]
        exact Nat.zero_le _
      · have hzero : w.toNat - (ordinal.toNat - a.lastOrdinal.toNat) = 0 := by omega
        rw [hbvalue, decayed, hzero, Nat.mul_zero, Nat.zero_div, decayed]
        show 0 = 0 * _ / _
        rw [Nat.zero_mul, Nat.zero_div]
  have hcontrib := h.contrib_le hunits
  have hdouble := h.double_lt
  have hshare := h.share_le
  have hmax : uint64Max = 2 ^ 64 - 1 := rfl
  rw [hadd]
  refine (add_eq_ok.mpr ⟨hraw, ?_, ?_, b, hfresh, hordinal, hconsumed, hvalue⟩).symm
  · show 0 + units.toNat ≤ _
    omega
  · show 0 + contrib units w ≤ _
    omega

/-- The calls are in the order of their ordinals, which are later than those of `a`, and none has
    more than `U` units. -/
def InOrder (U : Nat) (last : Nat) (calls : List (UInt64 × UInt32)) : Prop :=
  (∀ call ∈ calls, call.1.toNat ≤ U ∧ last < call.2.toNat) ∧
    calls.Pairwise fun call later => call.2.toNat < later.2.toNat

theorem BelowPeak.addAll (h : PeakBounds w U) {calls : List (UInt64 × UInt32)}
    (ha : BelowPeak w U a) (hcalls : InOrder U a.lastOrdinal.toNat calls) :
    ∃ a', addAll w a calls = .ok a' ∧ BelowPeak w U a' ∧
      (a'.lastOrdinal = a.lastOrdinal ∨ ∃ call ∈ calls, a'.lastOrdinal = call.2) := by
  induction calls generalizing a with
  | nil => exact ⟨a, rfl, ha, .inl rfl⟩
  | cons call calls ih =>
    obtain ⟨hunits, hlater⟩ := hcalls.1 call mem_cons_self
    obtain ⟨a1, hadd, ha1, hlast⟩ := ha.add h (UInt32.lt_iff_toNat_lt.mpr hlater) hunits
    obtain ⟨hfirst, hrest⟩ := pairwise_cons.mp hcalls.2
    have hcalls1 : InOrder U a1.lastOrdinal.toNat calls := by
      refine ⟨fun c hc => ⟨(hcalls.1 c (mem_cons_of_mem _ hc)).1, ?_⟩, hrest⟩
      rw [hlast]
      exact hfirst c hc
    obtain ⟨a', hall, ha', hwhere⟩ := ih ha1 hcalls1
    refine ⟨a', ?_, ha', .inr ?_⟩
    · rw [Accumulator.addAll, foldlM_cons, bind_eq_ok]
      exact ⟨a1, hadd, hall⟩
    · rcases hwhere with hsame | ⟨c, hc, heq⟩
      · exact ⟨call, mem_cons_self, hsame.trans hlast⟩
      · exact ⟨c, mem_cons_of_mem _ hc, heq⟩

end Accumulator

open Accumulator

/-- In every sequence of calls with increasing ordinals no call throws, the value stays below `w`
    times the share of the peak and the average below the peak plus one; and a call that comes a
    window after all the earlier ones gives what it gives on a fresh accumulator. -/
theorem usage_below_peak {w : UInt32} {U : Nat} (h : PeakBounds w U)
    {calls : List (UInt64 × UInt32)} (hcalls : InOrder U 0 calls) :
    (∀ before after, calls = before ++ after → ∃ a, addAll w fresh before = .ok a ∧
      a.valueEx.toNat ≤ w.toNat * integerDivideCeil (U * 10 ^ 6) w.toNat ∧
      a.average.toNat ≤ U + 1) ∧
    ∀ before call after, calls = before ++ call :: after →
      (∀ earlier ∈ before, earlier.2.toNat + w.toNat ≤ call.2.toNat) →
      addAll w fresh calls = addAll w fresh (call :: after) := by
  have hbefore : ∀ before after, calls = before ++ after → InOrder U 0 before := by
    rintro before after rfl
    exact ⟨fun c hc => hcalls.1 c (mem_append_left _ hc), (pairwise_append.mp hcalls.2).1⟩
  constructor
  · intro before after heq
    obtain ⟨a, hall, ha, _⟩ := belowPeak_fresh.addAll h (hbefore before after heq)
    exact ⟨a, hall, ha.value, h.average_le ha.value⟩
  · intro before call after heq hgap
    obtain ⟨a, hall, ha, hwhere⟩ := belowPeak_fresh.addAll h (hbefore before _ heq)
    have hunits := (hcalls.1 call (heq ▸ mem_append_right _ mem_cons_self)).1
    have hsame : a.add call.1 call.2 w = fresh.add call.1 call.2 w := by
      rcases hwhere with hnone | ⟨earlier, hmem, hlast⟩
      · -- without an earlier call the accumulator is still fresh
        cases before with
        | nil =>
          cases hall
          rfl
        | cons earlier rest =>
          refine ha.add_eq_fresh h ?_ hunits
          have hle := hgap earlier mem_cons_self
          rw [hnone]
          show 0 + w.toNat ≤ _
          omega
      · refine ha.add_eq_fresh h ?_ hunits
        rw [hlast]
        exact hgap earlier hmem
    have hsplit : addAll w fresh calls = addAll w a (call :: after) := by
      rw [heq, addAll, foldlM_append]
      show (addAll w fresh before >>= fun a => addAll w a (call :: after)) = _
      rw [hall]
      rfl
    rw [hsplit, addAll, foldlM_cons, hsame]
    rfl

theorem usage_below_peak_sample :
    ∃ a, addAll 10 fresh [(1000, 1), (999, 2), (7, 40)] = .ok a ∧ a.average.toNat ≤ 1000 + 1 := by
  have hbounds : PeakBounds 10 1000 := ⟨by decide, by decide, by decide⟩
  have hcalls : InOrder 1000 0 [(1000, 1), (999, 2), (7, 40)] := by
    refine ⟨?_, by decide⟩
    simp only [forall_mem_cons, not_mem_nil, false_implies, implies_true, and_true]
    decide
  obtain ⟨hpeak, _⟩ := usage_below_peak hbounds hcalls
  obtain ⟨a, hall, _, haverage⟩ := hpeak _ [] (append_nil _).symm
  exact ⟨a, hall, haverage⟩

end YottaChain.Resources
