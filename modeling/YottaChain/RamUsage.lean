/-
  **Charging RAM** (`resource_limits_manager::add_pending_ram_usage`).

  A charge is a signed number of bytes.  It is refused if the usage of the account would leave
  the range of 64 bits, and is otherwise added in exact arithmetic.
-/
import YottaChain.MovingAverage

namespace YottaChain.Resources

open Checked

variable {r r' : Manager} {account : Name} {delta : Int64}

/-- The charge `delta` is added to the usage of the account, and nothing else changes. -/
structure Charged (r r' : Manager) (account : Name) (delta : Int) : Prop where
  charged : ∃ usage usage', r.usage.find account = some usage ∧
    r' = { r with usage := r.usage.put account usage' } ∧
    usage' = { usage with ramUsage := usage'.ramUsage } ∧
    (usage'.ramUsage.toNat : Int) = usage.ramUsage.toNat + delta

theorem toNat_toUInt64_of_nonneg (h : 0 ≤ delta.toInt) :
    (delta.toUInt64.toNat : Int) = delta.toInt := by
  have hbound := (FixedWidth.toInt_bounds delta).2
  rw [FixedWidth.toNat_toUInt64, Int.emod_eq_of_lt h (by omega)]

theorem toNat_add_delta {usage : UInt64} (hlow : 0 ≤ (usage.toNat : Int) + delta.toInt)
    (hhigh : (usage.toNat : Int) + delta.toInt ≤ uint64Max) :
    ((usage + delta.toUInt64).toNat : Int) = usage.toNat + delta.toInt := by
  have hbits := FixedWidth.toNat_toUInt64 delta
  unfold uint64Max at hhigh
  rw [UInt64.toNat_add]
  omega

theorem toInt_neg_of_neg (h : delta.toInt < 0) :
    ((-delta).toUInt64.toNat : Int) = -delta.toInt := by
  have hbounds := FixedWidth.toInt_bounds delta
  rw [FixedWidth.toNat_toUInt64, Int64.toInt_neg, Int.bmod_def]
  omega

theorem addPendingRamUsage_eq_ok (hne : delta ≠ 0) :
    r.addPendingRamUsage account delta = .ok r' ↔
      ∃ usage, r.usage.find account = some usage ∧
        0 ≤ (usage.ramUsage.toNat : Int) + delta.toInt ∧
        (usage.ramUsage.toNat : Int) + delta.toInt ≤ uint64Max ∧
        r' = { r with usage := r.usage.put account { usage with
          ramUsage := usage.ramUsage + delta.toUInt64 } } := by
  rw [Manager.addPendingRamUsage, if_neg hne]
  simp only [ok_iff]
  refine exists_congr fun usage => and_congr_right fun _ => ?_
  have hmax := toNat_le_uint64Max usage.ramUsage
  have hover : (delta ≤ 0 ∨ uint64Max - usage.ramUsage.toNat ≥ delta.toUInt64.toNat) ↔
      (usage.ramUsage.toNat : Int) + delta.toInt ≤ uint64Max := by
    rw [Int64.le_iff_toInt_le]
    show delta.toInt ≤ 0 ∨ _ ↔ _
    by_cases hpos : delta.toInt ≤ 0
    · exact ⟨fun _ => by omega, fun _ => .inl hpos⟩
    · have hvalue : (delta.toUInt64.toNat : Int) = delta.toInt :=
        toNat_toUInt64_of_nonneg (by omega)
      omega
  have hunder : (delta ≥ 0 ∨ usage.ramUsage ≥ (-delta).toUInt64) ↔
      0 ≤ (usage.ramUsage.toNat : Int) + delta.toInt := by
    rw [ge_iff_le, Int64.le_iff_toInt_le, ge_iff_le, UInt64.le_iff_toNat_le]
    show 0 ≤ delta.toInt ∨ _ ↔ _
    by_cases hneg : delta.toInt < 0
    · have hvalue := toInt_neg_of_neg hneg
      omega
    · exact ⟨fun _ => by omega, fun _ => .inl (by omega)⟩
  rw [hover, hunder, and_left_comm]
  refine and_congr_right fun _ => and_congr_right fun _ => eq_comm

theorem charged_of_ok (hne : delta ≠ 0) (h : r.addPendingRamUsage account delta = .ok r') :
    Charged r r' account delta.toInt := by
  obtain ⟨usage, husage, hlow, hhigh, rfl⟩ := (addPendingRamUsage_eq_ok hne).mp h
  exact ⟨usage, _, husage, rfl, rfl, toNat_add_delta hlow hhigh⟩

end YottaChain.Resources
