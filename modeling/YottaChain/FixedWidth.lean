/-
  **Reading fixed-width arithmetic as arithmetic on `Nat` and `Int`.**

  Unsigned 64-bit operations wrap modulo `2^64` and signed ones wrap into
  `[-2^63, 2^63)`.  Each lemma below gives the condition under which the
  wrapped result is the mathematical one.  The two `checked` lemmas at the end
  are about a sum or a difference that is range-checked *after* it has been
  computed: for a first operand inside the window `±(2^62 - 1)` the check
  also catches every wrap-around, whatever the second operand is.
-/
import Mathlib.Algebra.Group.Nat.Defs
import Mathlib.Algebra.Ring.Int.Defs
import Mathlib.Data.Nat.Bits

namespace FixedWidth

open UInt64 Int64

/-! ## 1. Unsigned -/

theorem toNat_add_of_lt {a b : UInt64} (h : a.toNat + b.toNat < 2 ^ 64) :
    (a + b).toNat = a.toNat + b.toNat := by
  rw [UInt64.toNat_add]
  exact Nat.mod_eq_of_lt h

theorem toNat_sub_of_le {a b : UInt64} (h : b.toNat ≤ a.toNat) :
    (a - b).toNat = a.toNat - b.toNat :=
  UInt64.toNat_sub_of_le a b (UInt64.le_iff_toNat_le.mpr h)

theorem toNat_max (a b : UInt64) : (max a b).toNat = max a.toNat b.toNat := by
  show (if a ≤ b then b else a).toNat = _
  split_ifs with h
  · exact (Nat.max_eq_right (le_iff_toNat_le.mp h)).symm
  · exact (Nat.max_eq_left (Nat.le_of_not_le fun hle => h (le_iff_toNat_le.mpr hle))).symm

theorem toNat_min (a b : UInt64) : (min a b).toNat = min a.toNat b.toNat := by
  show (if a ≤ b then a else b).toNat = _
  split_ifs with h
  · exact (Nat.min_eq_left (le_iff_toNat_le.mp h)).symm
  · exact (Nat.min_eq_right (Nat.le_of_not_le fun hle => h (le_iff_toNat_le.mpr hle))).symm

theorem and_low16_eq_zero {x : UInt64} : x &&& 65535 = 0 ↔ x.toNat % 65536 = 0 := by
  have hmask : (x &&& 65535).toNat = x.toNat % 65536 := by
    rw [UInt64.toNat_and]
    exact Nat.and_two_pow_sub_one_eq_mod x.toNat 16
  constructor
  · intro h
    rw [← hmask, h]
    rfl
  · intro h
    apply UInt64.toNat_inj.mp
    rw [hmask, h]
    rfl

theorem toNat_shiftRight16 (x : UInt64) : (x >>> 16).toNat = x.toNat / 65536 := by
  rw [UInt64.toNat_shiftRight]
  exact Nat.shiftRight_eq_div_pow x.toNat 16

/-! ## 2. Signed -/

theorem toInt_bounds (a : Int64) : -2 ^ 63 ≤ a.toInt ∧ a.toInt < 2 ^ 63 := ⟨le_toInt a, toInt_lt a⟩

theorem bmod_eq_of_bounds {x : Int} (hlo : -2 ^ 63 ≤ x) (hhi : x < 2 ^ 63) :
    x.bmod (2 ^ 64) = x := by
  rw [Int.bmod_def]
  omega

variable {a b : Int64}

theorem toInt_add_of_bounds (hlo : -2 ^ 63 ≤ a.toInt + b.toInt) (hhi : a.toInt + b.toInt < 2 ^ 63) :
    (a + b).toInt = a.toInt + b.toInt := by
  rw [toInt_add, bmod_eq_of_bounds hlo hhi]

theorem toInt_sub_of_bounds (hlo : -2 ^ 63 ≤ a.toInt - b.toInt) (hhi : a.toInt - b.toInt < 2 ^ 63) :
    (a - b).toInt = a.toInt - b.toInt := by
  rw [toInt_sub, bmod_eq_of_bounds hlo hhi]

theorem toInt_mul_of_bounds (hlo : -2 ^ 63 ≤ a.toInt * b.toInt) (hhi : a.toInt * b.toInt < 2 ^ 63) :
    (a * b).toInt = a.toInt * b.toInt := by
  rw [toInt_mul, bmod_eq_of_bounds hlo hhi]

theorem toInt_div_of_nonneg (ha : 0 ≤ a.toInt) (hb : 0 ≤ b.toInt) :
    (a / b).toInt = a.toInt / b.toInt := by
  have hlt := (toInt_bounds a).2
  have hle := Int.ediv_le_self b.toInt ha
  have hnonneg := Int.ediv_nonneg ha hb
  rw [toInt_div, Int.tdiv_eq_ediv_of_nonneg ha]
  exact bmod_eq_of_bounds (by omega) (by omega)

theorem toInt_toInt64_of_lt {a : UInt64} (h : a.toNat < 2 ^ 63) : a.toInt64.toInt = a.toNat := by
  have hbits : a.toInt64.toInt = a.toBitVec.toInt := rfl
  rw [hbits, BitVec.toInt_eq_toNat_bmod]
  exact bmod_eq_of_bounds (by omega) (by exact_mod_cast h)

theorem toInt_toInt64_neg {a : UInt64} (h : a.toNat < 2 ^ 63) :
    (-a).toInt64.toInt = -(a.toNat : Int) := by
  rw [UInt64.toInt64_neg, toInt_neg, toInt_toInt64_of_lt h]
  exact bmod_eq_of_bounds (by omega) (by omega)

theorem toNat_toUInt64_ofInt (n : Int) : ((Int64.ofInt n).toUInt64.toNat : Int) = n % 2 ^ 64 := by
  have hmod : (Int64.ofInt n).toUInt64.toNat = (n % 2 ^ 64).toNat := BitVec.toNat_ofInt n
  rw [hmod]
  exact Int.toNat_of_nonneg (Int.emod_nonneg n (by decide))

theorem toNat_toUInt64 (a : Int64) : (a.toUInt64.toNat : Int) = a.toInt % 2 ^ 64 := by
  rw [← toNat_toUInt64_ofInt, ofInt_toInt]

def InWindow (a : Int64) : Prop := -(2 ^ 62 - 1) ≤ a.toInt ∧ a.toInt ≤ 2 ^ 62 - 1

instance (a : Int64) : Decidable (InWindow a) := inferInstanceAs (Decidable (_ ∧ _))

theorem checked_add (ha : InWindow a) (hr : InWindow (a + b)) :
    (a + b).toInt = a.toInt + b.toInt := by
  have hb := toInt_bounds b
  unfold InWindow at ha hr
  rw [toInt_add, Int.bmod_def] at hr ⊢
  omega

theorem checked_sub (ha : InWindow a) (hr : InWindow (a - b)) :
    (a - b).toInt = a.toInt - b.toInt := by
  have hb := toInt_bounds b
  unfold InWindow at ha hr
  rw [toInt_sub, Int.bmod_def] at hr ⊢
  omega

end FixedWidth
