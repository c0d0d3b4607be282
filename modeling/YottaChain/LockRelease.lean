/-
  **What a lock still holds back** (`get_lock_asset` of `hddlock`).

  The loop over the time points of a rule stops at the first that has not passed, so the
  percentage it finds is that of the point before, or 0.  `addrule` looks at the sizes and at
  each percentage alone: neither the times nor the percentages need to rise.  The points that
  the loop can stop after are *reached*; locks loosen with time exactly if the percentages of
  the reached points rise.  Products are read as exact rationals.
-/
import YottaChain.HddLock
import Mathlib.Algebra.Order.BigOperators.Group.List

namespace YottaChain.HddLock

open Checked List UInt64

def lastSecond : UInt64 := 18446744073709

/-- The loop can stop after the `i`-th time point: this and the ones before it come before the
    next. -/
def LockRule.Reached (rule : LockRule) (i : Nat) : Prop :=
  i < rule.times.length ∧ ∀ time ∈ rule.times.take (i + 1),
    time ≤ lastSecond ∧ ∀ next ∈ rule.times[i + 1]?, time < next

def LockRule.Ordered (rule : LockRule) : Prop :=
  ∀ i j, i < j → rule.Reached i → rule.Reached j →
    rule.percentage.getD i 0 ≤ rule.percentage.getD j 0

def passed (c : UInt64) (times : List UInt64) : Nat := times.findIdx fun time => c < time

section Rules

variable {rule : LockRule} {c c' : UInt64} {i : Nat}

end Rules

/-! ## The locked amount -/

/-- What `addrule` has looked at. -/
structure LockRule.Accepted (rule : LockRule) : Prop where
  sizes : rule.times.length = rule.percentage.length
  percent : ∀ p ∈ rule.percentage, p ≤ 100

variable {id : UInt64}

def lockedTotal (rows : List AccLock) : Int := (rows.map fun row => row.quantity.amount.toInt).sum

/-- Rows as lock transfers book them, with a total that an `int64_t` holds. -/
structure Booked (t : Tables) (rows : List AccLock) : Prop where
  positive : ∀ row ∈ rows, 0 < row.quantity.amount.toInt
  rule : ∀ row ∈ rows, ∃ rule, t.lockrule.find row.lockruleid = some rule
  total : lockedTotal rows < 2 ^ 63

section Amounts

variable {t : Tables} {rows : List AccLock} {row : AccLock} {rule : LockRule} {c c' : UInt64}

section

variable (hpos : 0 < row.quantity.amount.toInt) (hrule : t.lockrule.find row.lockruleid = some rule)
  (h : rule.Accepted)

include hpos hrule h

end

end Amounts

section Samples

end Samples

end YottaChain.HddLock
