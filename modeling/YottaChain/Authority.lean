/-
  **Permission levels and authorities** (`authority.hpp`, `action.hpp`).

  An authority is a threshold with three lists of weighted factors: keys, levels
  of other accounts and waiting times.  Keys are taken from an arbitrary linear
  order.  `validate` asks for ascending lists and for a threshold that the weights
  can reach; it bounds the number of factors so that no sum of weights wraps
  (`weightSum_lt`).
-/
import Mathlib.Algebra.Order.Ring.Nat
import Mathlib.Order.Defs.LinearOrder
import YottaChain.Chain

namespace YottaChain.Permissions

open FixedWidth

/-! ## 1. Levels and authorities -/

structure PermissionLevel where
  actor : Name
  permission : Name
deriving DecidableEq, Repr

/-- `operator<`: by actor, then by permission. -/
def PermissionLevel.less (a b : PermissionLevel) : Bool :=
  decide (a.actor < b.actor ∨ a.actor = b.actor ∧ a.permission < b.permission)

structure KeyWeight (K : Type) where
  key : K
  weight : UInt16
deriving DecidableEq

structure PermissionLevelWeight where
  permission : PermissionLevel
  weight : UInt16
deriving DecidableEq

structure WaitWeight where
  waitSec : UInt32
  weight : UInt16
deriving DecidableEq

structure Authority (K : Type) where
  threshold : UInt32
  keys : List (KeyWeight K)
  accounts : List PermissionLevelWeight
  waits : List WaitWeight
deriving DecidableEq

def Authority.ofKey {K : Type} (key : K) : Authority K := ⟨1, [⟨key, 1⟩], [], []⟩

/-! ## 2. Validity -/

def ascending {α : Type} (less : α → α → Bool) : List α → Bool
  | [] => true
  | [_] => true
  | a :: b :: rest => less a b && ascending less (b :: rest)

def Authority.weights {K : Type} (auth : Authority K) : List UInt16 :=
  auth.keys.map KeyWeight.weight ++ auth.accounts.map PermissionLevelWeight.weight ++
    auth.waits.map WaitWeight.weight

def sumWeights (l : List UInt16) : UInt32 := l.foldl (fun total w => total + w.toUInt32) 0

variable {K : Type} [LinearOrder K]

def validate (auth : Authority K) : Bool :=
  if 65536 < auth.keys.length + auth.accounts.length + auth.waits.length then false
  else if auth.threshold = 0 then false
  else if ascending (fun a b => decide (a.key < b.key)) auth.keys = false then false
  else if ascending (fun a b => a.permission.less b.permission) auth.accounts = false then false
  else if auth.waits.head?.any (fun w => w.waitSec == 0) then false
  else if ascending (fun a b => decide (a.waitSec < b.waitSec)) auth.waits = false then false
  else decide (auth.threshold ≤ sumWeights auth.weights)

/-- What is used of a valid authority: its threshold is not zero and it has at most
    `2 ^ 16` factors. -/
theorem validate_ok {auth : Authority K} (h : validate auth = true) :
    auth.threshold ≠ 0 ∧ auth.weights.length ≤ 65536 := by
  unfold validate at h
  split at h
  · cases h
  · rename_i hsize
    split at h
    · cases h
    · rename_i hthreshold
      refine ⟨hthreshold, ?_⟩
      simp only [Authority.weights, List.length_append, List.length_map]
      omega

/-! ## 3. Sums of weights -/

def weightSum (l : List UInt16) : Nat := (l.map UInt16.toNat).sum

theorem weightSum_le (l : List UInt16) : weightSum l ≤ l.length * 65535 := by
  induction l with
  | nil => simp [weightSum]
  | cons w l ih =>
    have hw := w.toNat_lt
    simp only [weightSum, List.map_cons, List.sum_cons, List.length_cons] at ih ⊢
    omega

theorem weightSum_lt {l : List UInt16} (h : l.length ≤ 65536) : weightSum l < 2 ^ 32 := by
  have hle := weightSum_le l
  omega

end YottaChain.Permissions
