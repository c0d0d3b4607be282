/-
  **Weighted tickets stored as running totals.**

  To draw one of several tickets with a chance in proportion to its weight, one
  stores for every ticket the total of the weights up to it and looks for the
  first total that reaches a random number.  The stored rows form a ladder: rung
  `i + 1` holds ticket `i` and the height reached with it.

  `Rungs` says that the rows `1 .. length` of a table are the ladder of a list of
  tickets.  Rows above may hold anything.  The weights live in any additive
  monoid, so totals that wrap around at a fixed width are covered; what a ladder
  is good for, that the heights grow, is a statement about natural numbers.
-/
import Mathlib.Algebra.BigOperators.Group.List.Basic
import Mathlib.Algebra.Order.BigOperators.Group.List
import Mathlib.Algebra.Order.Ring.Nat
import Mathlib.Algebra.Group.Action.Defs

namespace Ladder

open List

variable {α M : Type*}

/-! ## 1. Heights -/

section Monoid

variable [AddMonoid M]

/-- The total weight of the first `i` tickets. -/
def height (l : List (α × M)) (i : ℕ) : M := ((l.take i).map Prod.snd).sum

@[simp] theorem height_zero (l : List (α × M)) : height l 0 = 0 := by
  simp [height]

variable {i : ℕ} {w : M} {l : List (α × M)} {row : ℕ → Option (α × M)}

theorem height_succ {a : α} (h : l[i]? = some (a, w)) : height l (i + 1) = height l i + w := by
  simp [height, take_add_one, h]

theorem height_append {l' : List (α × M)} (h : i ≤ l.length) : height (l ++ l') i = height l i := by
  rw [height, take_append_of_le_length h, height]

theorem height_push (l : List (α × M)) (a : α) (w : M) :
    height (l ++ [(a, w)]) (l.length + 1) = height l l.length + w := by
  have hget : (l ++ [(a, w)])[l.length]? = some (a, w) := by simp
  rw [height_succ hget, height_append (Nat.le_refl _)]

/-! ## 2. Rungs -/

/-- Rung `i + 1` holds ticket `i` and the height reached with it. -/
def Rungs (row : ℕ → Option (α × M)) (l : List (α × M)) : Prop :=
  ∀ i a w, l[i]? = some (a, w) → row (i + 1) = some (a, height l (i + 1))

theorem Rungs.nil (row : ℕ → Option (α × M)) : Rungs row [] := by
  intro i a w h
  simp at h

theorem Rungs.congr {row' : ℕ → Option (α × M)} (h : Rungs row l)
    (hsame : ∀ k, 1 ≤ k → k ≤ l.length → row' k = row k) : Rungs row' l := by
  intro i a w hi
  have hlt : i < l.length := (List.getElem?_eq_some_iff.mp hi).1
  rw [hsame (i + 1) (by omega) (by omega)]
  exact h i a w hi

theorem Rungs.push {row' : ℕ → Option (α × M)} {a : α} (h : Rungs row l)
    (hsame : ∀ k, k ≤ l.length → row' k = row k)
    (hnew : row' (l.length + 1) = some (a, height l l.length + w)) :
    Rungs row' (l ++ [(a, w)]) := by
  intro i b x hi
  by_cases hlt : i < l.length
  · rw [getElem?_append_left hlt] at hi
    rw [hsame (i + 1) (by omega), height_append (by omega)]
    exact h i b x hi
  · have hi' : i = l.length := by
      have := (List.getElem?_eq_some_iff.mp hi).1
      simp only [length_append, length_singleton] at this
      omega
    subst hi'
    simp only [getElem?_concat_length, Option.some.injEq, Prod.mk.injEq] at hi
    rw [hnew, height_push, hi.1]

theorem Rungs.get (h : Rungs row l) {k : ℕ} (hpos : 1 ≤ k) (hle : k ≤ l.length) :
    ∃ a w, l[k - 1]? = some (a, w) ∧ row k = some (a, height l k) := by
  have hlt : k - 1 < l.length := by omega
  refine ⟨l[k - 1].1, l[k - 1].2, getElem?_eq_getElem hlt, ?_⟩
  have hrow := h (k - 1) _ _ (getElem?_eq_getElem hlt)
  rwa [Nat.sub_add_cancel hpos] at hrow

end Monoid

/-! ## 3. Growth -/

variable {i j : ℕ}

theorem height_lt {l : List (α × ℕ)} (hpos : ∀ e ∈ l, 0 < e.2) (hij : i < j) (hj : j ≤ l.length) :
    height l i < height l j := by
  induction j with
  | zero => omega
  | succ j ih =>
    have hlt : j < l.length := by omega
    have hget : l[j]? = some (l[j].1, l[j].2) := getElem?_eq_getElem hlt
    have hw : 0 < l[j].2 := hpos _ (getElem_mem hlt)
    rw [height_succ hget]
    rcases Nat.lt_or_eq_of_le (Nat.lt_succ_iff.mp hij) with h | rfl
    · have := ih h (by omega)
      omega
    · omega

theorem height_mono (l : List (α × ℕ)) (hij : i ≤ j) : height l i ≤ height l j := by
  have hsub : ((l.take i).map Prod.snd).Sublist ((l.take j).map Prod.snd) :=
    (take_prefix_take_left hij).sublist.map _
  exact hsub.sum_le_sum fun _ _ => Nat.zero_le _

theorem height_le {l : List (α × ℕ)} {n : ℕ} (hle : ∀ e ∈ l, e.2 ≤ n) (i : ℕ) :
    height l i ≤ n * l.length := by
  have hsum : height l i ≤ ((l.take i).map Prod.snd).length • n := by
    apply sum_le_card_nsmul
    intro w hw
    obtain ⟨e, he, rfl⟩ := mem_map.mp hw
    exact hle e (mem_of_mem_take he)
  refine Nat.le_trans hsum ?_
  rw [smul_eq_mul, Nat.mul_comm]
  apply Nat.mul_le_mul_left
  simp

end Ladder
