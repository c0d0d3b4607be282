/-
  **Merkle trees over a list of leaves.**

  A level of the tree is made from the one below by joining neighbours, and a node without
  a neighbour is joined with itself.  `root` goes up level by level.

  What later leaves cannot change are the complete subtrees.  `peaks` are the largest of
  them, from right to left: there is one for each bit of the number of leaves, and they are
  the left neighbours on the way of the next leaf to the root.
-/
import Mathlib.Algebra.Order.Group.Nat
import Mathlib.Data.List.Basic
import Mathlib.Data.List.Induction
import Mathlib.Data.Nat.Size

namespace MerkleTree

open List

variable {α : Type} (node : α → α → α) {l : List α}

/-- One level up; a last node without a neighbour is joined with itself. -/
def pairUp : List α → List α
  | a :: b :: rest => node a b :: pairUp rest
  | [a] => [node a a]
  | [] => []

def pairFull : List α → List α
  | a :: b :: rest => node a b :: pairFull rest
  | [_] => []
  | [] => []

theorem length_pairUp (l : List α) : (pairUp node l).length = (l.length + 1) / 2 := by
  fun_induction pairUp node l with
  | case1 a b rest ih =>
    simp only [length_cons, ih]
    omega
  | case2 a => simp
  | case3 => simp

theorem length_pairFull (l : List α) : (pairFull node l).length = l.length / 2 := by
  fun_induction pairFull node l with
  | case1 a b rest ih =>
    simp only [length_cons, ih]
    omega
  | case2 a => simp
  | case3 => simp

theorem getElem?_pairFull {k : Nat} {a b : α} (ha : l[2 * k]? = some a)
    (hb : l[2 * k + 1]? = some b) : (pairFull node l)[k]? = some (node a b) := by
  induction k generalizing l with
  | zero =>
    match l, ha, hb with
    | _ :: _ :: _, rfl, rfl => rfl
  | succ _ ih =>
    match l with
    | [] => cases ha
    | [_] => cases ha
    | _ :: _ :: rest => exact ih (l := rest) ha hb

theorem pairUp_of_even (h : l.length % 2 = 0) : pairUp node l = pairFull node l := by
  fun_induction pairUp node l with
  | case1 a b rest ih =>
    rw [pairFull, ih]
    simp only [length_cons] at h
    omega
  | case2 a => cases h
  | case3 => rfl

theorem pairUp_append (h : l.length % 2 = 0) (x : α) :
    pairUp node (l ++ [x]) = pairFull node l ++ [node x x] := by
  fun_induction pairFull node l with
  | case1 a b rest ih =>
    simp only [length_cons] at h
    rw [cons_append, cons_append, pairUp, ih (by omega)]
    rfl
  | case2 a => cases h
  | case3 => rfl

theorem pairFull_append (h : l.length % 2 = 0) (x : α) :
    pairFull node (l ++ [x]) = pairFull node l := by
  fun_induction pairFull node l with
  | case1 a b rest ih =>
    simp only [length_cons] at h
    rw [cons_append, cons_append, pairFull, ih (by omega)]
  | case2 a => cases h
  | case3 => rfl

theorem pairFull_append_pair (h : l.length % 2 = 0) (a b : α) :
    pairFull node (l ++ [a, b]) = pairFull node l ++ [node a b] := by
  fun_induction pairFull node l with
  | case1 c d rest ih =>
    simp only [length_cons] at h
    rw [cons_append, cons_append, pairFull, ih (by omega)]
    rfl
  | case2 c => cases h
  | case3 => rfl

theorem pairFull_ne_nil (hne : l ≠ []) (h : l.length % 2 = 0) : pairFull node l ≠ [] := by
  have hpos := length_pos_iff.mpr hne
  apply length_pos_iff.mp
  rw [length_pairFull]
  omega

/-- Induction over the levels: the complete pairs of a level make the next one. -/
@[elab_as_elim]
theorem levels_induction {motive : List α → Prop} (nil : motive [])
    (even : ∀ l, l ≠ [] → l.length % 2 = 0 → motive (pairFull node l) → motive l)
    (odd : ∀ front last, front.length % 2 = 0 → motive (pairFull node front) →
      motive (front ++ [last])) (l : List α) : motive l := by
  induction hn : l.length using Nat.strong_induction_on generalizing l with
  | _ _ ih =>
    by_cases hne : l = []
    · rw [hne]
      exact nil
    have hpos := length_pos_iff.mpr hne
    by_cases heven : l.length % 2 = 0
    · have hlen := length_pairFull node l
      exact even l hne heven (ih _ (by omega) _ hlen)
    · obtain ⟨front, last, rfl⟩ := (eq_nil_or_concat l).resolve_left hne
      have hlen := length_pairFull node front
      rw [concat_eq_append, length_append, length_singleton] at *
      exact odd front last (by omega) (ih _ (by omega) _ hlen)

/-! ## 1. The root -/

/-- The root of the tree, and `zero` if there are no leaves. -/
def root (zero : α) : List α → α
  | [] => zero
  | [a] => a
  | a :: b :: rest => root zero (pairUp node (a :: b :: rest))
termination_by l => l.length
decreasing_by
  rw [length_pairUp]
  simp only [length_cons]
  omega

variable (zero : α)

@[simp] theorem root_nil : root node zero [] = zero := by rw [root]

@[simp] theorem root_singleton (a : α) : root node zero [a] = a := by rw [root]

theorem root_pairUp (h : 1 < l.length) : root node zero l = root node zero (pairUp node l) := by
  match l, h with
  | a :: b :: rest, _ => rw [root]

/-- A last node without a neighbour goes up paired with itself. -/
theorem root_append (hne : l ≠ []) (h : l.length % 2 = 0) (x : α) :
    root node zero (l ++ [x]) = root node zero (pairFull node l ++ [node x x]) := by
  have hpos := length_pos_iff.mpr hne
  rw [root_pairUp, pairUp_append node h]
  rw [length_append, length_singleton]
  omega

theorem root_append_pair (h : l.length % 2 = 0) (a b : α) :
    root node zero (l ++ [a, b]) = root node zero (pairFull node l ++ [node a b]) := by
  have hlen : (l ++ [a, b]).length = l.length + 2 := length_append
  rw [root_pairUp, pairUp_of_even, pairFull_append_pair node h]
  · rw [hlen]
    omega
  · rw [hlen]
    omega

/-! ## 2. The complete subtrees -/

def peaks (l : List α) : List α :=
  if l = [] then []
  else (if l.length % 2 = 1 then l.getLast?.toList else []) ++ peaks (pairFull node l)
termination_by l.length
decreasing_by
  rename_i hne
  rw [length_pairFull]
  have hpos := length_pos_iff.mpr hne
  omega

@[simp] theorem peaks_nil : peaks node [] = [] := by
  rw [peaks, if_pos rfl]

theorem peaks_of_even (h : l.length % 2 = 0) : peaks node l = peaks node (pairFull node l) := by
  by_cases hl : l = []
  · rw [hl, pairFull]
  · rw [peaks, if_neg hl, if_neg (by omega), nil_append]

theorem peaks_append (h : l.length % 2 = 0) (x : α) :
    peaks node (l ++ [x]) = x :: peaks node (pairFull node l) := by
  have hne : l ++ [x] ≠ [] := append_ne_nil_of_right_ne_nil l (cons_ne_nil x [])
  rw [peaks, if_neg hne, if_pos, getLast?_append, pairFull_append node h]
  · rfl
  · rw [length_append, length_singleton]
    omega

theorem peaks_append_pair (h : l.length % 2 = 0) (a b : α) :
    peaks node (l ++ [a, b]) = peaks node (pairFull node l ++ [node a b]) := by
  rw [peaks_of_even, pairFull_append_pair node h]
  rw [length_append]
  exact (Nat.add_mod_right l.length 2).trans h

theorem peaks_ne_nil (h : l ≠ []) : peaks node l ≠ [] := by
  induction l using levels_induction node with
  | nil => exact absurd rfl h
  | even _ hne heven ih =>
    rw [peaks_of_even node heven]
    exact ih (pairFull_ne_nil node hne heven)
  | odd _ _ heven _ =>
    rw [peaks_append node heven]
    exact cons_ne_nil _ _

/-- What is kept of a tree that grows: the complete subtrees, and at the end the root, which
    is one of them if it is complete itself. -/
def frontier (l : List α) : List α :=
  if (peaks node l).length ≤ 1 then peaks node l else peaks node l ++ [root node zero l]

end MerkleTree
