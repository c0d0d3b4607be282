/-
  **Lists whose elements have distinct keys, and sorting.**

  A list that is searched for a key and edited in place at the first hit
  (`editFirst`) is, when the keys are distinct, edited at every hit (`editAll`).
  The second form is a `filterMap`: what is in the list afterwards, how long it
  is and that its keys are still distinct follow from general facts about lists.
  `editEither` does the same for two lists that are searched one after the other.

  A `Sorter` is any algorithm that returns a sorted permutation; which one of
  several elements that compare equal comes first is left open.
-/
import Mathlib.Data.List.Nodup
import Mathlib.Data.List.Sort

namespace KeyedList

open List

variable {α κ : Type} [DecidableEq κ] {key : α → κ} {k : κ} {f : α → Option α} {l l' : List α}

/-! ## 1. Edits -/

/-- Replace the first element with the key `k` by `f` of it, or remove it if that is
    `none`.  There is no result if there is no such element. -/
def editFirst (key : α → κ) (k : κ) (f : α → Option α) : List α → Option (List α)
  | [] => none
  | a :: rest =>
      if key a = k then some ((f a).toList ++ rest)
      else (editFirst key k f rest).map (a :: ·)

def editAll (key : α → κ) (k : κ) (f : α → Option α) (l : List α) : List α :=
  l.filterMap fun a => if key a = k then f a else some a

theorem editAll_cons_self {a : α} (h : key a = k) :
    editAll key k f (a :: l) = (f a).toList ++ editAll key k f l := by
  rcases hf : f a with _ | b <;> simp [editAll, h, hf]

theorem editAll_cons_ne {a : α} (h : key a ≠ k) :
    editAll key k f (a :: l) = a :: editAll key k f l := by
  simp [editAll, h]

theorem editAll_of_absent (h : k ∉ l.map key) : editAll key k f l = l := by
  induction l with
  | nil => rfl
  | cons _ _ ih =>
    rw [map_cons, mem_cons, not_or] at h
    rw [editAll_cons_ne (Ne.symm h.1), ih h.2]

theorem editFirst_none (h : editFirst key k f l = none) : k ∉ l.map key := by
  induction l with
  | nil => simp
  | cons a _ ih =>
    by_cases ha : key a = k
    · simp [editFirst, ha] at h
    · simp only [editFirst, if_neg ha, Option.map_eq_none_iff] at h
      rw [map_cons, mem_cons, not_or]
      exact ⟨Ne.symm ha, ih h⟩

theorem editFirst_some (h : editFirst key k f l = some l') (hnodup : (l.map key).Nodup) :
    k ∈ l.map key ∧ l' = editAll key k f l := by
  induction l generalizing l' with
  | nil => cases h
  | cons a l ih =>
    rw [map_cons, nodup_cons] at hnodup
    by_cases ha : key a = k
    · simp only [editFirst, if_pos ha, Option.some.injEq] at h
      have habsent : k ∉ l.map key := ha ▸ hnodup.1
      refine ⟨by simp [ha], ?_⟩
      rw [← h, editAll_cons_self ha, editAll_of_absent habsent]
    · simp only [editFirst, if_neg ha, Option.map_eq_some_iff] at h
      obtain ⟨rest, hrest, rfl⟩ := h
      obtain ⟨hmem, rfl⟩ := ih hrest hnodup.2
      exact ⟨mem_cons_of_mem _ hmem, (editAll_cons_ne ha).symm⟩

theorem mem_editAll {b : α} :
    b ∈ editAll key k f l ↔ (b ∈ l ∧ key b ≠ k) ∨ ∃ a ∈ l, key a = k ∧ f a = some b := by
  unfold editAll
  rw [mem_filterMap]
  constructor
  · rintro ⟨a, ha, hb⟩
    by_cases hk : key a = k
    · rw [if_pos hk] at hb
      exact .inr ⟨a, ha, hk, hb⟩
    · rw [if_neg hk] at hb
      cases hb
      exact .inl ⟨ha, hk⟩
  · rintro (⟨hb, hk⟩ | ⟨a, ha, hk, hf⟩)
    · exact ⟨b, hb, if_neg hk⟩
    · exact ⟨a, ha, (if_pos hk).trans hf⟩

theorem length_editAll_le (l : List α) : (editAll key k f l).length ≤ l.length :=
  length_filterMap_le _ l

theorem keys_editAll (hf : ∀ a b, f a = some b → key b = key a) (l : List α) :
    ((editAll key k f l).map key).Sublist (l.map key) := by
  induction l with
  | nil => exact Sublist.refl _
  | cons a _ ih =>
    by_cases ha : key a = k
    · rw [editAll_cons_self ha]
      rcases hb : f a with _ | b
      · exact ih.cons _
      · rw [map_cons, ← hf a b hb]
        exact ih.cons_cons _
    · rw [editAll_cons_ne ha]
      exact ih.cons_cons _

/-- With distinct keys, the element with a key is the one the search finds. -/
theorem find_eq_some_iff (hnodup : (l.map key).Nodup) {a : α} :
    l.find? (fun b => decide (key b = k)) = some a ↔ a ∈ l ∧ key a = k := by
  induction l with
  | nil => simp
  | cons b _ ih =>
    rw [map_cons, nodup_cons] at hnodup
    by_cases hb : key b = k
    · rw [find?_cons, decide_eq_true hb, Option.some.injEq, mem_cons]
      constructor
      · rintro rfl
        exact ⟨.inl rfl, hb⟩
      · rintro ⟨rfl | ha, hk⟩
        · rfl
        · exact absurd (mem_map.mpr ⟨a, ha, hk.trans hb.symm⟩) hnodup.1
    · rw [find?_cons, decide_eq_false hb, ih hnodup.2, mem_cons]
      constructor
      · rintro ⟨ha, hk⟩
        exact ⟨.inr ha, hk⟩
      · rintro ⟨rfl | ha, hk⟩
        · exact absurd hk hb
        · exact ⟨ha, hk⟩

/-- The first hit in one of two lists, the second being searched if the first has
    none. -/
def editEither (key : α → κ) (k : κ) (f : α → Option α) (l₁ l₂ : List α) : List α × List α :=
  match editFirst key k f l₁ with
  | some l₁ => (l₁, l₂)
  | none =>
      match editFirst key k f l₂ with
      | some l₂ => (l₁, l₂)
      | none => (l₁, l₂)

theorem editEither_eq {l₁ l₂ : List α} (hnodup : ((l₁ ++ l₂).map key).Nodup) :
    editEither key k f l₁ l₂ = (editAll key k f l₁, editAll key k f l₂) := by
  rw [map_append, nodup_append] at hnodup
  obtain ⟨h1, h2, hdisj⟩ := hnodup
  unfold editEither
  rcases he1 : editFirst key k f l₁ with _ | l1'
  · rw [editAll_of_absent (editFirst_none he1)]
    rcases he2 : editFirst key k f l₂ with _ | l2'
    · rw [editAll_of_absent (editFirst_none he2)]
    · rw [(editFirst_some he2 h2).2]
  · obtain ⟨hmem, rfl⟩ := editFirst_some he1 h1
    have habsent : k ∉ l₂.map key := fun hk => hdisj k hmem k hk rfl
    rw [editAll_of_absent habsent]

theorem editAll_append (l₁ l₂ : List α) :
    editAll key k f (l₁ ++ l₂) = editAll key k f l₁ ++ editAll key k f l₂ :=
  filterMap_append

/-! ## 2. Sorting -/

theorem le_getD_iff {r : α → α → Prop} [DecidableRel r] [IsTrans α r] (x d : α)
    (hsorted : l.Pairwise r) {n : Nat} (hn : n < l.length) :
    r x (l.getD n d) ↔ l.countP (fun y => decide (¬ r x y)) ≤ n := by
  induction l generalizing n with
  | nil => exact absurd hn (Nat.not_lt_zero _)
  | cons a l ih =>
    obtain ⟨hhead, htail⟩ := pairwise_cons.mp hsorted
    by_cases hx : r x a
    · -- then no element is below `x`
      have hall : ∀ y ∈ a :: l, r x y := by
        exact forall_mem_cons.mpr ⟨hx, fun y hy => IsTrans.trans _ _ _ hx (hhead y hy)⟩
      have hzero : (a :: l).countP (fun y => decide (¬ r x y)) = 0 := by
        rw [countP_eq_zero]
        intro y hy
        simp [hall y hy]
      rw [hzero]
      refine iff_of_true ?_ (Nat.zero_le _)
      rw [getD_eq_getElem?_getD, getElem?_eq_getElem hn, Option.getD_some]
      exact hall _ (getElem_mem hn)
    · rw [countP_cons_of_pos (by simp [hx])]
      cases n with
      | zero => exact iff_of_false hx (Nat.not_succ_le_zero _)
      | succ =>
        rw [getD_cons_succ, ih htail (Nat.lt_of_succ_lt_succ hn)]
        exact Nat.succ_le_succ_iff.symm

structure Sorter where
  sort : ∀ {α : Type}, (α → α → Bool) → List α → List α
  perm : ∀ {α : Type} (le : α → α → Bool) (l : List α), (sort le l).Perm l
  sorted : ∀ {α : Type} (le : α → α → Bool), (∀ a b c, le a b → le b c → le a c) →
    (∀ a b, le a b || le b a) → ∀ l : List α, (sort le l).Pairwise fun a b => le a b

def Sorter.insertion : Sorter where
  sort le l := l.insertionSort fun a b => le a b
  perm le l := l.perm_insertionSort fun a b => le a b
  sorted le htrans htotal l := by
    have : Std.Total fun a b => le a b = true := ⟨fun a b => by simpa using htotal a b⟩
    have : IsTrans _ fun a b => le a b = true := ⟨htrans⟩
    exact l.pairwise_insertionSort fun a b => le a b

end KeyedList
