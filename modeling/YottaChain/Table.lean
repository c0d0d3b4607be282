/-
  **Finite keyed tables with sums over their rows.**

  A table is a finite map from keys to rows.  The rows of a table are read by
  key (`find`), written by key (`put`), removed by key (`erase`) and summed up
  (`total`).  Everything a later proof needs is a statement about one of these
  four operations after another of them:

    * reading after writing or erasing            — `find_put`, `find_erase`;
    * the sum after writing a fresh row           — `total_put_of_none`;
    * the sum after overwriting an existing row   — `total_put_add`;
    * the sum after erasing a row                 — `total_erase_add`.

  The sum takes its values in any commutative monoid, so a quota in `Nat` and
  a signed balance in `Int` are the same lemma.  The representation is
  Mathlib's `Finmap`, whose lookup is extensional; nothing below depends on
  the order of the rows.  The last section is about the first row in the order
  of an index.
-/
import Mathlib.Data.Finmap
import Mathlib.Data.Finset.Max
import Mathlib.Data.Prod.Lex
import Mathlib.Algebra.BigOperators.Group.Multiset.Basic
import Mathlib.Algebra.Order.BigOperators.Group.Multiset

universe u v w

/-- A finite table with keys in `κ` and rows in `α`. -/
structure Table (κ : Type u) (α : Type v) where
  rows : Finmap fun _ : κ => α

namespace Table

variable {κ : Type u} {α : Type v}

instance : EmptyCollection (Table κ α) := ⟨⟨∅⟩⟩

instance : Inhabited (Table κ α) := ⟨∅⟩

/-! ## 1. The operations -/

/-- Sum of `f` over all rows. -/
def total {M : Type w} [AddCommMonoid M] (t : Table κ α) (f : κ → α → M) : M :=
  (t.rows.entries.map fun e => f e.1 e.2).sum

def size (t : Table κ α) : Nat := t.total fun _ _ => 1

variable [DecidableEq κ]

/-- The row stored under `k`, if there is one. -/
def find (t : Table κ α) (k : κ) : Option α := t.rows.lookup k

/-- Write the row under `k`, replacing the old one. -/
def put (t : Table κ α) (k : κ) (a : α) : Table κ α := ⟨t.rows.insert k a⟩

/-- Remove the row under `k`. -/
def erase (t : Table κ α) (k : κ) : Table κ α := ⟨t.rows.erase k⟩

/-- Change the row under `k` when there is one. -/
def adjust (t : Table κ α) (k : κ) (f : α → α) : Table κ α :=
  match t.find k with
  | some a => t.put k (f a)
  | none => t

def emptyScope {σ : Type u} [DecidableEq σ] (t : Table (σ × κ) α) (scope : σ) : Bool :=
  decide (∀ k ∈ t.rows.keys, k.1 ≠ scope)

/-! ## 2. Reading after writing -/

variable {t : Table κ α} {k : κ} {a : α} {P : κ → α → Prop}

theorem ext_find {s t : Table κ α} (h : ∀ k, s.find k = t.find k) : s = t := by
  cases s
  cases t
  exact congrArg Table.mk (Finmap.ext_lookup h)

@[simp] theorem find_empty (k : κ) : (∅ : Table κ α).find k = none := Finmap.lookup_empty k

@[simp] theorem find_put_self (t : Table κ α) (k : κ) (a : α) : (t.put k a).find k = some a :=
  Finmap.lookup_insert t.rows

theorem find_put_ne (t : Table κ α) {k l : κ} (a : α) (h : l ≠ k) : (t.put k a).find l = t.find l :=
  Finmap.lookup_insert_of_ne t.rows h

theorem find_put (t : Table κ α) (k l : κ) (a : α) :
    (t.put k a).find l = if l = k then some a else t.find l := by
  by_cases h : l = k
  · subst h
    simp
  · rw [if_neg h, find_put_ne t a h]

@[simp] theorem find_erase_self (t : Table κ α) (k : κ) : (t.erase k).find k = none :=
  Finmap.lookup_erase k t.rows

theorem find_erase_ne (t : Table κ α) {k l : κ} (h : l ≠ k) : (t.erase k).find l = t.find l :=
  Finmap.lookup_erase_ne h

theorem find_erase (t : Table κ α) (k l : κ) :
    (t.erase k).find l = if l = k then none else t.find l := by
  by_cases h : l = k
  · subst h
    simp
  · rw [if_neg h, find_erase_ne t h]

theorem erase_of_none (h : t.find k = none) : t.erase k = t := by
  apply ext_find
  intro l
  rw [find_erase]
  split_ifs with hl
  · rw [hl, h]
  · rfl

theorem adjust_of_some (f : α → α) (h : t.find k = some a) : t.adjust k f = t.put k (f a) := by
  simp only [adjust, h]

theorem adjust_of_none (f : α → α) (h : t.find k = none) : t.adjust k f = t := by
  simp only [adjust, h]

theorem find_adjust (t : Table κ α) (k l : κ) (f : α → α) :
    (t.adjust k f).find l = if l = k then (t.find k).map f else t.find l := by
  cases h : t.find k with
  | none =>
    rw [adjust_of_none f h]
    by_cases hl : l = k
    · subst hl
      simp [h]
    · rw [if_neg hl]
  | some => rw [adjust_of_some f h, find_put]; rfl

/-! ## 3. Sums -/

section Sums

variable {M : Type w} [AddCommMonoid M]

omit [DecidableEq κ] in
@[simp] theorem total_empty (f : κ → α → M) : (∅ : Table κ α).total f = 0 := by
  rfl

omit [DecidableEq κ] in
theorem total_add (t : Table κ α) (f g : κ → α → M) :
    (t.total fun k a => f k a + g k a) = t.total f + t.total g :=
  Multiset.sum_map_add

theorem total_put_of_none (a : α) (f : κ → α → M)
    (h : t.find k = none) : (t.put k a).total f = f k a + t.total f := by
  have hmem : k ∉ t.rows := Finmap.lookup_eq_none.mp h
  rw [total, put, Finmap.entries_insert_of_notMem hmem, Multiset.map_cons, Multiset.sum_cons, total]

theorem put_erase (t : Table κ α) (k : κ) (b : α) : (t.erase k).put k b = t.put k b := by
  apply ext_find
  intro l
  by_cases hl : l = k
  · subst hl
    simp
  · rw [find_put_ne _ _ hl, find_put_ne _ _ hl, find_erase_ne _ hl]

theorem put_self_of_some (h : t.find k = some a) :
    t.put k a = t := by
  apply ext_find
  intro l
  rw [find_put]
  split_ifs with hl
  · rw [hl, h]
  · rfl

/-- Overwriting a row moves the sum from the old value to the new one. -/
theorem total_put_add (b : α) (f : κ → α → M)
    (h : t.find k = some a) : (t.put k b).total f + f k a = t.total f + f k b := by
  have hnew := total_put_of_none b f (find_erase_self t k)
  have hold := total_put_of_none a f (find_erase_self t k)
  rw [put_erase] at hnew
  rw [put_erase, put_self_of_some h] at hold
  rw [hnew, hold, add_assoc, add_comm ((t.erase k).total f), add_comm (f k b),
    add_comm (f k a), add_assoc]

theorem total_erase_add (f : κ → α → M)
    (h : t.find k = some a) : (t.erase k).total f + f k a = t.total f := by
  have hold := total_put_of_none a f (find_erase_self t k)
  rw [put_erase, put_self_of_some h] at hold
  rw [hold, add_comm]

/-- The value of the row under `k`, zero if there is none. -/
def valueAt (t : Table κ α) (f : κ → α → M) (k : κ) : M := (t.find k).elim 0 (f k)

theorem total_put (t : Table κ α) (k : κ) (a : α) (f : κ → α → M) :
    (t.put k a).total f + t.valueAt f k = t.total f + f k a := by
  unfold valueAt
  cases h : t.find k with
  | none =>
    rw [total_put_of_none a f h, Option.elim_none, add_zero, add_comm]
  | some => exact total_put_add a f h

theorem total_erase (t : Table κ α) (k : κ) (f : κ → α → M) :
    (t.erase k).total f + t.valueAt f k = t.total f := by
  unfold valueAt
  cases h : t.find k with
  | none => rw [erase_of_none h, Option.elim_none, add_zero]
  | some => exact total_erase_add f h

theorem valueAt_put (t : Table κ α) (k l : κ) (a : α) (f : κ → α → M) :
    (t.put k a).valueAt f l = if l = k then f k a else t.valueAt f l := by
  unfold valueAt
  rw [find_put]
  split_ifs with hl
  · rw [hl, Option.elim_some]
  · rfl

theorem valueAt_erase (t : Table κ α) (k l : κ) (f : κ → α → M) :
    (t.erase k).valueAt f l = if l = k then 0 else t.valueAt f l := by
  unfold valueAt
  rw [find_erase]
  split
  · rfl
  · rfl

/-- What holds of every row and of the row written holds of every row afterwards. -/
theorem forall_put (h : ∀ l b, t.find l = some b → P l b) (ha : P k a) (l : κ) (b : α)
    (hl : (t.put k a).find l = some b) : P l b := by
  rw [find_put] at hl
  split_ifs at hl with heq
  · cases hl
    exact heq ▸ ha
  · exact h l b hl

theorem forall_erase (h : ∀ l b, t.find l = some b → P l b) (l : κ) (b : α)
    (hl : (t.erase k).find l = some b) : P l b := by
  rw [find_erase] at hl
  split at hl
  · cases hl
  · exact h l b hl

section PutOrErase

/-! A row that is erased when there is nothing left in it, and stored otherwise. -/

variable {f : κ → α → M} {c : Prop} [Decidable c]

theorem forall_putOrErase (h : ∀ l b, t.find l = some b → P l b) (ha : P k a) :
    ∀ l b, (if c then t.erase k else t.put k a).find l = some b → P l b := by
  split
  · exact forall_erase h
  · exact forall_put h ha

theorem valueAt_putOrErase (hzero : c → f k a = 0) (l : κ) :
    (if c then t.erase k else t.put k a).valueAt f l = if l = k then f k a else t.valueAt f l := by
  split
  · rename_i hc
    rw [valueAt_erase, hzero hc]
  · exact valueAt_put t k l a f

theorem total_putOrErase (hzero : c → f k a = 0) :
    (if c then t.erase k else t.put k a).total f + t.valueAt f k = t.total f + f k a := by
  split_ifs with hc
  · rw [hzero hc, add_zero]
    exact total_erase t k f
  · exact total_put t k a f

end PutOrErase

theorem induction_put {P : Table κ α → Prop} (empty : P ∅)
    (put : ∀ t k a, t.find k = none → P t → P (t.put k a)) (t : Table κ α) : P t := by
  have hlist : ∀ l : AList fun _ : κ => α, P ⟨l.toFinmap⟩ := by
    intro l
    induction l using AList.insertRec with
    | H0 => exact empty
    | IH k a l hk ih =>
      have hput := put ⟨l.toFinmap⟩ k a (Finmap.lookup_eq_none.mpr hk) ih
      rwa [Table.put, Finmap.insert_toFinmap] at hput
  obtain ⟨rows⟩ := t
  induction rows using Finmap.induction_on with
  | H l => exact hlist l

/-- What holds of every row of an enlarged table holds of every row before. -/
theorem forall_of_put
    (hk : t.find k = none) (h : ∀ l b, (t.put k a).find l = some b → P l b) (l : κ) (b : α)
    (hl : t.find l = some b) : P l b := by
  have hne : l ≠ k := by
    rintro rfl
    rw [hk] at hl
    cases hl
  exact h l b ((find_put_ne t a hne).trans hl)

theorem total_eq_zero {f : κ → α → M}
    (h : ∀ k a, t.find k = some a → f k a = 0) : t.total f = 0 := by
  induction t using induction_put with
  | empty => rfl
  | put t k a hk ih =>
    rw [total_put_of_none a f hk, h k a (find_put_self t k a), ih (forall_of_put hk h), zero_add]

theorem total_le_mul_size {f : κ → α → Nat} {n : Nat}
    (h : ∀ k a, t.find k = some a → f k a ≤ n) : t.total f ≤ n * t.size := by
  induction t using induction_put with
  | empty => exact Nat.zero_le _
  | put t k a hk ih =>
    have hrow := h k a (find_put_self t k a)
    have hrest := ih (forall_of_put hk h)
    rw [size, total_put_of_none a f hk, total_put_of_none a _ hk, Nat.mul_add, Nat.mul_one]
    exact Nat.add_le_add hrow hrest

theorem total_nonneg [PartialOrder M] [IsOrderedAddMonoid M] {f : κ → α → M}
    (h : ∀ k a, t.find k = some a → 0 ≤ f k a) : 0 ≤ t.total f := by
  induction t using induction_put with
  | empty => exact le_refl 0
  | put t k a hk ih =>
    rw [total_put_of_none a f hk]
    exact add_nonneg (h k a (find_put_self t k a)) (ih (forall_of_put hk h))

theorem le_total [PartialOrder M] [IsOrderedAddMonoid M] {f : κ → α → M}
    (h : ∀ k a, t.find k = some a → 0 ≤ f k a) (hk : t.find k = some a) :
    f k a ≤ t.total f := by
  have hrest : 0 ≤ (t.erase k).total f := by
    apply total_nonneg
    intro l b hl
    rw [find_erase] at hl
    split at hl
    · cases hl
    · exact h l b hl
  rw [← total_erase_add f hk]
  exact le_add_of_nonneg_left hrest

/-- A sum that is covered row by row: each value that is not zero has a row of the other table to
    itself, with at least this value. -/
theorem total_le_total {ι : Type u} {β : Type v} [DecidableEq ι] {s : Table ι β}
    {f : κ → α → Nat} {g : ι → β → Nat} (e : κ → ι)
    (hinj : ∀ k k' a a', t.find k = some a → t.find k' = some a' → f k a ≠ 0 → f k' a' ≠ 0 →
      e k = e k' → k = k')
    (hle : ∀ k a, t.find k = some a → f k a ≠ 0 → ∃ b, s.find (e k) = some b ∧ f k a ≤ g (e k) b) :
    t.total f ≤ s.total g := by
  induction t using induction_put generalizing s with
  | empty => exact Nat.zero_le _
  | put t k a hk ih =>
    rw [total_put_of_none a f hk]
    have hsub : ∀ l b, t.find l = some b → (t.put k a).find l = some b ∧ l ≠ k := by
      intro l b hl
      have hne : l ≠ k := fun heq => by rw [heq, hk] at hl; cases hl
      exact ⟨(find_put_ne t a hne).trans hl, hne⟩
    have hinj' : ∀ l l' b b', t.find l = some b → t.find l' = some b' → f l b ≠ 0 →
        f l' b' ≠ 0 → e l = e l' → l = l' :=
      fun l l' b b' hl hl' => hinj l l' b b' (hsub l b hl).1 (hsub l' b' hl').1
    by_cases hzero : f k a = 0
    · rw [hzero, Nat.zero_add]
      exact ih hinj' fun l b hl => hle l b (hsub l b hl).1
    · obtain ⟨c, hc, hfc⟩ := hle k a (find_put_self t k a) hzero
      have hrest : t.total f ≤ (s.erase (e k)).total g := by
        refine ih hinj' fun l b hl hne => ?_
        obtain ⟨hput, hlk⟩ := hsub l b hl
        obtain ⟨d, hd, hfd⟩ := hle l b hput hne
        have hother : e l ≠ e k := fun heq =>
          hlk (hinj l k b a hput (find_put_self t k a) hne hzero heq)
        exact ⟨d, (find_erase_ne s hother).trans hd, hfd⟩
      have htotal := total_erase_add g hc
      omega

end Sums

/-! ## 4. The first row of an index -/

section Index

variable {κ : Type u} {α : Type v} {ι : Type w} [DecidableEq κ] [LinearOrder ι]

def entries (t : Table κ α) (entry : κ → α → ι) : Finset ι :=
  (t.rows.entries.map fun e => entry e.1 e.2).toFinset

def first (t : Table κ α) (entry : κ → α → ι) (key : ι → κ) : Option κ :=
  WithTop.recTopCoe none (fun i => some (key i)) (t.entries entry).min

variable {t : Table κ α} {entry : κ → α → ι} {key : ι → κ} {k : κ}

theorem mem_entries {i : ι} : i ∈ t.entries entry ↔ ∃ k a, t.find k = some a ∧ entry k a = i := by
  simp only [entries, Multiset.mem_toFinset, Multiset.mem_map, Sigma.exists, find,
    Finmap.lookup_eq_some_iff]

theorem first_eq_none (h : t.first entry key = none) (k : κ) : t.find k = none := by
  unfold first at h
  rcases hmin : (t.entries entry).min with _ | i
  · rcases hk : t.find k with _ | a
    · rfl
    · have hmem : entry k a ∈ t.entries entry := mem_entries.mpr ⟨k, a, hk, rfl⟩
      rw [Finset.min_eq_top.mp hmin] at hmem
      simp at hmem
  · rw [hmin] at h
    cases h

theorem first_eq_some (entry : κ → α → ι) (key : ι → κ) (hkey : ∀ k a, key (entry k a) = k)
    (h : t.first entry key = some k) :
    ∃ a, t.find k = some a ∧ ∀ l b, t.find l = some b → entry k a ≤ entry l b := by
  unfold first at h
  rcases hmin : (t.entries entry).min with _ | i
  · rw [hmin] at h
    cases h
  · rw [hmin] at h
    cases h
    obtain ⟨k, a, hfind, rfl⟩ := mem_entries.mp (Finset.mem_of_min hmin)
    refine ⟨a, (congrArg t.find (hkey k a)).trans hfind, fun l b hl => ?_⟩
    rw [hkey]
    exact Finset.min_le_of_eq (mem_entries.mpr ⟨l, b, hl, rfl⟩) hmin

end Index

end Table
