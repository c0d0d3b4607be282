/-
  **Maps as lists of entries with distinct keys.**

  A map is a list of entries, in no particular order; that the keys are distinct is part
  of it.  `assign` writes an entry, new or not.  Counting the entries with a property
  after an `assign` is counting the other entries and the new one.
-/
import YottaChain.KeyedList

structure FlatMap (κ α : Type) where
  entries : List (κ × α)
  keys : (entries.map Prod.fst).Nodup

namespace FlatMap

open List

variable {κ α : Type}

instance : EmptyCollection (FlatMap κ α) := ⟨⟨[], nodup_nil⟩⟩

variable [DecidableEq κ] {m : FlatMap κ α}

/-- The value under `k`. -/
def find (m : FlatMap κ α) (k : κ) : Option α :=
  (m.entries.find? fun e => decide (e.1 = k)).map Prod.snd

def others (m : FlatMap κ α) (k : κ) : List (κ × α) := m.entries.filter fun e => decide (e.1 ≠ k)

/-- Write `a` under `k`. -/
def assign (m : FlatMap κ α) (k : κ) (a : α) : FlatMap κ α where
  entries := (k, a) :: m.others k
  keys := by
    rw [map_cons, nodup_cons]
    refine ⟨fun hmem => ?_, m.keys.sublist (filter_sublist.map _)⟩
    obtain ⟨e, he, hkey⟩ := mem_map.mp hmem
    exact of_decide_eq_true (mem_filter.mp he).2 hkey

def ofKeys (f : κ → α) (l : List κ) : FlatMap κ α := l.foldl (fun m k => m.assign k (f k)) ∅

theorem find_eq_some {k : κ} {a : α} : m.find k = some a ↔ (k, a) ∈ m.entries := by
  unfold find
  rw [Option.map_eq_some_iff]
  constructor
  · rintro ⟨e, he, rfl⟩
    obtain ⟨hmem, rfl⟩ := (KeyedList.find_eq_some_iff m.keys).mp he
    exact hmem
  · intro hmem
    exact ⟨(k, a), (KeyedList.find_eq_some_iff m.keys).mpr ⟨hmem, rfl⟩, rfl⟩

theorem mem_others {k : κ} {e : κ × α} : e ∈ m.others k ↔ e ∈ m.entries ∧ e.1 ≠ k := by
  rw [others, mem_filter, decide_eq_true_eq]

theorem others_sublist (m : FlatMap κ α) (k : κ) : (m.others k).Sublist m.entries := filter_sublist

theorem length_le_others (m : FlatMap κ α) (k : κ) :
    m.entries.length ≤ (m.others k).length + 1 := by
  have hone : (m.entries.filter fun e => !decide (e.1 ≠ k)).length ≤ 1 := by
    rw [← countP_eq_length_filter]
    calc m.entries.countP (fun e => !decide (e.1 ≠ k))
        = (m.entries.map Prod.fst).count k := by
          rw [List.count, countP_map]
          exact countP_congr fun e _ => by simp
      _ ≤ 1 := nodup_iff_count_le_one.mp m.keys k
  calc m.entries.length
      = (m.others k).length + (m.entries.filter fun e => !decide (e.1 ≠ k)).length :=
        length_eq_length_filter_add _
    _ ≤ (m.others k).length + 1 := Nat.add_le_add_left hone _

theorem others_assign_self (m : FlatMap κ α) (k : κ) (a : α) :
    (m.assign k a).others k = m.others k := by
  have hkept : (m.others k).filter (fun e => decide (e.1 ≠ k)) = m.others k :=
    filter_eq_self.mpr fun e he => decide_eq_true (mem_others.mp he).2
  rw [others, assign, filter_cons_of_neg (by simp), hkept]

theorem find_assign (m : FlatMap κ α) (k l : κ) (a : α) :
    (m.assign k a).find l = if l = k then some a else m.find l := by
  refine Option.ext fun b => ?_
  rw [find_eq_some, assign, mem_cons, mem_others]
  split_ifs with heq
  · subst heq
    constructor
    · rintro (h | ⟨_, hne⟩)
      · exact congrArg some (Prod.mk.inj h).2.symm
      · exact absurd rfl hne
    · intro h
      rw [Option.some.inj h]
      exact .inl rfl
  · rw [find_eq_some]
    constructor
    · rintro (h | ⟨hmem, _⟩)
      · exact absurd (Prod.mk.inj h).1 heq
      · exact hmem
    · intro hmem
      exact .inr ⟨hmem, heq⟩

theorem find_ofKeys (f : κ → α) (l : List κ) (k : κ) :
    (ofKeys f l).find k = if k ∈ l then some (f k) else none := by
  have hgen : ∀ (l : List κ) (m : FlatMap κ α),
      (l.foldl (fun m k => m.assign k (f k)) m).find k = if k ∈ l then some (f k) else m.find k := by
    intro l
    induction l with
    | nil =>
      intro m
      simp
    | cons x l ih =>
      intro m
      rw [foldl_cons, ih, find_assign]
      by_cases hl : k ∈ l
      · simp [hl]
      · by_cases hx : k = x
        · simp [hx]
        · simp [hl, hx]
  rw [ofKeys, hgen]
  rfl

theorem forall_assign {P : α → Prop} (h : ∀ e ∈ m.entries, P e.2) (k : κ) {a : α} (ha : P a) :
    ∀ e ∈ (m.assign k a).entries, P e.2 := by
  exact forall_mem_cons.mpr ⟨ha, fun e he => h e (mem_others.mp he).1⟩

theorem forall_ofKeys {f : κ → α} {P : α → Prop} (h : ∀ k, P (f k)) (l : List κ) :
    ∀ e ∈ (ofKeys f l).entries, P e.2 := by
  rintro ⟨k, a⟩ he
  have hfind := find_eq_some.mpr he
  rw [find_ofKeys] at hfind
  split at hfind
  · rw [← Option.some.inj hfind]
    exact h k
  · cases hfind

end FlatMap
