/-
  **A free list threaded through the cells of a table.**

  The cells have keys of an arbitrary type.  `next` is what a cell stores about
  its successor and `free` which cells are free; the list starts at `head` and
  ends when it arrives at `stop`, a key that is no free cell.  `Holds` says that
  the list visits the free cells, each exactly once.  The three rules are the
  three moves of an allocator: take the first cell, put a cell in front, and
  move the end of an empty list.
-/
import Mathlib.Data.List.Nodup

universe u

namespace FreeList

open List

variable {κ : Type u} {next next' : κ → Option κ} {l : List κ} {stop head : κ} {free : κ → Prop}

/-- From `start` one runs through the members of `l` in order and arrives at
    `stop`. -/
def Threads (next : κ → Option κ) : κ → List κ → κ → Prop
  | start, [], stop => start = stop
  | start, k :: l, stop => start = k ∧ ∃ k', next k = some k' ∧ Threads next k' l stop

theorem Threads.congr {start : κ} (h : Threads next start l stop)
    (heq : ∀ k ∈ l, next' k = next k) :
    Threads next' start l stop := by
  induction l generalizing start with
  | nil => exact h
  | cons _ _ ih =>
    obtain ⟨rfl, k', hnext, hrest⟩ := h
    refine ⟨rfl, k', ?_, ih hrest fun j hj => heq j (mem_cons_of_mem _ hj)⟩
    rw [heq start mem_cons_self]
    exact hnext

/-- The list from `head` to `stop` holds exactly the free cells, each once. -/
structure Holds (next : κ → Option κ) (free : κ → Prop) (head stop : κ) (l : List κ) : Prop where
  threads : Threads next head l stop
  nodup : l.Nodup
  members : ∀ k, k ∈ l ↔ free k

theorem Holds.nil (h : κ) (hnone : ∀ k, ¬ free k) :
    Holds next free h h [] where
  threads := rfl
  nodup := nodup_nil
  members := fun k => ⟨fun hk => absurd hk not_mem_nil, fun hk => absurd hk (hnone k)⟩

theorem Holds.none_free (h : Holds next free stop stop l) (hstop : ¬ free stop) (k : κ) :
    ¬ free k := by
  cases l with
  | nil =>
    rw [← h.members k]
    exact not_mem_nil
  | cons =>
    obtain ⟨rfl, _⟩ := h.threads
    exact absurd ((h.members stop).mp mem_cons_self) hstop

theorem Holds.head_free (h : Holds next free head stop l) (hne : head ≠ stop) : free head := by
  cases l with
  | nil => exact absurd h.threads hne
  | cons =>
    obtain ⟨rfl, _⟩ := h.threads
    exact (h.members head).mp mem_cons_self

theorem Holds.pop {free' : κ → Prop} {head' : κ} (h : Holds next free head stop l)
    (hne : head ≠ stop) (hnext : next head = some head') (hsame : ∀ k, k ≠ head → next' k = next k)
    (hfree : ∀ k, free' k ↔ free k ∧ k ≠ head) : ∃ l', Holds next' free' head' stop l' := by
  cases l with
  | nil => exact absurd h.threads hne
  | cons _ l =>
    obtain ⟨rfl, k', hk', hrest⟩ := h.threads
    rw [hnext] at hk'
    cases hk'
    obtain ⟨hnotin, hnodup⟩ := nodup_cons.mp h.nodup
    have hother : ∀ j ∈ l, j ≠ head := fun j hj hjh => hnotin (hjh ▸ hj)
    refine ⟨l, hrest.congr fun j hj => hsame j (hother j hj), hnodup, fun j => ?_⟩
    rw [hfree, ← h.members, mem_cons]
    constructor
    · exact fun hj => ⟨.inr hj, hother j hj⟩
    · rintro ⟨rfl | hj, hjne⟩
      · exact absurd rfl hjne
      · exact hj

theorem Holds.push {free' : κ → Prop} {k : κ} (h : Holds next free head stop l) (hk : ¬ free k)
    (hnext : next' k = some head) (hsame : ∀ j, j ≠ k → next' j = next j)
    (hfree : ∀ j, free' j ↔ free j ∨ j = k) :
    Holds next' free' k stop (k :: l) := by
  have hnotin : k ∉ l := fun hmem => hk ((h.members k).mp hmem)
  have hother : ∀ j ∈ l, j ≠ k := fun j hj hjk => hnotin (hjk ▸ hj)
  refine ⟨⟨rfl, head, hnext, h.threads.congr fun j hj => hsame j (hother j hj)⟩,
    nodup_cons.mpr ⟨hnotin, h.nodup⟩, fun j => ?_⟩
  rw [hfree, ← h.members, mem_cons, or_comm]

end FreeList
