/-
  **Checked computations and runs of a transition system.**

  A checked computation either returns a value or stops with the text of the
  check that failed.  A successful run of a sequence of checks is taken apart
  from the outside in: `bind_eq_ok` names the intermediate value, and
  `ensure_eq_ok`, `get_eq_ok` and `emplace_eq_ok` say what a passed check, a
  found row and a fresh row mean.  These equivalences are the whole interface:
  a proof about a checked function rewrites its body with them once and then
  works with the facts.

  The second half is the invariant rule for runs, stated for an arbitrary
  step relation, and the form of it for a property that is only claimed below
  a bound that never shrinks along a run.
-/
import Mathlib.Logic.Relation
import YottaChain.Table

universe v

abbrev Checked (α : Type) : Type := Except String α

namespace Checked

variable {α β : Type}

/-! ## 1. Checks -/

/-- Stop with `msg` unless `c` holds. -/
def ensure (c : Prop) [Decidable c] (msg : String) : Checked Unit :=
  if c then .ok () else .error msg

theorem bind_eq_ok {x : Checked α} {f : α → Checked β} {r : β} :
    (x >>= f) = .ok r ↔ ∃ a, x = .ok a ∧ f a = .ok r := by
  cases x with
  | error =>
    constructor
    · intro h
      cases h
    · rintro ⟨a, h, _⟩
      cases h
  | ok a =>
    constructor
    · intro h
      exact ⟨a, rfl, h⟩
    · rintro ⟨b, h, hf⟩
      cases h
      exact hf

theorem pure_eq_ok {a r : α} : (pure a : Checked α) = .ok r ↔ a = r := Except.ok.injEq a r ▸ Iff.rfl

theorem ok_eq_ok {a r : α} : (Except.ok a : Checked α) = .ok r ↔ a = r :=
  Except.ok.injEq a r ▸ Iff.rfl

theorem ensure_eq_ok {c : Prop} [Decidable c] {msg : String} {x : Unit} :
    ensure c msg = .ok x ↔ c := by
  unfold ensure
  split_ifs with h
  · exact ⟨fun _ => h, fun _ => rfl⟩
  · constructor
    · intro he
      cases he
    · intro hc
      exact absurd hc h

/-- Whether a computation ends with a given result can be evaluated. -/
instance [DecidableEq α] (x : Checked α) (r : α) : Decidable (x = .ok r) :=
  match x with
  | .ok a => decidable_of_iff (a = r) ok_eq_ok.symm
  | .error _ => isFalse nofun

theorem exists_of_map_eq_ok {x : Checked α} {f : α → β} {b : β} (h : x.map f = .ok b) :
    ∃ a, x = .ok a ∧ f a = b := by
  cases x with
  | error => cases h
  | ok a => exact ⟨a, rfl, Except.ok.inj h⟩

end Checked

namespace Table

open Checked

variable {κ α : Type} [DecidableEq κ]

/-- The row under `k`, or stop with `msg`. -/
def get (t : Table κ α) (k : κ) (msg : String) : Checked α :=
  match t.find k with
  | some a => .ok a
  | none => .error msg

/-- Store a new row; a key can be stored only once. -/
def emplace (t : Table κ α) (k : κ) (a : α) : Checked (Table κ α) :=
  match t.find k with
  | some _ => .error "could not insert object, most likely a uniqueness constraint was violated"
  | none => .ok (t.put k a)

variable {msg : String}

theorem get_eq_ok {t : Table κ α} {k : κ} {a : α} : t.get k msg = .ok a ↔ t.find k = some a := by
  unfold get
  cases h : t.find k with
  | none | some => simp

theorem emplace_eq_ok {t t' : Table κ α} {k : κ} {a : α} :
    t.emplace k a = .ok t' ↔ t.find k = none ∧ t.put k a = t' := by
  unfold emplace
  cases h : t.find k with
  | none | some => simp

end Table

namespace Checked

/-- The equivalences above, one for pairs, and one that drops the value of a passed check, as one
    rule.  A rewrite with it takes the body of a checked function apart into the facts that a
    success rests on. -/
theorem ok_iff :
    (∀ {α β : Type} {x : Checked α} {f : α → Checked β} {r : β},
      (x >>= f) = .ok r ↔ ∃ a, x = .ok a ∧ f a = .ok r) ∧
    (∀ {α : Type} {a r : α}, (pure a : Checked α) = .ok r ↔ a = r) ∧
    (∀ {α β : Type} {a a' : α} {b b' : β}, (a, b) = (a', b') ↔ a = a' ∧ b = b') ∧
    (∀ {c : Prop} [Decidable c] {msg : String} {x : Unit}, ensure c msg = .ok x ↔ c) ∧
    (∀ {κ α : Type} [DecidableEq κ] {t : Table κ α} {k : κ} {msg : String} {a : α},
      t.get k msg = .ok a ↔ t.find k = some a) ∧
    (∀ {κ α : Type} [DecidableEq κ] {t t' : Table κ α} {k : κ} {a : α},
      t.emplace k a = .ok t' ↔ t.find k = none ∧ t.put k a = t') ∧
    ∀ {α : Type} [Nonempty α] {p : Prop}, (∃ _ : α, p) ↔ p :=
  ⟨bind_eq_ok, pure_eq_ok, Prod.mk_inj, ensure_eq_ok, Table.get_eq_ok, Table.emplace_eq_ok,
    exists_const _⟩

end Checked

namespace Table

open Checked

variable {κ α : Type} [DecidableEq κ] {msg : String}

/-- Change the row under `k` by a computation that may stop. -/
def modify (t : Table κ α) (k : κ) (msg : String) (g : α → Checked α) : Checked (Table κ α) := do
  let a ← t.get k msg
  let b ← g a
  pure (t.put k b)

def modifyAll (t : Table κ α) (keys : List κ) (msg : String) (g : κ → α → Checked α) :
    Checked (Table κ α) :=
  keys.foldlM (fun t k => t.modify k msg (g k)) t

theorem modify_eq_ok {t t' : Table κ α} {k : κ} {g : α → Checked α} :
    t.modify k msg g = .ok t' ↔ ∃ a b, t.find k = some a ∧ g a = .ok b ∧ t.put k b = t' := by
  simp only [modify, bind_eq_ok, get_eq_ok, pure_eq_ok, exists_and_left]

section ModifyAll

variable {t t' : Table κ α} {keys : List κ} {msg : String} {g : κ → α → Checked α}

/-- Each row is changed once, from what it was at the start. -/
theorem modifyAll_ok (hnodup : keys.Nodup) (h : t.modifyAll keys msg g = .ok t') (k : κ) :
    if k ∈ keys then ∃ a b, t.find k = some a ∧ g k a = .ok b ∧ t'.find k = some b
    else t'.find k = t.find k := by
  induction keys generalizing t with
  | nil =>
    cases h
    exact rfl
  | cons l _ ih =>
    obtain ⟨hl, hrest⟩ := List.nodup_cons.mp hnodup
    rw [modifyAll, List.foldlM_cons, bind_eq_ok] at h
    obtain ⟨t1, hfirst, h⟩ := h
    obtain ⟨a, b, ha, hb, rfl⟩ := modify_eq_ok.mp hfirst
    have hk := ih hrest h
    by_cases hkl : k = l
    · subst hkl
      rw [if_neg hl, find_put_self] at hk
      rw [if_pos (List.mem_cons_self)]
      exact ⟨a, b, ha, hb, hk⟩
    · simp only [find_put_ne _ _ hkl] at hk
      simpa only [List.mem_cons, hkl, false_or] using hk

/-- Nothing stops if nothing stops for any of the rows as they were at the start. -/
theorem exists_modifyAll (hnodup : keys.Nodup) :
    (∃ t', t.modifyAll keys msg g = .ok t') ↔
      ∀ k ∈ keys, ∃ a b, t.find k = some a ∧ g k a = .ok b := by
  constructor
  · rintro ⟨t', h⟩ k hk
    have hrow := modifyAll_ok hnodup h k
    rw [if_pos hk] at hrow
    obtain ⟨a, b, ha, hb, _⟩ := hrow
    exact ⟨a, b, ha, hb⟩
  · intro hall
    induction keys generalizing t with
    | nil => exact ⟨t, rfl⟩
    | cons l keys ih =>
      obtain ⟨hl, hrest⟩ := List.nodup_cons.mp hnodup
      obtain ⟨a, b, ha, hb⟩ := hall l List.mem_cons_self
      have hothers : ∀ k ∈ keys, ∃ a' b', (t.put l b).find k = some a' ∧ g k a' = .ok b' := by
        intro k hk
        have hkl : k ≠ l := fun heq => hl (heq ▸ hk)
        rw [find_put_ne _ _ hkl]
        exact hall k (List.mem_cons_of_mem l hk)
      obtain ⟨t', ht'⟩ := ih hrest hothers
      refine ⟨t', ?_⟩
      rw [modifyAll, List.foldlM_cons, bind_eq_ok]
      exact ⟨t.put l b, modify_eq_ok.mpr ⟨a, b, ha, hb, rfl⟩, ht'⟩

end ModifyAll

end Table

/-! ## 2. Runs -/

namespace Run

variable {σ : Type v} {R : σ → σ → Prop}

/-- Finitely many steps of `R`. -/
abbrev Steps (R : σ → σ → Prop) : σ → σ → Prop := Relation.ReflTransGen R

/-- A property that holds at the start and survives every step holds at the
    end of every run. -/
theorem invariant {P : σ → Prop} (hstep : ∀ s s', P s → R s s' → P s')
    {s s' : σ} (hs : P s) (hrun : Steps R s s') : P s' := by
  induction hrun with
  | refl => exact hs
  | tail _ hlast ih => exact hstep _ _ ih hlast

/-- The same rule for a property that is claimed only while a measure stays
    below a bound, when no step lets the measure shrink. -/
theorem invariant_below {P : σ → Prop} (measure : σ → Nat) {bound : Nat}
    (hmono : ∀ s s', R s s' → measure s ≤ measure s')
    (hstep : ∀ s s', P s → R s s' → measure s' < bound → P s')
    {s s' : σ} (hs : P s) (hrun : Steps R s s') (hb : measure s' < bound) : P s' := by
  induction hrun with
  | refl => exact hs
  | tail _ hlast ih =>
    exact hstep _ _ (ih (Nat.lt_of_le_of_lt (hmono _ _ hlast) hb)) hlast hb

/-- A list of inputs that is worked off is a run. -/
theorem steps_of_foldlM {σ ι : Type} {R : σ → σ → Prop} {step : σ → ι → Checked σ}
    {inputs : List ι} (hstep : ∀ i ∈ inputs, ∀ s s', step s i = .ok s' → R s s') {s s' : σ}
    (h : inputs.foldlM step s = .ok s') : Steps R s s' := by
  induction inputs generalizing s with
  | nil =>
    cases h
    exact .refl
  | cons i _ ih =>
    rw [List.foldlM_cons, Checked.bind_eq_ok] at h
    obtain ⟨s1, hi, hrest⟩ := h
    exact .head (hstep i List.mem_cons_self s s1 hi)
      (ih (fun j hj => hstep j (List.mem_cons_of_mem i hj)) hrest)

end Run
