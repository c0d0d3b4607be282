/-
  **Programs that change a state and may throw.**

  A program keeps the changes it has made when it throws, and a handler starts from the
  state of the throw (`EStateM` without backtracking).  `Wp x s Q E` says how the program
  `x` ends when it is run in the state `s`: it returns with `Q`, or it throws with `E`.

  There is one equation for each construct, and `simp` with these equations turns a
  statement about a program into one about the states in between.  A function is then
  described by one theorem about its `Wp`, and `Wp.mono` is how its callers use it.
-/
import Mathlib.Tactic.Common

namespace Imperative

variable {ε σ τ α β : Type}

/-- Run in `s`, the program returns with `Q` or throws with `E`. -/
def Wp (x : EStateM ε σ α) (s : σ) (Q : α → σ → Prop) (E : ε → σ → Prop) : Prop :=
  match x s with
  | .ok a s' => Q a s'
  | .error e s' => E e s'

variable {x : EStateM ε σ α} {s : σ} {Q : α → σ → Prop} {E : ε → σ → Prop} {E' : ε → σ → Prop}
  {Q' : α → σ → Prop} {s' : σ}

theorem Wp.mono (h : Wp x s Q E) (hQ : ∀ a s', Q a s' → Q' a s') (hE : ∀ e s', E e s' → E' e s') :
    Wp x s Q' E' := by
  unfold Wp at *
  split at h
  · exact hQ _ _ h
  · exact hE _ _ h

/-- The rule of consequence for a program that does not throw. -/
theorem Wp.returns (h : Wp x s Q fun _ _ => False) (hQ : ∀ a s', Q a s' → Q' a s') : Wp x s Q' E :=
  h.mono hQ fun _ _ hfalse => hfalse.elim

/-- And for one that does not return. -/
theorem Wp.throws (h : Wp x s (fun _ _ => False) E) (hE : ∀ e s', E e s' → E' e s') : Wp x s Q E' :=
  h.mono (fun _ _ hfalse => hfalse.elim) hE

theorem wp_congr (hQ : ∀ a s', Q a s' ↔ Q' a s') (hE : ∀ e s', E e s' ↔ E' e s') :
    Wp x s Q E ↔ Wp x s Q' E' :=
  ⟨fun h => h.mono (fun a s' => (hQ a s').mp) fun e s' => (hE e s').mp,
    fun h => h.mono (fun a s' => (hQ a s').mpr) fun e s' => (hE e s').mpr⟩

theorem Wp.of_ok {a : α} (h : Wp x s Q E) (hx : x s = .ok a s') : Q a s' := by
  rw [Wp, hx] at h
  exact h

theorem Wp.of_error {e : ε} (h : Wp x s Q E) (hx : x s = .error e s') : E e s' := by
  rw [Wp, hx] at h
  exact h

theorem wp_iff_of_ok {a : α} (hx : x s = .ok a s') : Wp x s Q E ↔ Q a s' := by
  rw [Wp, hx]

theorem Wp.exists_ok (h : Wp x s Q fun _ _ => False) : ∃ a s', x s = .ok a s' ∧ Q a s' := by
  cases hx : x s with
  | ok a s' => exact ⟨a, s', rfl, h.of_ok hx⟩
  | error => exact (h.of_error hx).elim

theorem Wp.exists_error (h : Wp x s (fun _ _ => False) E) : ∃ e s', x s = .error e s' ∧ E e s' := by
  cases hx : x s with
  | ok => exact (h.of_ok hx).elim
  | error e s' => exact ⟨e, s', rfl, h.of_error hx⟩

theorem wp_iff_of_error {e : ε} (hx : x s = .error e s') : Wp x s Q E ↔ E e s' := by
  rw [Wp, hx]

/-! ## 1. The constructs -/

@[simp] theorem wp_pure {a : α} : Wp (pure a : EStateM ε σ α) s Q E ↔ Q a s := Iff.rfl

@[simp] theorem wp_bind {f : α → EStateM ε σ β} {Q : β → σ → Prop} :
    Wp (x >>= f) s Q E ↔ Wp x s (fun a s' => Wp (f a) s' Q E) E := by
  show Wp (EStateM.bind x f) s Q E ↔ _
  unfold Wp EStateM.bind
  cases x s with
  | ok | error => exact Iff.rfl

@[simp] theorem wp_get {Q : σ → σ → Prop} : Wp (get : EStateM ε σ σ) s Q E ↔ Q s s := Iff.rfl

@[simp] theorem wp_modify {f : σ → σ} {Q : PUnit → σ → Prop} :
    Wp (modify f : EStateM ε σ PUnit) s Q E ↔ Q ⟨⟩ (f s) := Iff.rfl

@[simp] theorem wp_throw {e : ε} : Wp (throw e : EStateM ε σ α) s Q E ↔ E e s := Iff.rfl

theorem tryCatch_apply {handler : ε → EStateM ε σ α} :
    (tryCatch x handler : EStateM ε σ α) s =
      match x s with
      | .ok a s' => .ok a s'
      | .error e s' => handler e s' := by
  show EStateM.tryCatch x handler s = _
  unfold EStateM.tryCatch
  cases x s with
  | ok | error => rfl

/-- A handler starts in the state of the throw. -/
@[simp] theorem wp_tryCatch {handler : ε → EStateM ε σ α} :
    Wp (tryCatch x handler) s Q E ↔ Wp x s Q (fun e s' => Wp (handler e) s' Q E) := by
  unfold Wp
  rw [tryCatch_apply]
  cases x s with
  | ok | error => exact Iff.rfl

theorem wp_ite {c : Prop} [Decidable c] {y : EStateM ε σ α} :
    Wp (if c then x else y) s Q E ↔ (c → Wp x s Q E) ∧ (¬ c → Wp y s Q E) := by
  split_ifs with h
  · exact ⟨fun hx => ⟨fun _ => hx, fun hn => absurd h hn⟩, fun hx => hx.1 h⟩
  · exact ⟨fun hy => ⟨fun hc => absurd hc h, fun _ => hy⟩, fun hy => hy.2 h⟩

/-- What a destructor does: when the program throws, the state is cleaned up on the way. -/
def onThrow (cleanup : σ → σ) (x : EStateM ε σ α) : EStateM ε σ α :=
  tryCatch x fun e => do
    modify cleanup
    throw e

@[simp] theorem wp_onThrow {cleanup : σ → σ} :
    Wp (onThrow cleanup x) s Q E ↔ Wp x s Q (fun e s' => E e (cleanup s')) := by
  simp only [onThrow, wp_tryCatch, wp_bind, wp_modify, wp_throw]

def ofExcept {ζ : Type} (f : ζ → ε) (r : Except ζ α) : EStateM ε σ α :=
  match r with
  | .ok a => pure a
  | .error e => throw (f e)

@[simp] theorem wp_ofExcept {ζ : Type} {f : ζ → ε} {r : Except ζ α} :
    Wp (ofExcept f r) s Q E ↔ (∀ a, r = .ok a → Q a s) ∧ ∀ e, r = .error e → E (f e) s := by
  cases r with
  | ok | error => simp [ofExcept]

/-! ## 2. Parts of a state -/

def zoom (part : σ → τ) (put : τ → σ → σ) (x : EStateM ε τ α) : EStateM ε σ α := fun s =>
  match x (part s) with
  | .ok a t => .ok a (put t s)
  | .error e t => .error e (put t s)

@[simp] theorem wp_zoom {part : σ → τ} {put : τ → σ → σ} {x : EStateM ε τ α} :
    Wp (zoom part put x) s Q E ↔
      Wp x (part s) (fun a t => Q a (put t s)) (fun e t => E e (put t s)) := by
  unfold Wp zoom
  cases x (part s) with
  | ok | error => exact Iff.rfl

end Imperative
