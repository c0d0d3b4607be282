/-
  **Messages that send messages.**

  Handling a message changes a state and sends further messages, which are
  handled one after the other, each with everything it sends, before the rest.
  The depth of this nesting is limited, and a whole computation stops when one
  message of it does.

  In between, a property of the state may be broken in a way that the messages
  still to be handled will repair.  `exec_rule` therefore takes a property of the
  state *and of the messages in flight*: if handling one message keeps it, with
  the messages sent in place of the one handled, then it holds of the final state
  with nothing in flight.
-/
import YottaChain.Checked

namespace Dispatch

open Checked

variable {σ μ : Type} {handle : σ → μ → Checked (σ × List μ)}

def exec (handle : σ → μ → Checked (σ × List μ)) : ℕ → σ → μ → Checked σ
  | 0, s, m => do
      let (s, sent) ← handle s m
      ensure sent.isEmpty "max inline action depth per transaction reached"
      pure s
  | n + 1, s, m => do
      let (s, sent) ← handle s m
      sent.foldlM (exec handle n) s

theorem foldlM_rule {step : σ → μ → Checked σ} {I : σ → List μ → Prop}
    (hstep : ∀ s m rest s', I s (m :: rest) → step s m = .ok s' → I s' rest)
    {sent rest : List μ} {s s' : σ} (h : I s (sent ++ rest))
    (hrun : sent.foldlM step s = .ok s') : I s' rest := by
  induction sent generalizing s with
  | nil =>
    cases hrun
    exact h
  | cons m sent ih =>
    rw [List.foldlM_cons, bind_eq_ok] at hrun
    obtain ⟨s1, hm, hrest⟩ := hrun
    exact ih (hstep s m (sent ++ rest) s1 h hm) hrest

theorem foldlM_invariant {step : σ → μ → Checked σ} {P : σ → Prop}
    (hstep : ∀ s m s', P s → step s m = .ok s' → P s') {sent : List μ} {s s' : σ} (h : P s)
    (hrun : sent.foldlM step s = .ok s') : P s' :=
  @foldlM_rule σ μ step (fun s _ => P s) (fun s m _ s' => hstep s m s') sent [] s s' h hrun

/-- What handling one message keeps, of the state and the messages in flight, a
    whole computation keeps. -/
theorem exec_rule {I : σ → List μ → Prop}
    (hstep : ∀ s m rest s' sent, I s (m :: rest) → handle s m = .ok (s', sent) →
      I s' (sent ++ rest))
    (n : ℕ) {s s' : σ} {m : μ} {rest : List μ} (h : I s (m :: rest))
    (hrun : exec handle n s m = .ok s') : I s' rest := by
  induction n generalizing s m s' rest with
  | zero =>
    simp only [exec, ok_iff] at hrun
    obtain ⟨⟨s1, sent⟩, hm, hempty, rfl⟩ := hrun
    have hnone : sent = [] := List.isEmpty_iff.mp hempty
    subst hnone
    exact hstep s m rest s1 [] h hm
  | succ _ ih =>
    simp only [exec, bind_eq_ok] at hrun
    obtain ⟨⟨s1, sent⟩, hm, hsent⟩ := hrun
    have hkept : I s1 (sent ++ rest) := hstep s m rest s1 sent h hm
    exact foldlM_rule (I := I) (fun _ _ _ _ hI hr => ih hI hr) hkept hsent

end Dispatch
