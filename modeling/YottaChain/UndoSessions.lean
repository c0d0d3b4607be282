/-
  **Databases with undo sessions.**

  A session remembers the state it was opened in.  To undo it is to go back to that
  state; to squash it is to keep the changes and forget the state, so that the changes
  belong to the session around it.  Sessions are nested, and a revision counts them; a
  commit makes what has been done up to a revision permanent.

  The operations are a parameter (`UndoSessions`), and its laws are all that is known about
  them.  A database and the states it can still go back to are related to a list of
  contexts by `Db.Fits`, with one context for each state; the list grows and shrinks with
  the sessions, and each operation has its rule.

  `UndoStack` is the plainest database that obeys the laws: a list of the remembered
  states.  Samples are evaluated with it.
-/
import Mathlib.Data.List.Basic

/-- The operations on databases over the states `δ`, and the laws that they obey. -/
class UndoSessions (δ : Type) where
  Db : Type
  /-- A database without sessions. -/
  fresh : δ → Db
  current : Db → δ
  put : δ → Db → Db
  revision : Db → Nat
  session : Db → Db
  undo : Db → Db
  squash : Db → Db
  commit : Nat → Db → Db
  current_fresh (d : δ) : current (fresh d) = d
  current_put (d : δ) (db : Db) : current (put d db) = d
  put_current (db : Db) : put (current db) db = db
  put_put (d e : δ) (db : Db) : put d (put e db) = put d db
  current_session (db : Db) : current (session db) = current db
  revision_session (d : δ) (db : Db) : revision (put d (session db)) = revision db + 1
  undo_session (d : δ) (db : Db) : undo (put d (session db)) = db
  squash_session (d : δ) (db : Db) : squash (put d (session db)) = put d db
  current_commit (n : Nat) (db : Db) : current (commit n db) = current db
  /-- A session that is opened after the revision stays open. -/
  commit_session (n : Nat) (d : δ) (db : Db) : n ≤ revision db →
    commit n (put d (session db)) = put d (session (commit n db))

namespace UndoSessions.Db

variable {δ κ : Type} [UndoSessions δ]

def current (db : Db δ) : δ := UndoSessions.current db

def put (d : δ) (db : Db δ) : Db δ := UndoSessions.put d db

def modify (f : δ → δ) (db : Db δ) : Db δ := db.put (f db.current)

def revision (db : Db δ) : Nat := UndoSessions.revision db

def session (db : Db δ) : Db δ := UndoSessions.session db

def undo (db : Db δ) : Db δ := UndoSessions.undo db

def squash (db : Db δ) : Db δ := UndoSessions.squash db

def commit (db : Db δ) (n : Nat) : Db δ := UndoSessions.commit n db

variable (db : Db δ) (d e : δ)

@[simp] theorem current_put : (db.put d).current = d := UndoSessions.current_put d db

@[simp] theorem put_put : (db.put e).put d = db.put d := UndoSessions.put_put d e db

@[simp] theorem current_session : db.session.current = db.current := UndoSessions.current_session db

theorem put_session_current : db.session.put db.current = db.session := by
  have hput : db.session.put db.session.current = db.session := UndoSessions.put_current _
  rwa [current_session] at hput

@[simp] theorem undo_put : (db.session.put d).undo = db := UndoSessions.undo_session d db

@[simp] theorem squash_put : (db.session.put d).squash = db.put d :=
  UndoSessions.squash_session d db

@[simp] theorem undo_session : db.session.undo = db := by
  rw [← put_session_current, undo_put]

@[simp] theorem current_commit (n : Nat) : (db.commit n).current = db.current :=
  UndoSessions.current_commit n db

/-- The current state has the first context, and the states that it can still go back to
    have the others, innermost first. -/
inductive Fits (R : κ → δ → Prop) : List κ → Db δ → Prop where
  | base {c : κ} {db : Db δ} : R c db.current → Fits R [c] db
  | level {c : κ} {contexts : List κ} {db : Db δ} {d : δ} :
      R c d → Fits R contexts db → Fits R (c :: contexts) (db.session.put d)

namespace Fits

variable {R : κ → δ → Prop} {c c' : κ} {contexts : List κ} {db : Db δ}

theorem fresh {d : δ} (h : R c d) : Fits R [c] (UndoSessions.fresh d) := by
  have hcurrent : (UndoSessions.fresh d : Db δ).current = d := UndoSessions.current_fresh d
  refine .base ?_
  rw [hcurrent]
  exact h

theorem current (h : Fits R (c :: contexts) db) : R c db.current := by
  cases h with
  | base hc => exact hc
  | level hc _ =>
    rw [current_put]
    exact hc

theorem put {d : δ} (h : Fits R (c :: contexts) db) (hc : R c' d) :
    Fits R (c' :: contexts) (db.put d) := by
  cases h with
  | base => exact .base ((db.current_put d).symm ▸ hc)
  | level _ hrest =>
    rw [put_put]
    exact .level hc hrest

/-- A session with no change yet is in the context of the state around it. -/
theorem session (h : Fits R (c :: contexts) db) : Fits R (c :: c :: contexts) db.session := by
  rw [← put_session_current]
  exact .level h.current h

theorem undo (h : Fits R (c :: c' :: contexts) db) : Fits R (c' :: contexts) db.undo := by
  cases h with
  | level _ hrest =>
    rw [undo_put]
    exact hrest

theorem squash (h : Fits R (c :: c' :: contexts) db) (hc : R c' db.current) :
    Fits R (c' :: contexts) db.squash := by
  cases h with
  | level _ hrest =>
    rw [current_put] at hc
    rw [squash_put]
    exact hrest.put hc

/-- Of a commit the innermost `k` sessions are left, if it goes up to the revision before
    them. -/
theorem commit (h : Fits R contexts db) (k : Nat) :
    Fits R (contexts.take (k + 1)) (db.commit (db.revision - k)) := by
  induction h generalizing k with
  | @base c db hc =>
    rw [List.take_succ_cons, List.take_nil]
    exact .base ((db.current_commit _).symm ▸ hc)
  | @level c contexts db d hc hrest ih =>
    have hrevision : (db.session.put d).revision = db.revision + 1 :=
      UndoSessions.revision_session d db
    rw [hrevision]
    cases k with
    | zero =>
      refine .base ?_
      rw [current_commit, current_put]
      exact hc
    | succ k =>
      have hcommit : (db.session.put d).commit (db.revision - k) =
          (db.commit (db.revision - k)).session.put d :=
        UndoSessions.commit_session _ d db (Nat.sub_le _ _)
      rw [Nat.add_sub_add_right, hcommit]
      exact .level hc (ih k)

end Fits

end UndoSessions.Db

structure UndoStack (δ : Type) where
  current : δ
  saved : List δ
  revision : Nat

namespace UndoStack

variable {δ : Type}

def undo (u : UndoStack δ) : UndoStack δ :=
  match u.saved with
  | [] => u
  | d :: rest => ⟨d, rest, u.revision - 1⟩

def squash (u : UndoStack δ) : UndoStack δ :=
  match u.saved with
  | [] => u
  | _ :: rest => ⟨u.current, rest, u.revision - 1⟩

instance : UndoSessions δ where
  Db := UndoStack δ
  fresh d := ⟨d, [], 0⟩
  current u := u.current
  put d u := { u with current := d }
  revision u := u.revision
  session u := ⟨u.current, u.current :: u.saved, u.revision + 1⟩
  undo u := u.undo
  squash u := u.squash
  commit n u := { u with saved := u.saved.take (u.revision - n) }
  current_fresh _ := rfl
  current_put _ _ := rfl
  put_current _ := rfl
  put_put _ _ _ := rfl
  current_session _ := rfl
  revision_session _ _ := rfl
  undo_session _ _ := rfl
  squash_session _ _ := rfl
  current_commit _ _ := rfl
  commit_session n d u hn := by
    show UndoStack.mk _ _ _ = UndoStack.mk _ _ _
    rw [Nat.succ_sub hn, List.take_succ_cons]

end UndoStack
