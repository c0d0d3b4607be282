/-
  **The producer schedule pipeline** (`controller.cpp`, `start_block` and
  `set_proposed_producers`).

  A schedule is proposed by a contract into the database, is announced by a later block
  when the block of the proposal is irreversible, and is active when the block of the
  announcement is.  Its version is chosen when it is proposed and tested when it is
  announced, and there may be a promotion in between.

  The schedules of a block are in its header state, the proposal is in the database, and
  the two go back together when a block is aborted or a fork is undone.  The transactions
  of a block, the one that `start_block` itself pushes among them, are calls of
  `set_proposed_producers` in sessions that are kept or undone.
-/
import YottaChain.BlockHeaderState
import YottaChain.UndoSessions

namespace YottaChain.Schedules

open Checked Headers HeaderState List

/-! ## 1. A node -/

structure GlobalProperty where
  proposedScheduleBlockNum : Option UInt32
  proposedSchedule : ProducerSchedule
deriving DecidableEq

section Model

variable [UndoSessions GlobalProperty]

structure PendingBlock where
  state : HeaderState
  wasPendingPromoted : Bool
  /-- `header.new_producers`. -/
  newProducers : Option ProducerSchedule

structure Node [UndoSessions GlobalProperty] where
  head : HeaderState
  /-- The blocks before the head, newest first. -/
  below : List HeaderState
  db : UndoSessions.Db GlobalProperty
  pending : Option PendingBlock
  /-- The sessions that transactions of the pending block have open. -/
  sessions : Nat

def newestSchedule (s : HeaderState) : ProducerSchedule :=
  if s.pendingSchedule.producers = [] then s.activeSchedule else s.pendingSchedule

/-- Signing keys are not kept: whether one differs from the proposed schedule, and from the
    newest one, when the names are the same. -/
structure Rekeyed where
  proposed : Bool
  newest : Bool

namespace Node

/-! ## 2. The operations -/

def buildState (head : HeaderState) (slot : UInt32) (confirmBlockCount : UInt16) :
    Checked (HeaderState × Bool) := do
  let state ← head.generateNext slot
  pure (state.setConfirmed confirmBlockCount).maybePromotePending

def isDue (g : GlobalProperty) (state : HeaderState × Bool) : Bool :=
  g.proposedScheduleBlockNum.any (fun num => num ≤ state.1.dposIrreversibleBlocknum) &&
    state.1.pendingSchedule.producers.isEmpty && !state.2

def promoteProposed (g : GlobalProperty) (state : HeaderState × Bool) :
    Checked (PendingBlock × GlobalProperty) :=
  if isDue g state then do
    let announced ← state.1.setNewProducers g.proposedSchedule
    pure (⟨announced, state.2, some g.proposedSchedule⟩, ⟨none, ⟨0, []⟩⟩)
  else pure (⟨state.1, state.2, none⟩, g)

/-- `start_block`; `modifies` when the block is not an incomplete one outside of the
    speculative mode. -/
def startBlock (n : Node) (slot : UInt32) (confirmBlockCount : UInt16) (modifies : Bool) :
    Checked Node := do
  ensure (n.pending.isNone = true) "pending block already exists"
  let state ← buildState n.head slot confirmBlockCount
  let (pending, g) ← (if modifies then promoteProposed n.db.current state
    else pure (⟨state.1, state.2, none⟩, n.db.current) : Checked (PendingBlock × GlobalProperty))
  pure { n with
    db := n.db.session.put g
    pending := some pending
    sessions := 0 }

def isProposed (g : GlobalProperty) (curBlockNum : UInt32) (producers : List Name)
    (rekeyed : Rekeyed) : Bool :=
  g.proposedScheduleBlockNum.any fun num =>
    num != curBlockNum || (producers == g.proposedSchedule.producers && !rekeyed.proposed)

/-- `set_proposed_producers`, with the version it returns. -/
def setProposedProducers (n : Node) (producers : List Name) (rekeyed : Rekeyed) :
    Checked (Node × Int) :=
  match n.pending with
  | none => .error "no pending block"
  | some pending =>
      let curBlockNum := n.head.blockNum + 1
      let newest := newestSchedule pending.state
      if isProposed n.db.current curBlockNum producers rekeyed then .ok (n, -1)
      else if producers = newest.producers ∧ rekeyed.newest = false then .ok (n, -1)
      else
        let sch : ProducerSchedule := ⟨newest.version + 1, producers⟩
        .ok ({ n with db := n.db.put ⟨some curBlockNum, sch⟩ }, sch.version.toNat)

def openSession (n : Node) : Checked Node := do
  ensure (n.pending.isSome = true) "no pending block"
  pure { n with db := n.db.session, sessions := n.sessions + 1 }

def closeSession (n : Node) (keep : Bool) : Checked Node :=
  match n.sessions with
  | 0 => .error "no open session"
  | k + 1 => .ok { n with db := if keep then n.db.squash else n.db.undo, sessions := k }

/-- `commit_block` at the end of all transactions. -/
def commitBlock (n : Node) : Checked Node := do
  ensure (n.sessions = 0) "a transaction is open"
  match n.pending with
  | none => .error "no pending block"
  | some pending =>
      pure { n with head := pending.state, below := n.head :: n.below, pending := none }

/-- `abort_block`; nothing is pending when it is called between blocks. -/
def abortBlock (n : Node) : Checked Node := do
  ensure (n.sessions = 0) "a transaction is open"
  pure (if n.pending.isSome then { n with db := n.db.undo, pending := none } else n)

def popBlock (n : Node) : Checked Node := do
  ensure (n.pending.isNone = true) "there is a pending block"
  match n.below with
  | [] => .error "attempt to pop beyond last irreversible block"
  | prev :: below => pure { n with head := prev, below := below, db := n.db.undo }

end Node

inductive Op where
  | startBlock (slot : UInt32) (confirmBlockCount : UInt16) (modifies : Bool)
  | setProposedProducers (producers : List Name) (rekeyed : Rekeyed)
  | openSession
  | closeSession (keep : Bool)
  | commitBlock
  | abortBlock
  | popBlock

def Node.apply (n : Node) : Op → Checked Node
  | .startBlock slot confirmBlockCount modifies => n.startBlock slot confirmBlockCount modifies
  | .setProposedProducers producers rekeyed => (n.setProposedProducers producers rekeyed).map Prod.fst
  | .openSession => n.openSession
  | .closeSession keep => n.closeSession keep
  | .commitBlock => n.commitBlock
  | .abortBlock => n.abortBlock
  | .popBlock => n.popBlock

/-- A node at the genesis state: nothing is proposed. -/
def initialNode (producers : List Name) (timestamp : UInt32) : Node where
  head := genesis ⟨0, producers⟩ timestamp
  below := []
  db := UndoSessions.fresh ⟨none, ⟨0, []⟩⟩
  pending := none
  sessions := 0

def Step (n n' : Node) : Prop := ∃ op, n.apply op = .ok n'

end Model

/-! ## 3. Schedules in step -/

def Made (s : HeaderState) : Prop := s.producerToLastProduced.entries ≠ []

/-- The genesis state: no block has been made, and the pending schedule is the active one. -/
structure Fresh (s : HeaderState) : Prop where
  unmade : ¬ Made s
  lib : s.pendingScheduleLibNum = 0
  same : s.pendingSchedule = s.activeSchedule

theorem fresh_genesis (schedule : ProducerSchedule) (timestamp : UInt32) :
    Fresh (genesis schedule timestamp) :=
  ⟨fun h => h rfl, rfl, rfl⟩

structure Ready (s : HeaderState) (g : GlobalProperty) : Prop where
  pending : s.pendingSchedule.producers ≠ [] →
    Fresh s ∨ s.pendingSchedule.version = s.activeSchedule.version + 1
  proposed : ∀ num ∈ g.proposedScheduleBlockNum,
    g.proposedSchedule.version = (newestSchedule s).version + 1

section Building

variable {s s' : HeaderState} {slot : UInt32} {confirmBlockCount : UInt16} {promoted : Bool}
  {g : GlobalProperty}

inductive Built (s s' : HeaderState) : Bool → Prop where
  | promoted : s.pendingSchedule.producers ≠ [] → s'.activeSchedule = s.pendingSchedule →
      s'.pendingSchedule.producers = [] → Built s s' true
  | kept : s'.activeSchedule = s.activeSchedule → s'.pendingSchedule = s.pendingSchedule →
      (Fresh s → s.pendingSchedule.producers = []) → Built s s' false

theorem generateNext_ok (h : s.generateNext slot = .ok s') :
    s'.activeSchedule = s.activeSchedule ∧ s'.pendingSchedule = s.pendingSchedule ∧
      s'.pendingScheduleLibNum = s.pendingScheduleLibNum ∧
      s'.producerToLastProduced.entries ≠ [] := by
  simp only [generateNext, ok_iff] at h
  obtain ⟨_, hstate⟩ := h
  cases hscheduled : s.getScheduledProducer (if slot ≠ 0 then slot else s.timestamp + 1) with
  | none =>
    rw [hscheduled] at hstate
    cases hstate
  | some =>
    rw [hscheduled] at hstate
    cases hstate
    exact ⟨rfl, rfl, rfl, cons_ne_nil _ _⟩

theorem buildState_ok (h : Node.buildState s slot confirmBlockCount = .ok (s', promoted)) :
    Built s s' promoted ∧ Made s' := by
  simp only [Node.buildState, ok_iff] at h
  obtain ⟨state, hstate, hpromoted⟩ := h
  obtain ⟨hactive, hpending, hlib, hproduced⟩ := generateNext_ok hstate
  unfold maybePromotePending at hpromoted
  split_ifs at hpromoted with hready
  · cases hpromoted
    refine ⟨.promoted ?_ hpending rfl, cons_ne_nil _ _⟩
    rw [← hpending]
    exact hready.1
  · cases hpromoted
    refine ⟨.kept hactive hpending fun hfresh => ?_, hproduced⟩
    by_contra hne
    refine hready ⟨fun hempty => hne ?_, ?_⟩
    · rw [← hpending]
      exact hempty
    · show state.pendingScheduleLibNum ≤ state.dposIrreversibleBlocknum
      rw [hlib, hfresh.lib]
      exact UInt32.zero_le

/-- Building keeps the versions in step: a promotion makes the newest schedule the active one. -/
theorem Ready.built (hready : Ready s g) (hbuilt : Built s s' promoted) : Ready s' g := by
  cases hbuilt with
  | promoted hne hactive hempty =>
    refine ⟨fun h => absurd hempty h, fun num hnum => ?_⟩
    rw [hready.proposed num hnum, newestSchedule, newestSchedule, if_neg hne, if_pos hempty,
      hactive]
  | kept hactive hpending hstart =>
    constructor
    · intro hne
      rw [hpending] at hne
      rcases hready.pending hne with h | h
      · exact absurd (hstart h) hne
      · rw [hpending, hactive]
        exact .inr h
    · intro num hnum
      rw [hready.proposed num hnum, newestSchedule, newestSchedule, hactive, hpending]

/-- A new block on top of `s`. -/
structure Opened (s : HeaderState) (p : PendingBlock) : Prop where
  made : Made p.state
  announced : ∀ schedule, p.newProducers = some schedule → s.pendingSchedule.producers = [] ∧
    p.state.pendingSchedule = schedule ∧ schedule.version = p.state.activeSchedule.version + 1
  promoted : p.wasPendingPromoted = true → p.state.activeSchedule = s.pendingSchedule ∧
    (Fresh s ∨ s.pendingSchedule.version = s.activeSchedule.version + 1)
  kept : p.wasPendingPromoted = false → p.state.activeSchedule = s.activeSchedule

theorem Opened.of_built (hready : Ready s g) (hbuilt : Built s s' promoted) (hmade : Made s') :
    Opened s ⟨s', promoted, none⟩ := by
  refine ⟨hmade, (fun _ h => nomatch h), fun h => ?_, fun h => ?_⟩
  · cases h
    cases hbuilt with
    | promoted hne hactive => exact ⟨hactive, hready.pending hne⟩
  · cases h
    cases hbuilt with
    | kept hactive => exact hactive

theorem isDue_iff : Node.isDue g (s, promoted) = true ↔
    (∃ num ∈ g.proposedScheduleBlockNum, num ≤ s.dposIrreversibleBlocknum) ∧
      s.pendingSchedule.producers = [] ∧ promoted = false := by
  simp [Node.isDue, Option.any_eq_true, and_assoc]

/-- A proposal that is due has the version that `set_new_producers` expects. -/
theorem promoteProposed_ready (hready : Ready s g) (hbuilt : Built s s' promoted)
    (hmade : Made s') :
    ∃ p g', Node.promoteProposed g (s', promoted) = .ok (p, g') ∧ Opened s p ∧ Ready p.state g' := by
  have hready' := hready.built hbuilt
  unfold Node.promoteProposed
  by_cases hdue : Node.isDue g (s', promoted) = true
  · obtain ⟨⟨num, hnum, _⟩, hempty, rfl⟩ := isDue_iff.mp hdue
    have hversion : g.proposedSchedule.version = s'.activeSchedule.version + 1 := by
      rw [hready'.proposed num hnum, newestSchedule, if_pos hempty]
    have hset : s'.setNewProducers g.proposedSchedule = .ok { s' with
        pendingSchedule := g.proposedSchedule, pendingScheduleLibNum := s'.blockNum } := by
      simp only [setNewProducers, ok_iff]
      exact ⟨hversion, hempty, trivial⟩
    rw [if_pos hdue, hset]
    refine ⟨_, _, rfl, ?_, fun _ => .inr hversion, fun _ h => by cases h⟩
    cases hbuilt with
    | kept hactive hpending _ =>
      refine ⟨hmade, ?_, (fun h => by cases h), fun _ => hactive⟩
      intro schedule hschedule
      cases hschedule
      exact ⟨hpending ▸ hempty, rfl, hversion⟩
  · rw [if_neg hdue]
    exact ⟨_, _, rfl, .of_built hready hbuilt hmade, hready'⟩

end Building

/-! ## 4. Runs -/

def Grown (blocks : List HeaderState) : Prop :=
  ∀ s l, s :: l <:+ blocks → (Fresh s → l = []) ∧ s.activeSchedule.version.toNat ≤ l.length

variable {s : HeaderState} {blocks : List HeaderState}

theorem Grown.tail (h : Grown (s :: blocks)) : Grown blocks :=
  fun t l hsuffix => h t l (hsuffix.trans (suffix_cons s blocks))

theorem Grown.cons (h : Grown blocks) (hmade : Made s)
    (hversion : s.activeSchedule.version.toNat ≤ blocks.length) : Grown (s :: blocks) := by
  intro t l hsuffix
  rcases suffix_cons_iff.mp hsuffix with heq | hsuffix
  · obtain ⟨rfl, rfl⟩ := List.cons.inj heq
    exact ⟨fun hfresh => absurd hmade hfresh.unmade, hversion⟩
  · exact h t l hsuffix

/-- A new block takes the active schedule at most one version on, and exactly one where the head
    is not the genesis state. -/
theorem Opened.version_le {p : PendingBlock} (hopened : Opened s p) :
    p.state.activeSchedule.version.toNat ≤ s.activeSchedule.version.toNat + 1 := by
  cases hp : p.wasPendingPromoted with
  | false =>
    rw [hopened.kept hp]
    exact Nat.le_succ _
  | true =>
    obtain ⟨hactive, hfresh | hversion⟩ := hopened.promoted hp
    all_goals rw [hactive]
    · rw [hfresh.same]
      exact Nat.le_succ _
    · rw [hversion, UInt32.toNat_add]
      exact Nat.mod_le _ _

section Runs

variable [UndoSessions GlobalProperty]

def Node.contexts (n : Node) : List HeaderState :=
  match n.pending with
  | none => n.head :: n.below
  | some p => replicate (n.sessions + 1) p.state ++ n.head :: n.below

variable {n n' : Node} {producers : List Name} {rekeyed : Rekeyed} {version : Int}

theorem setProposedProducers_ok (h : n.setProposedProducers producers rekeyed = .ok (n', version)) :
    ∃ p, n.pending = some p ∧ (n' = n ∨
      Node.isProposed n.db.current (n.head.blockNum + 1) producers rekeyed = false ∧
      n' = { n with db := n.db.put ⟨some (n.head.blockNum + 1),
        ⟨(newestSchedule p.state).version + 1, producers⟩⟩ }) := by
  unfold Node.setProposedProducers at h
  cases hpending : n.pending with
  | none =>
    rw [hpending] at h
    cases h
  | some p =>
    simp only [hpending] at h
    refine ⟨p, rfl, ?_⟩
    split at h
    · cases h
      exact .inl rfl
    · rename_i hfree
      split at h
      · cases h
        exact .inl rfl
      · cases h
        exact .inr ⟨Bool.eq_false_of_not_eq_true hfree, rfl⟩

structure Inv (n : Node) : Prop where
  closed : n.pending = none → n.sessions = 0
  fits : n.db.Fits Ready n.contexts
  grown : Grown (n.head :: n.below)
  opened : ∀ p, n.pending = some p → Opened n.head p

namespace Inv

variable {n n' : Node}

theorem initial (producers : List Name) (timestamp : UInt32) :
    Inv (initialNode producers timestamp) where
  closed := fun _ => rfl
  fits := .fresh ⟨fun _ => .inl (fresh_genesis _ _), fun _ h => nomatch h⟩
  grown := by
    intro s l hsuffix
    obtain ⟨rfl, rfl⟩ := List.cons.inj (hsuffix.eq_of_length_le (Nat.succ_le_succ (Nat.zero_le _)))
    exact ⟨fun _ => rfl, Nat.zero_le _⟩
  opened := fun _ h => nomatch h

theorem fits_of_none (hinv : Inv n) (hpending : n.pending = none) :
    n.db.Fits Ready (n.head :: n.below) := by
  have hfits := hinv.fits
  rw [Node.contexts, hpending] at hfits
  exact hfits

variable {p : PendingBlock}

/-- The level of the pending block itself is the innermost one when no transaction is open. -/
theorem fits_of_some (hinv : Inv n) (hpending : n.pending = some p) {k : Nat}
    (hsessions : n.sessions = k) :
    n.db.Fits Ready (p.state :: (replicate k p.state ++ n.head :: n.below)) := by
  have hfits := hinv.fits
  rw [Node.contexts, hpending, hsessions] at hfits
  exact hfits

theorem of_some (hpending : n.pending = some p) (hfits : n.db.Fits Ready
      (p.state :: (replicate n.sessions p.state ++ n.head :: n.below)))
    (hgrown : Grown (n.head :: n.below)) (hopened : Opened n.head p) : Inv n := by
  refine ⟨fun hnone => ?_, ?_, hgrown, fun p' hp' => ?_⟩
  · cases hpending.symm.trans hnone
  · rw [Node.contexts, hpending]
    exact hfits
  · cases hpending.symm.trans hp'
    exact hopened

variable {slot : UInt32} {confirmBlockCount : UInt16}

/-- **Starting a block.**  The proposal, if it is due, is announced without an error. -/
theorem startBlock_ok (hinv : Inv n) (hpending : n.pending = none) {state : HeaderState × Bool}
    (hstate : Node.buildState n.head slot confirmBlockCount = .ok state) (modifies : Bool) :
    ∃ p g, n.startBlock slot confirmBlockCount modifies = .ok
        ⟨n.head, n.below, n.db.session.put g, some p, 0⟩ ∧
      Opened n.head p ∧ Ready p.state g := by
  obtain ⟨hbuilt, hmade⟩ := buildState_ok hstate
  have hready := (hinv.fits_of_none hpending).current
  have hopen : ∃ p g, (if modifies then Node.promoteProposed n.db.current state
      else pure (⟨state.1, state.2, none⟩, n.db.current) :
        Checked (PendingBlock × GlobalProperty)) = .ok (p, g) ∧
      Opened n.head p ∧ Ready p.state g := by
    cases modifies with
    | true => exact promoteProposed_ready hready hbuilt hmade
    | false => exact ⟨_, _, rfl, .of_built hready hbuilt hmade, hready.built hbuilt⟩
  obtain ⟨p, g, heq, hopened, hready'⟩ := hopen
  refine ⟨p, g, ?_, hopened, hready'⟩
  unfold Node.startBlock
  rw [hpending, hstate]
  simp only [ok_iff, ok_eq_ok, exists_eq_left', heq, Option.isNone_none]
  exact ⟨trivial, trivial⟩

variable {modifies : Bool}

/-- A block that has been started was one that can be built. -/
theorem built_of_startBlock (h : n.startBlock slot confirmBlockCount modifies = .ok n') :
    n.pending = none ∧ ∃ state, Node.buildState n.head slot confirmBlockCount = .ok state := by
  simp only [Node.startBlock, ok_iff] at h
  obtain ⟨hpending, state, hstate, _⟩ := h
  exact ⟨Option.isNone_iff_eq_none.mp hpending, state, hstate⟩

section

variable (hinv : Inv n)

include hinv

theorem startBlock (h : n.startBlock slot confirmBlockCount modifies = .ok n') : Inv n' := by
  obtain ⟨hpending, state, hstate⟩ := built_of_startBlock h
  obtain ⟨p, g, heq, hopened, hready⟩ := hinv.startBlock_ok hpending hstate modifies
  cases heq.symm.trans h
  refine of_some rfl ?_ hinv.grown hopened
  exact .level hready (hinv.fits_of_none hpending)

variable {producers : List Name}

theorem setProposedProducers {rekeyed : Rekeyed} {version : Int}
    (h : n.setProposedProducers producers rekeyed = .ok (n', version)) : Inv n' := by
  obtain ⟨p, hpending, rfl | ⟨_, rfl⟩⟩ := setProposedProducers_ok h
  · exact hinv
  · have hfits := hinv.fits_of_some hpending rfl
    refine of_some hpending ?_ hinv.grown (hinv.opened p hpending)
    exact hfits.put ⟨hfits.current.pending, fun _ _ => rfl⟩

theorem openSession (h : n.openSession = .ok n') : Inv n' := by
  simp only [Node.openSession, ok_iff] at h
  obtain ⟨hsome, rfl⟩ := h
  obtain ⟨p, hpending⟩ := Option.isSome_iff_exists.mp hsome
  have hfits := hinv.fits_of_some hpending rfl
  exact of_some hpending hfits.session hinv.grown (hinv.opened p hpending)

theorem closeSession {keep : Bool} (h : n.closeSession keep = .ok n') : Inv n' := by
  have hopen : ∀ k, n.sessions = k + 1 → ∃ p, n.pending = some p := by
    intro k hk
    refine Option.ne_none_iff_exists'.mp fun hnone => ?_
    cases (hinv.closed hnone).symm.trans hk
  unfold Node.closeSession at h
  cases hsessions : n.sessions with
  | zero =>
    rw [hsessions] at h
    cases h
  | succ k =>
    obtain ⟨p, hpending⟩ := hopen k hsessions
    have hfits := hinv.fits_of_some hpending hsessions
    rw [hsessions] at h
    cases h
    refine of_some hpending ?_ hinv.grown (hinv.opened p hpending)
    cases keep with
    | true => exact hfits.squash hfits.current
    | false => exact hfits.undo

theorem commitBlock (h : n.commitBlock = .ok n') : Inv n' := by
  simp only [Node.commitBlock, ok_iff] at h
  obtain ⟨hsessions, h⟩ := h
  cases hpending : n.pending with
  | none =>
    rw [hpending] at h
    cases h
  | some p =>
    rw [hpending] at h
    cases h
    have hopened := hinv.opened p hpending
    refine ⟨fun _ => hsessions, hinv.fits_of_some hpending hsessions, hinv.grown.cons hopened.made ?_,
      fun _ h => by cases h⟩
    exact Nat.le_trans hopened.version_le
      (Nat.succ_le_succ (hinv.grown n.head n.below suffix_rfl).2)

theorem abortBlock (h : n.abortBlock = .ok n') : Inv n' := by
  simp only [Node.abortBlock, ok_iff] at h
  obtain ⟨hsessions, rfl⟩ := h
  cases hpending : n.pending with
  | none => exact hinv
  | some =>
    exact ⟨fun _ => hsessions, (hinv.fits_of_some hpending hsessions).undo, hinv.grown,
      fun _ h => by cases h⟩

theorem popBlock (h : n.popBlock = .ok n') : Inv n' := by
  simp only [Node.popBlock, ok_iff] at h
  obtain ⟨hnone, h⟩ := h
  have hpending := Option.isNone_iff_eq_none.mp hnone
  have hfits := hinv.fits_of_none hpending
  have hgrown := hinv.grown
  cases hbelow : n.below with
  | nil =>
    rw [hbelow] at h
    cases h
  | cons =>
    rw [hbelow] at h hfits hgrown
    cases h
    refine ⟨hinv.closed, ?_, hgrown.tail, ?_⟩
    · unfold Node.contexts
      rw [hpending]
      exact hfits.undo
    · intro p hp
      rw [hpending] at hp
      cases hp

theorem step (hstep : Step n n') : Inv n' := by
  obtain ⟨op, hop⟩ := hstep
  cases op with
  | startBlock => exact hinv.startBlock hop
  | setProposedProducers =>
    obtain ⟨⟨n'', version⟩, hset, rfl⟩ := exists_of_map_eq_ok hop
    exact hinv.setProposedProducers hset
  | openSession => exact hinv.openSession hop
  | closeSession => exact hinv.closeSession hop
  | commitBlock => exact hinv.commitBlock hop
  | abortBlock => exact hinv.abortBlock hop
  | popBlock => exact hinv.popBlock hop

end

theorem of_run {timestamp : UInt32} (hrun : Run.Steps Step (initialNode producers timestamp) n) :
    Inv n :=
  Run.invariant (fun _ _ hinv hstep => hinv.step hstep) (initial producers timestamp) hrun

end Inv

/-! ## 5. The pipeline does not jam -/

/-- A proposal is replaced only in the block that made it. -/
theorem proposal_kept (h : n.setProposedProducers producers rekeyed = .ok (n', version))
    (hchanged : n'.db.current ≠ n.db.current) :
    ∀ num ∈ n.db.current.proposedScheduleBlockNum, num = n.head.blockNum + 1 := by
  intro num hnum
  obtain ⟨p, _, rfl | ⟨hfree, _⟩⟩ := setProposedProducers_ok h
  · exact absurd rfl hchanged
  · by_contra hne
    have hproposed : Node.isProposed n.db.current (n.head.blockNum + 1) producers rekeyed = true := by
      rw [Node.isProposed, Option.any_eq_true]
      exact ⟨num, hnum, by simp [hne]⟩
    cases hfree.symm.trans hproposed

/-- **The producer schedule pipeline.**  In every state that a node reaches: a block that can be
    built can be started, so the announcement of a proposal never fails; a proposal is replaced
    only in the block that made it, and a schedule is announced only where none is pending; an
    announced schedule is one version above the active one; and a promotion raises the version
    by one, except that the first block promotes the initial schedule. -/
theorem schedule_pipeline {producers : List Name} {timestamp : UInt32} {n : Node}
    (hrun : Run.Steps Step (initialNode producers timestamp) n) :
    (∀ slot confirmBlockCount modifies state, n.pending = none →
      n.head.generateNext slot = .ok state →
      ∃ n', n.startBlock slot confirmBlockCount modifies = .ok n') ∧
    (∀ producers rekeyed n' version,
      n.setProposedProducers producers rekeyed = .ok (n', version) →
      n'.db.current ≠ n.db.current →
      ∀ num ∈ n.db.current.proposedScheduleBlockNum, num = n.head.blockNum + 1) ∧
    (∀ p, n.pending = some p → ∀ schedule, p.newProducers = some schedule →
      n.head.pendingSchedule.producers = [] ∧ p.state.pendingSchedule = schedule ∧
        schedule.version = p.state.activeSchedule.version + 1) ∧
    (∀ p, n.pending = some p → p.wasPendingPromoted = true → n.below ≠ [] →
      p.state.activeSchedule.version = n.head.activeSchedule.version + 1 ∧
      (n.below.length + 1 < 2 ^ 32 → p.state.activeSchedule.version.toNat =
        n.head.activeSchedule.version.toNat + 1)) := by
  have hinv := Inv.of_run hrun
  refine ⟨?_, fun _ _ _ _ hset hchanged => proposal_kept hset hchanged, ?_, ?_⟩
  · intro slot confirmBlockCount modifies state hpending hstate
    have hbuild : Node.buildState n.head slot confirmBlockCount =
        .ok (state.setConfirmed confirmBlockCount).maybePromotePending := by
      rw [Node.buildState, hstate]
      rfl
    obtain ⟨p, g, hstart, _⟩ := hinv.startBlock_ok hpending hbuild modifies
    exact ⟨_, hstart⟩
  · intro p hp
    exact (hinv.opened p hp).announced
  · intro p hp hpromoted hbelow
    obtain ⟨hfresh, hbound⟩ := hinv.grown n.head n.below suffix_rfl
    obtain ⟨hactive, hinitial | hversion⟩ := (hinv.opened p hp).promoted hpromoted
    · exact absurd (hfresh hinitial) hbelow
    · rw [hactive, hversion]
      refine ⟨rfl, fun hlength => ?_⟩
      rw [UInt32.toNat_add, UInt32.toNat_one]
      exact Nat.mod_eq_of_lt (by omega)

end Runs

def sampleOps : List Op :=
  [.startBlock 1 0 true, .openSession, .setProposedProducers [N "a", N "b"] ⟨false, false⟩,
    .closeSession true, .commitBlock, .startBlock 2 0 true]

theorem schedule_pipeline_sample : ∃ n p schedule,
    Run.Steps Step (initialNode [N "eosio"] 0) n ∧ n.pending = some p ∧
    p.newProducers = some schedule ∧ schedule.version = p.state.activeSchedule.version + 1 := by
  obtain ⟨n, hops, hview⟩ := exists_of_map_eq_ok
    (x := sampleOps.foldlM Node.apply (initialNode [N "eosio"] 0))
    (f := fun n => n.pending.bind PendingBlock.newProducers) (b := some ⟨1, [N "a", N "b"]⟩)
    (by decide +kernel)
  obtain ⟨p, hp, hschedule⟩ := Option.bind_eq_some_iff.mp hview
  have hrun : Run.Steps Step (initialNode [N "eosio"] 0) n :=
    Run.steps_of_foldlM (fun op _ _ _ h => ⟨op, h⟩) hops
  refine ⟨n, p, _, hrun, hp, hschedule, ?_⟩
  exact ((schedule_pipeline hrun).2.2.1 p hp _ hschedule).2.2

/-- The first block promotes the initial schedule, which has the version of the active one. -/
theorem initial_schedule_promoted : ∃ n p,
    Run.Steps Step (initialNode [N "eosio"] 0) n ∧ n.pending = some p ∧
    p.wasPendingPromoted = true ∧
    p.state.activeSchedule.version ≠ n.head.activeSchedule.version + 1 := by
  obtain ⟨n, hops, hview⟩ := exists_of_map_eq_ok
    (x := [Op.startBlock 1 0 true].foldlM Node.apply (initialNode [N "eosio"] 0))
    (f := fun n => n.pending.map fun p => (p.wasPendingPromoted, p.state.activeSchedule.version,
      n.head.activeSchedule.version)) (b := some (true, 0, 0)) (by decide +kernel)
  obtain ⟨p, hp, hvalues⟩ := Option.map_eq_some_iff.mp hview
  simp only [Prod.mk.injEq] at hvalues
  obtain ⟨hpromoted, hactive, hhead⟩ := hvalues
  refine ⟨n, p, Run.steps_of_foldlM (fun op _ _ _ h => ⟨op, h⟩) hops, hp, hpromoted, ?_⟩
  rw [hactive, hhead]
  decide

end YottaChain.Schedules
