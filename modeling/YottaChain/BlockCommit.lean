/-
  **Committing a block** (`controller_impl::start_block`, `commit_block`, `abort_block`,
  `on_irreversible`).

  `commit_block(true)` adds the pending block to the fork database and makes the head of
  that database its own head before it does the things that can still fail.  When one of
  them fails only the session of the pending block is undone: the block stays in the fork
  database, and the head is one ahead of the database.

  A commit that throws leaves no trace if the fork database refuses the block, and in no
  other case (`commit_leaves_no_trace_iff`).
-/
import YottaChain.ForkRuns
import YottaChain.ForkSwitch

namespace YottaChain.Forks

open Imperative List

/-! ## 1. The databases -/

structure BlockLog where
  head : Option BlockId
  firstBlockNum : Nat
  genesisWritten : Bool
  /-- How many blocks the index file has. -/
  written : Nat

/-- What the handler of the signal `irreversible` changes. -/
structure Store (δ : Type) [UndoSessions δ] where
  db : UndoSessions.Db δ
  /-- The rows of `reversible_blocks`. -/
  reversible : List BlockId
  log : BlockLog

section Irreversible

variable {δ : Type} [UndoSessions δ]

/-- `blog.first_block_num() - 1`. -/
def beforeFirst (log : BlockLog) : Nat := (log.firstBlockNum + (2 ^ 32 - 1)) % 2 ^ 32

/-- `block_log::append`. -/
def appendLog (s : BlockState) : EStateM Failure (Store δ) Unit := do
  let log := (← get).log
  if log.genesisWritten = false then
    throw (.thrown "Cannot append to block log until the genesis is first written")
  else if s.blockNum ≠ log.firstBlockNum + log.written then
    throw (.thrown "Append to index file occuring at wrong position.")
  else
    modify fun st => { st with log := { log with head := some s.id, written := log.written + 1 } }

/-- Whether the block goes to the log.  After a snapshot the log is empty and starts with the
    block after the head of the snapshot, which has no `block`. -/
def appends (log : BlockLog) (s : BlockState) : EStateM Failure (Store δ) Bool :=
  match log.head with
  | none =>
      if s.hasBlock then
        if s.blockNum = log.firstBlockNum then pure true
        else throw (.thrown "block log has no blocks and is appending the wrong first block.")
      else if s.blockNum = beforeFirst log then pure false
      else throw (.thrown
        "block log has no blocks and is not properly set up to start after the snapshot")
  | some logHead =>
      if logHead.num < s.blockNum then
        if s.blockNum - 1 = logHead.num then
          -- `s->block->previous`
          if s.hasBlock = false then throw .undefined
          else if s.previous = logHead then pure true
          else throw (.thrown "irreversible doesn't link to block log head")
        else throw (.thrown "unlinkable block")
      else pure false

/-- `on_irreversible`, when the read mode is not `IRREVERSIBLE`. -/
def onIrreversible (s : BlockState) : EStateM Failure (Store δ) Unit := do
  let st ← get
  let appendToLog ← appends st.log s
  modify fun st => { st with db := st.db.commit s.blockNum }
  if appendToLog then appendLog s
  else pure ()
  modify fun st => { st with reversible := st.reversible.filter fun id => decide (s.blockNum < id.num) }

end Irreversible

/-! ## 2. The node -/

structure Node (δ : Type) [UndoSessions δ] where
  forkDb : ForkDb
  head : Ref
  store : Store δ
  /-- The state of the pending block; the database has a session for it. -/
  pending : Option BlockState
  replaying : Bool

abbrev NodeM (δ α : Type) [UndoSessions δ] : Type := EStateM Failure (Node δ) α

section Model

variable {δ α : Type} [UndoSessions δ]

def onForks (x : SignalM (Store δ) α) : NodeM δ α :=
  zoom (fun n => (n.forkDb, n.store)) (fun s n => { n with forkDb := s.1, store := s.2 }) x

def Node.aborted (n : Node δ) : Node δ :=
  match n.pending with
  | none => n
  | some _ => { n with pending := none, store := { n.store with db := n.store.db.undo } }

def abortBlock : NodeM δ Unit := modify Node.aborted

def Node.withPending (n : Node δ) (b : BlockState) (execute : δ → δ) : Node δ :=
  { n with
    pending := some b
    store := { n.store with db := n.store.db.session.modify execute } }

/-- `start_block`, and what is done to the database until the block is committed. -/
def startBlock (b : BlockState) (execute : δ → δ) : NodeM δ Unit := do
  let n ← get
  if n.pending.isSome then throw (.thrown "pending block already exists")
  else if n.store.db.revision ≠ n.head.id.num then
    throw (.thrown "db revision is not on par with head block")
  else modify fun n => n.withPending b execute

/-- The row of the block in `reversible_blocks`.  `fits` says that there is memory for it. -/
def createRow (fits : Bool) (b : BlockState) : NodeM δ Unit := do
  let n ← get
  if n.replaying then pure ()
  else if n.store.reversible.any fun id => decide (id.num = b.blockNum) then
    throw (.thrown "could not insert object, most likely a uniqueness constraint was violated")
  else if fits = false then throw (.thrown "boost::interprocess::bad_alloc")
  else modify fun n => { n with store := { n.store with reversible := b.id :: n.store.reversible } }

/-- The head of the fork database becomes the head; it has to be the block. -/
def takeHead (b : BlockState) : NodeM δ Unit := do
  let n ← get
  match n.forkDb.head.bind n.forkDb.getBlock with
  | none => throw .undefined
  | some head => do
      modify fun n => { n with head := head.ref }
      if head.id = b.id then pure ()
      else throw (.thrown "committed block did not become the new head in fork database")

def BlockState.asValidated (b : BlockState) : BlockState := { b with validated := true }

/-- The part of `commit_block` that makes the block the head. -/
def addPending (b : BlockState) : NodeM δ Unit := do
  let added ← onForks (ForkDb.add onIrreversible b.asValidated true)
  takeHead added

def commitBlock (addToForkDb fits : Bool) : NodeM δ Unit := do
  let n ← get
  match n.pending with
  | none => throw .undefined
  | some b => do
      catchThrown (do
        if addToForkDb then addPending b
        else pure ()
        createRow fits b) fun message => do
          abortBlock
          throw (.thrown message)
      modify fun n => { n with pending := none }

end Model

/-! ## 3. What a commit needs -/

def BlockLog.Writable (log : BlockLog) (s : BlockState) : Prop :=
  log.genesisWritten = true ∧ s.blockNum = log.firstBlockNum + log.written

def BlockLog.Takes (log : BlockLog) (s : BlockState) : Prop :=
  match log.head with
  | none =>
      if s.hasBlock then s.blockNum = log.firstBlockNum ∧ log.Writable s
      else s.blockNum = beforeFirst log
  | some logHead => logHead.num < s.blockNum →
      s.blockNum - 1 = logHead.num ∧ s.hasBlock = true ∧ s.previous = logHead ∧ log.Writable s

def Refused (db : ForkDb) (b : BlockState) : Prop := db.head = none ∨ db.getBlock b.id ≠ none

def RowFree {δ : Type} [UndoSessions δ] (n : Node δ) (fits : Bool) (b : BlockState) : Prop :=
  n.replaying = true ∨ (∀ id ∈ n.store.reversible, id.num ≠ b.blockNum) ∧ fits = true

/-- The block that becomes irreversible, if there is one, is taken and pruned safely, the new block
    is then the best one, and its row can be created. -/
def Accepted {δ : Type} [UndoSessions δ] (n : Node δ) (fits : Bool) (b : BlockState) : Prop :=
  let index := (n.forkDb.insert b.asValidated).index
  (∀ h ∈ declared index, n.store.log.Takes h ∧ Safe index) ∧
    (best (pruned index)).map BlockState.id = some b.id ∧ RowFree n fits b

structure NoTrace {δ : Type} [UndoSessions δ] (before after : Node δ) : Prop where
  pending : after.pending = none
  head : after.head = before.head
  stored : ∀ id, (∃ b ∈ after.forkDb.index, b.id = id) ↔ ∃ b ∈ before.forkDb.index, b.id = id
  forkHead : after.forkDb.head = before.forkDb.head
  database : after.store.db = before.store.db
  onPar : after.store.db.revision = after.head.id.num

section Handler

variable {δ : Type} [UndoSessions δ] {s : BlockState} {st : Store δ}

theorem wp_appendLog (h : st.log.Writable s) :
    Wp (appendLog s) st (fun _ st' => st'.reversible = st.reversible) (fun _ _ => False) := by
  obtain ⟨hgenesis, hplace⟩ := h
  unfold appendLog
  simp only [wp_bind, wp_get, hgenesis, hplace, Bool.true_eq_false, if_false, ne_eq, not_true,
    wp_modify]

theorem wp_appendLog_fails (h : ¬ st.log.Writable s) :
    Wp (appendLog s) st (fun _ _ => False) (fun _ _ => True) := by
  unfold appendLog
  simp only [wp_bind, wp_get, wp_ite, wp_throw, wp_modify]
  refine ⟨fun _ => trivial, fun hgenesis => ⟨fun _ => trivial, fun hplace => h ⟨?_, ?_⟩⟩⟩
  · simpa using hgenesis
  · simpa using hplace

theorem wp_appends (h : st.log.Takes s) :
    Wp (appends st.log s) st (fun appendToLog st' => st' = st ∧
      (appendToLog = true → st.log.Writable s)) (fun _ _ => False) := by
  unfold BlockLog.Takes at h
  unfold appends
  cases hhead : st.log.head with
  | none =>
    rw [hhead] at h
    cases hblock : s.hasBlock with
    | true =>
      simp only [hblock, if_true] at h ⊢
      simp only [h.1, if_true, wp_pure]
      exact ⟨trivial, fun _ => h.2⟩
    | false =>
      simp only [hblock, Bool.false_eq_true, if_false] at h ⊢
      simp only [← h, if_true, wp_pure]
      exact ⟨trivial, fun hfalse => absurd hfalse Bool.false_ne_true⟩
  | some =>
    rw [hhead] at h
    simp only [wp_ite, wp_pure, wp_throw]
    refine ⟨fun hlt => ?_, fun _ => ⟨trivial, fun hfalse => absurd hfalse Bool.false_ne_true⟩⟩
    obtain ⟨hnext, hblock, hlink, hwritable⟩ := h hlt
    exact ⟨fun _ => ⟨fun hnone => absurd (hblock.symm.trans hnone).symm Bool.false_ne_true, fun _ =>
      ⟨fun _ => ⟨trivial, fun _ => hwritable⟩, fun hnot => hnot hlink⟩⟩, fun hnot => hnot hnext⟩

theorem wp_appends_fails (h : ¬ st.log.Takes s) :
    Wp (appends st.log s) st (fun appendToLog st' => st' = st ∧ appendToLog = true ∧
      ¬ st.log.Writable s) (fun _ _ => True) := by
  unfold BlockLog.Takes at h
  unfold appends
  cases hhead : st.log.head with
  | none =>
    rw [hhead] at h
    cases hblock : s.hasBlock with
    | true =>
      simp only [hblock, if_true] at h ⊢
      simp only [wp_ite, wp_pure, wp_throw]
      exact ⟨fun hfirst => ⟨trivial, trivial, fun hwritable => h ⟨hfirst, hwritable⟩⟩,
        fun _ => trivial⟩
    | false =>
      simp only [hblock, Bool.false_eq_true, if_false] at h ⊢
      rw [if_neg h]
      exact trivial
  | some =>
    rw [hhead] at h
    simp only [wp_ite, wp_pure, wp_throw]
    refine ⟨fun hlt => ⟨fun hnext => ⟨fun _ => trivial, fun hblock => ⟨fun hlink => ⟨trivial, trivial,
      fun hwritable => h fun _ => ?_⟩, fun _ => trivial⟩⟩, fun _ => trivial⟩, fun hge => ?_⟩
    · exact ⟨hnext, by simpa using hblock, hlink, hwritable⟩
    · exact absurd (fun hlt => absurd hlt hge) h

/-- **`on_irreversible`** of a block that the log takes. -/
theorem wp_onIrreversible (h : st.log.Takes s) :
    Wp (onIrreversible s) st (fun _ st' => st'.reversible =
      st.reversible.filter fun id => decide (s.blockNum < id.num)) (fun _ _ => False) := by
  unfold onIrreversible
  simp only [wp_bind, wp_get]
  refine (wp_appends h).returns ?_
  rintro appendToLog _ ⟨rfl, hwritable⟩
  rw [wp_modify, wp_ite]
  refine ⟨fun happend => ?_, fun _ => ?_⟩
  · rw [wp_bind]
    refine (wp_appendLog ?_).returns (fun _ st' hrows => ?_)
    · exact hwritable happend
    · exact congrArg (List.filter _) hrows
  · exact rfl

theorem wp_onIrreversible_fails (h : ¬ st.log.Takes s) :
    Wp (onIrreversible s) st (fun _ _ => False) (fun _ _ => True) := by
  unfold onIrreversible
  simp only [wp_bind, wp_get]
  refine (wp_appends_fails h).mono ?_ fun _ _ he => he
  rintro _ _ ⟨rfl, rfl, hnot⟩
  rw [wp_modify, if_pos rfl, wp_bind]
  refine (wp_appendLog_fails ?_).throws fun _ _ he => he
  exact hnot

end Handler

/-! ## 4. Outcomes -/

section Outcomes

variable {δ : Type} [UndoSessions δ] {base : BlockId} {before : Node δ} {b : BlockState}
  {execute : δ → δ}  {fits : Bool}

theorem aborted_withPending (h : before.pending = none) :
    (before.withPending b execute).aborted = before := by
  unfold Node.aborted Node.withPending
  simp only [UndoSessions.Db.modify, UndoSessions.Db.undo_put, ← h]

theorem startBlock_ok {started : Node δ} (h : startBlock b execute before = .ok () started) :
    before.pending = none ∧ before.store.db.revision = before.head.id.num ∧
      started = before.withPending b execute := by
  have hwp : Wp (startBlock b execute) before (fun _ n => before.pending = none ∧
      before.store.db.revision = before.head.id.num ∧ n = before.withPending b execute)
      (fun _ _ => True) := by
    unfold startBlock
    simp only [wp_bind, wp_get, wp_ite, wp_throw, wp_modify]
    refine ⟨fun _ => trivial, fun hpending => ⟨fun _ => trivial, fun hrevision => ⟨?_, ?_, trivial⟩⟩⟩
    · simpa using hpending
    · simpa using hrevision
  exact hwp.of_ok h

def Clean (before : Node δ) (e : Failure) (n : Node δ) : Prop :=
  match e with
  | .thrown _ => NoTrace before n.aborted
  | .undefined => False

theorem wp_commitBlock_iff :
    Wp (commitBlock true fits) (before.withPending b execute) (fun _ _ => True)
      (fun e after => (∃ message, e = .thrown message) ∧ NoTrace before after) ↔
    Wp (addPending b) (before.withPending b execute)
      (fun _ n => Wp (createRow fits b) n (fun _ _ => True) (Clean before)) (Clean before) := by
  unfold commitBlock
  have hpending : (before.withPending b execute).pending = some b := rfl
  simp only [wp_bind, wp_get, hpending, wp_catchThrown_iff, if_true, wp_modify]
  refine wp_congr (fun _ n => wp_congr (fun _ _ => Iff.rfl) ?_) ?_
  all_goals
    rintro (message | _) n
    · exact ⟨fun h => h.2, fun h => ⟨⟨message, rfl⟩, h⟩⟩
    · refine ⟨?_, fun h => h.elim⟩
      rintro ⟨⟨_, h⟩, _⟩
      cases h

variable {x : BlockId} {n : Node δ}

theorem not_clean {e : Failure}
    (h : (∃ c ∈ n.forkDb.index, c.id = x) ↔ ¬ ∃ c ∈ before.forkDb.index, c.id = x) :
    ¬ Clean before e n := by
  cases e with
  | undefined => exact fun hclean => hclean
  | thrown =>
    intro hclean
    have hstored := hclean.stored x
    have hindex : n.aborted.forkDb = n.forkDb := by
      unfold Node.aborted
      split
      · rfl
      · rfl
    rw [hindex, h] at hstored
    exact (not_iff_self hstored)

theorem wp_createRow_iff {E : Failure → Node δ → Prop} (h : ∀ e, ¬ E e n) :
    Wp (createRow fits b) n (fun _ _ => True) E ↔ RowFree n fits b := by
  unfold createRow RowFree
  simp only [wp_bind, wp_get, wp_ite, wp_pure, wp_throw, wp_modify, h]
  cases n.replaying with
  | true => simp
  | false =>
    simp only [Bool.false_eq_true, not_false_eq_true, true_implies, true_and,
      false_or, any_eq_true, decide_eq_true_eq, not_exists, not_and, imp_false, implies_true,
      and_true, Bool.not_eq_false]
    constructor
    · rintro ⟨hrow, hfits⟩
      exact ⟨hrow, hfits hrow⟩
    · rintro ⟨hrow, hfits⟩
      exact ⟨hrow, fun _ => hfits⟩

/-- When other blocks are stored, the rest of the commit has to succeed. -/
theorem wp_takeHead_iff {added : BlockState} (hids : (n.forkDb.index.map links.key).Nodup)
    (hhead : HeadBest n.forkDb)
    (h : (∃ c ∈ n.forkDb.index, c.id = x) ↔ ¬ ∃ c ∈ before.forkDb.index, c.id = x) :
    Wp (takeHead added) n
      (fun _ n => Wp (createRow fits b) n (fun _ _ => True) (Clean before)) (Clean before) ↔
    (best n.forkDb.index).map BlockState.id = some added.id ∧ RowFree n fits b := by
  obtain ⟨head, hbest, hid⟩ := hhead
  have hget : n.forkDb.head.bind n.forkDb.getBlock = some head := by
    rw [hid]
    exact (getBlock_eq_some hids).mpr ⟨(best_spec hbest).1, rfl⟩
  unfold takeHead
  simp only [wp_bind, wp_get, hget, hbest, wp_modify, wp_ite, wp_pure, wp_throw, Option.map_some,
    Option.some.injEq]
  by_cases hadded : head.id = added.id
  · simp only [hadded, true_implies, not_true, false_implies, and_true, true_and]
    exact wp_createRow_iff fun e => not_clean h
  · simp only [hadded, false_implies, not_false_eq_true, true_implies, true_and, false_and, iff_false]
    exact not_clean h

/-- A block that the fork database refuses leaves no trace. -/
theorem wp_addPending_refused (hpending : before.pending = none)
    (hrevision : before.store.db.revision = before.head.id.num) (h : Refused before.forkDb b)
    {Q : Unit → Node δ → Prop} :
    Wp (addPending b) (before.withPending b execute) Q (Clean before) := by
  have hclean : ∀ message, Clean before (.thrown message) (before.withPending b execute) := by
    intro message
    show NoTrace before (before.withPending b execute).aborted
    rw [aborted_withPending hpending]
    exact ⟨hpending, rfl, fun _ => Iff.rfl, rfl, rfl, hrevision⟩
  unfold addPending ForkDb.add
  simp only [wp_bind, onForks, wp_zoom, wp_get, wp_ite, wp_throw]
  refine ⟨fun _ => hclean _, fun hhead => ⟨fun hskip => absurd hskip.1.symm Bool.false_ne_true,
    fun _ => ⟨fun _ => hclean _, fun hfresh => ?_⟩⟩⟩
  rcases h with hnone | hstored
  · exact absurd (Option.isNone_iff_eq_none.mpr hnone) hhead
  · exact absurd (Option.isSome_iff_ne_none.mpr hstored) hfresh

/-- The rows above the irreversible block stay. -/
theorem rowFree_filter {n' : Node δ} {num : Nat} (hnum : num < b.blockNum)
    (hreplaying : n'.replaying = n.replaying)
    (hrows : n'.store.reversible = n.store.reversible.filter fun id => decide (num < id.num)) :
    RowFree n' fits b ↔ RowFree n fits b := by
  unfold RowFree
  rw [hreplaying, hrows]
  have hall : (∀ id ∈ n.store.reversible.filter (fun id => decide (num < id.num)),
      id.num ≠ b.blockNum) ↔ ∀ id ∈ n.store.reversible, id.num ≠ b.blockNum := by
    refine ⟨fun h id hid heq => ?_, fun h id hid => h id (mem_of_mem_filter hid)⟩
    exact h id (mem_filter.mpr ⟨hid, decide_eq_true (heq ▸ hnum)⟩) heq
  rw [hall]

section Declared

variable {d : BlockState}

theorem declared_lower (hinserted : Shape base (before.forkDb.insert b.asValidated).index)
    (hparent : ∃ r ∈ before.forkDb.index, r.id = b.previous)
    (hdeclared : declared (before.forkDb.insert b.asValidated).index = some d) :
    d.blockNum < b.blockNum ∧ d ∈ before.forkDb.index := by
  have hmem : ∀ c, c ∈ (before.forkDb.insert b.asValidated).index ↔
      c = { b.asValidated with arrival := before.forkDb.inserted } ∨ c ∈ before.forkDb.index :=
    fun c => mem_insertByNum
  obtain ⟨rest, hindex⟩ := head?_eq_some_iff.mp (declared_spec hdeclared).1
  obtain ⟨r, hr, hrid⟩ := hparent
  have hlower : d.blockNum < b.blockNum := by
    have hrnum : b.blockNum = r.blockNum + 1 := by
      rw [BlockState.blockNum, b.numbered, ← hrid]
      rfl
    have hmin : r ∈ d :: rest := hindex ▸ (hmem r).mpr (.inr hr)
    rcases mem_cons.mp hmin with rfl | hmin
    · omega
    · have hle := (hindex ▸ hinserted : Shape base (d :: rest)).lowest.1 r hmin
      omega
  refine ⟨hlower, ?_⟩
  rcases (hmem d).mp (hindex ▸ mem_cons_self) with rfl | hd
  · exact absurd hlower (Nat.lt_irrefl _)
  · exact hd

/-- When a block is left, one is built on the declared block. -/
theorem exists_child_of_pruned {index : List BlockState} (hshape : Shape base index)
    (hdeclared : declared index = some d) {m : BlockState} (hm : m ∈ pruned index) :
    ∃ c ∈ index, c.previous = d.id := by
  obtain ⟨rest, rfl⟩ := head?_eq_some_iff.mp (declared_spec hdeclared).1
  obtain ⟨highs, hrest, hsweep⟩ := hshape.sweeping
  rw [pruned, hdeclared] at hm
  simp only [hshape.filter_ne] at hm
  obtain ⟨hsub, hrooted⟩ := hsweep.removeEach
  rw [← hrest] at hsub hrooted
  have hup : ∀ c ∈ highs, c ∈ rest := by
    intro c hc
    rw [hrest]
    exact mem_append_right _ hc
  obtain ⟨c, hc, hchild, _⟩ := (hrooted.below hm).exists_child (hshape.id_ne (hup m (hsub.mem hm)))
  exact ⟨c, mem_cons_of_mem _ (hup c (hsub.mem hc)), hchild⟩

end Declared

/-- A block that is not refused leaves no trace when something fails exactly if it is accepted. -/
theorem wp_addPending_iff (hshape : Shape base before.forkDb.index)
    (hparent : ∃ r ∈ before.forkDb.index, r.id = b.previous)
    (hbound : b.dposIrreversibleBlocknum ≤ b.blockNum) (h : ¬ Refused before.forkDb b) :
    Wp (addPending b) (before.withPending b execute)
      (fun _ n => Wp (createRow fits b) n (fun _ _ => True) (Clean before)) (Clean before) ↔
    Accepted before fits b := by
  obtain ⟨hhead, hfresh⟩ := not_or.mp h
  replace hfresh : before.forkDb.getBlock b.id = none := not_not.mp hfresh
  have hinserted : Shape base (withBlock before.forkDb b.asValidated).index :=
    hshape.insert hparent hfresh hbound
  -- while the block is stored, a throw leaves a trace
  have htrace : ∀ n : Node δ, n.forkDb = withBlock before.forkDb b.asValidated →
      ((∃ c ∈ n.forkDb.index, c.id = b.id) ↔ ¬ ∃ c ∈ before.forkDb.index, c.id = b.id) := by
    intro n hn
    refine iff_of_true ?_ ?_
    · rw [hn]
      exact ⟨_, mem_insertByNum.mpr (.inl rfl), rfl⟩
    · rintro ⟨c, hc, hid⟩
      exact getBlock_eq_none.mp hfresh c hc hid
  unfold addPending Accepted
  simp only [wp_bind, onForks, wp_zoom]
  rw [show (before.withPending b execute).forkDb = before.forkDb from rfl,
    wp_add_iff (n := b.asValidated) hhead hparent hfresh]
  cases hdeclared : declared (before.forkDb.insert b.asValidated).index with
  | none =>
    rw [wp_takeHead_iff hinserted.ids (withBlock_headBest _ _) (htrace _ rfl), pruned, hdeclared]
    simp only [Option.mem_def, reduceCtorEq, false_implies, implies_true, true_and]
    exact Iff.rfl
  | some d =>
    have hdeclared' : declared (withBlock before.forkDb b.asValidated).index = some d := hdeclared
    obtain ⟨hlower, hd⟩ := declared_lower hinserted hparent hdeclared
    obtain ⟨rest, hindex⟩ := head?_eq_some_iff.mp (declared_spec hdeclared').1
    simp only [Option.mem_def, Option.some.injEq, forall_eq']
    by_cases htakes : before.store.log.Takes d
    · have hemit : Wp (onIrreversible d) (before.withPending b execute).store _ _ :=
        wp_onIrreversible htakes
      by_cases hgood : Safe (withBlock before.forkDb b.asValidated).index ∧
          ∃ c ∈ (withBlock before.forkDb b.asValidated).index, c.previous = d.id
      · -- the declared block is gone afterwards
        obtain ⟨_, s, hprune, hshape', hleft, hbest, hrows⟩ := (wp_prune hinserted
          (withBlock_headBest _ _) hindex hdeclared' hgood.1 hgood.2 hemit).exists_ok
        have hgone : (∃ c ∈ s.1.index, c.id = d.id) ↔ ¬ ∃ c ∈ before.forkDb.index, c.id = d.id := by
          refine iff_of_false ?_ fun hnot => hnot ⟨d, hd, rfl⟩
          rintro ⟨c, hc, hid⟩
          have hlt := hshape'.rooted.height_lt hc
          rw [show links.key c = d.id from hid] at hlt
          exact Nat.lt_irrefl _ hlt
        rw [wp_iff_of_ok hprune, wp_takeHead_iff hshape'.ids hbest hgone, hleft]
        refine (and_congr_right fun _ => rowFree_filter (n := before) hlower ?_ ?_).trans ?_
        · rfl
        · exact hrows
        · exact ⟨fun h => ⟨⟨htakes, hgood.1⟩, h⟩, fun h => h.2⟩
      · refine iff_of_false ?_ ?_
        · have hne : rest ≠ [] := by
            rintro rfl
            have hnew : _ ∈ (withBlock before.forkDb b.asValidated).index :=
              mem_insertByNum.mpr (.inl rfl)
            rw [hindex, mem_singleton] at hnew
            rw [← hnew] at hlower
            exact absurd hlower (Nat.lt_irrefl _)
          have hbad := (not_and_or.mp hgood).imp_right fun hnone c hc hchild =>
            hnone ⟨c, hc, hchild⟩
          obtain ⟨e, s, herror, he⟩ := (wp_prune_undefined (E := fun e _ => e = .undefined) hinserted
            hindex hdeclared' hne hbad (hemit.returns (fun _ _ _ => trivial)) fun _ => rfl).exists_error
          rw [wp_iff_of_error herror, he]
          exact fun hclean => hclean
        · rintro ⟨⟨_, hsafe⟩, hbest, _⟩
          obtain ⟨m, hm, _⟩ := Option.map_eq_some_iff.mp hbest
          exact hgood ⟨hsafe, exists_child_of_pruned hinserted hdeclared' (best_spec hm).1⟩
    · rw [wp_prune_iff hinserted hindex]
      refine iff_of_false ?_ fun h => htakes h.1.1
      have hfails : Wp (onIrreversible d) (before.withPending b execute).store _ _ :=
        wp_onIrreversible_fails htakes
      obtain ⟨e, st, herror, _⟩ := hfails.exists_error
      rw [wp_iff_of_error herror]
      exact not_clean (htrace _ rfl)

/-- **A failed commit leaves no trace** exactly if the fork database refuses the block before it is
    inserted, or nothing fails: the block that becomes irreversible is taken by the log and pruned
    safely, the new block is the best one, and its row can be created. -/
theorem commit_leaves_no_trace_iff {started : Node δ}
    (hstart : startBlock b execute before = .ok () started) (hbuilt : b.previous = before.head.id)
    (hshape : Shape base before.forkDb.index)
    (hhead : ∃ r ∈ before.forkDb.index, r.ref = before.head)
    (hbound : b.dposIrreversibleBlocknum ≤ b.blockNum) :
    Wp (commitBlock true fits) started (fun _ _ => True)
      (fun e after => (∃ message, e = .thrown message) ∧ NoTrace before after) ↔
    Refused before.forkDb b ∨ Accepted before fits b := by
  obtain ⟨hpending, hrevision, rfl⟩ := startBlock_ok hstart
  obtain ⟨r, hr, href⟩ := hhead
  have hparent : ∃ r ∈ before.forkDb.index, r.id = b.previous :=
    ⟨r, hr, (congrArg Ref.id href).trans hbuilt.symm⟩
  rw [wp_commitBlock_iff]
  by_cases hrefused : Refused before.forkDb b
  · exact iff_of_true (wp_addPending_refused hpending hrevision hrefused) (.inl hrefused)
  · rw [wp_addPending_iff hshape hparent hbound hrefused]
    exact (or_iff_right hrefused).symm

end Outcomes

def sampleNode : Node Nat where
  forkDb := ⟨[sampleBlock 0 0 0 0], some ⟨1, 0⟩, 1⟩
  head := ⟨⟨1, 0⟩, ⟨0, 0⟩⟩
  store := ⟨UndoStack.mk 0 [] 1, [], ⟨none, 1, true, 0⟩⟩
  pending := none
  replaying := false

/-- The same after a snapshot: the first block has no data, and the log starts after it. -/
def snapshotNode : Node Nat :=
  { sampleNode with
    forkDb := ⟨[{ sampleBlock 0 0 0 0 with hasBlock := false }], some ⟨1, 0⟩, 1⟩
    store := { sampleNode.store with log := ⟨none, 2, true, 0⟩ } }

/-- The block after a snapshot makes its head irreversible and is committed; a block for whose
    row there is no memory leaves a trace. -/
theorem commit_leaves_no_trace_iff_sample :
    Wp (commitBlock true true) (snapshotNode.withPending (sampleBlock 1 1 0 2) Nat.succ)
      (fun _ _ => True)
      (fun e after => (∃ message, e = .thrown message) ∧ NoTrace snapshotNode after) ∧
    ¬ Wp (commitBlock true false) (sampleNode.withPending (sampleBlock 1 1 0 0) Nat.succ)
      (fun _ _ => True)
      (fun e after => (∃ message, e = .thrown message) ∧ NoTrace sampleNode after) := by
  have hfirst : (sampleBlock 0 0 0 0).dposIrreversibleBlocknum ≤ (sampleBlock 0 0 0 0).blockNum := by
    decide
  constructor
  · have hsound : Sound _ (started { sampleBlock 0 0 0 0 with hasBlock := false }) := .initial hfirst
    have hshape : Shape ⟨0, 0⟩ snapshotNode.forkDb.index := hsound.shape
    refine (commit_leaves_no_trace_iff rfl rfl hshape ⟨_, mem_cons_self, rfl⟩ (by decide)).mpr
      (.inr ⟨?_, by decide, ?_⟩)
    · intro h hd
      cases hd
      exact ⟨(rfl : 1 = beforeFirst ⟨none, 2, true, 0⟩), by decide⟩
    · exact .inr ⟨fun _ hid => absurd hid not_mem_nil, rfl⟩
  · have hshape : Shape ⟨0, 0⟩ sampleNode.forkDb.index := (Sound.initial hfirst).shape
    rw [commit_leaves_no_trace_iff rfl rfl hshape ⟨_, mem_cons_self, rfl⟩ (by decide)]
    rintro ((hnone | hstored) | ⟨_, _, hrow⟩)
    · cases hnone
    · exact hstored (by decide)
    · rcases hrow with hreplaying | ⟨_, hfits⟩
      · cases hreplaying
      · cases hfits

/-- There is no memory for the row: the block stays the head of the node and of the fork database,
    the database is rolled back, and no block can be started any more. -/
theorem failed_row_leaves_head : ∃ started after stuck,
    startBlock (sampleBlock 1 1 0 0) Nat.succ sampleNode = .ok () started ∧
    commitBlock true false started = .error (.thrown "boost::interprocess::bad_alloc") after ∧
    after.head.id = ⟨2, 1⟩ ∧ after.forkDb.head = some ⟨2, 1⟩ ∧
    after.store.db.revision = 1 ∧
    startBlock (sampleBlock 2 1 1 0) Nat.succ after =
      .error (.thrown "db revision is not on par with head block") stuck := by
  have hview : failed (fun n : Node Nat => decide (n.head.id = ⟨2, 1⟩ ∧ n.forkDb.head = some ⟨2, 1⟩ ∧
      n.store.db.revision = 1 ∧ failed (fun _ => ()) (startBlock (sampleBlock 2 1 1 0) Nat.succ n) =
        some (.thrown "db revision is not on par with head block", ())))
      (commitBlock true false (sampleNode.withPending (sampleBlock 1 1 0 0) Nat.succ)) =
      some (.thrown "boost::interprocess::bad_alloc", true) := by decide +kernel
  obtain ⟨after, hcommit, hstate⟩ := exists_of_failed hview
  obtain ⟨hhead, hfork, hrevision, hstuck⟩ := of_decide_eq_true hstate
  obtain ⟨stuck, hnext, _⟩ := exists_of_failed hstuck
  exact ⟨_, after, stuck, rfl, hcommit, hhead, hfork, hrevision, hnext⟩

end YottaChain.Forks
