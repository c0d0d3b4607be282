/-
  **The deduplication table of input transactions** (`controller.cpp`,
  `transaction_context.cpp`).

  An input transaction is recorded under its id until it has expired, and an id can be
  recorded only once.  Three conditions meet here: the window in which a transaction is
  admitted, the duplicate test, and the purge at the start of a block.  The first reads the
  expiration with `>=` and the last with `>`, so that they leave no time between them.

  The table is in the database, and it goes back with it: a session is open for each
  transaction and for each block that is not irreversible.  The table of a level belongs to
  the chain of blocks that the level was reached by.
-/
import YottaChain.Checked
import YottaChain.UndoSessions

namespace YottaChain.Transactions

open Checked Run List

/-! ## 1. The table -/

/-- `time_point(time_point_sec)`, in microseconds. -/
def secondsPoint (seconds : UInt32) : Nat := seconds.toNat * 1000000

/-- `block_timestamp::to_time_point`: half seconds since the year 2000, in microseconds. -/
def timePoint (slot : UInt32) : Nat := (slot.toNat * 500 + 946684800000) * 1000

structure TransactionObject (ι : Type) where
  trxId : ι
  expiration : UInt32
deriving DecidableEq

structure Database (ι : Type) where
  /-- The objects in the order of the `by_expiration` index. -/
  transactions : List (TransactionObject ι)
  maxTransactionLifetime : UInt32

variable {ι : Type} {objects : List (TransactionObject ι)} {o : TransactionObject ι}

/-- A new object has the greatest id: it comes after those that expire with it. -/
def insertByExpiration (objects : List (TransactionObject ι)) (o : TransactionObject ι) :
    List (TransactionObject ι) :=
  objects.takeWhile (fun x => x.expiration ≤ o.expiration) ++
    o :: objects.dropWhile fun x => x.expiration ≤ o.expiration

def recordTransaction [DecidableEq ι] (objects : List (TransactionObject ι)) (id : ι)
    (expire : UInt32) : Checked (List (TransactionObject ι)) := do
  ensure (∀ o ∈ objects, o.trxId ≠ id) "duplicate transaction"
  pure (insertByExpiration objects ⟨id, expire⟩)

/-- `clear_expired_input_transactions` in a block with the timestamp `slot`. -/
def clearExpiredInputTransactions (slot : UInt32) (objects : List (TransactionObject ι)) :
    List (TransactionObject ι) :=
  objects.dropWhile fun o => timePoint slot > secondsPoint o.expiration

/-- `validate_expiration` in a block with the timestamp `slot`. -/
def validateExpiration (slot maxTransactionLifetime expiration : UInt32) : Checked Unit := do
  ensure (secondsPoint expiration ≥ timePoint slot) "transaction has expired"
  ensure (secondsPoint expiration ≤ timePoint slot + secondsPoint maxTransactionLifetime)
    "Transaction expiration is too far in the future relative to the reference time"

theorem mem_insertByExpiration {x : TransactionObject ι} :
    x ∈ insertByExpiration objects o ↔ x = o ∨ x ∈ objects := by
  unfold insertByExpiration
  conv_rhs => rw [← takeWhile_append_dropWhile
    (p := fun x : TransactionObject ι => decide (x.expiration ≤ o.expiration)) (l := objects)]
  simp only [mem_append, mem_cons]
  exact or_left_comm

theorem recordTransaction_ok [DecidableEq ι] {objects' : List (TransactionObject ι)} {id : ι}
    {expire : UInt32} (h : recordTransaction objects id expire = .ok objects') :
    (∀ o ∈ objects, o.trxId ≠ id) ∧ objects' = insertByExpiration objects ⟨id, expire⟩ := by
  simp only [recordTransaction, ok_iff] at h
  exact ⟨h.1, h.2.symm⟩

variable {slot : UInt32}

theorem validateExpiration_ok {lifetime expiration : UInt32}
    (h : validateExpiration slot lifetime expiration = .ok ()) :
    timePoint slot ≤ secondsPoint expiration := by
  simp only [validateExpiration, ok_iff] at h
  exact h.1

/-- The purge stops before an object that has not expired, wherever it is. -/
theorem mem_clearExpired (hmem : o ∈ objects) (hlive : timePoint slot ≤ secondsPoint o.expiration) :
    o ∈ clearExpiredInputTransactions slot objects := by
  unfold clearExpiredInputTransactions
  induction objects with
  | nil => cases hmem
  | cons _ _ ih =>
    rw [dropWhile_cons]
    split_ifs with hexpired
    · rcases mem_cons.mp hmem with rfl | hrest
      · exact absurd hlive (Nat.not_le.mpr (of_decide_eq_true hexpired))
      · exact ih hrest
    · exact hmem

theorem mem_of_mem_clearExpired (h : o ∈ clearExpiredInputTransactions slot objects) :
    o ∈ objects :=
  (dropWhile_sublist _).subset h

theorem timePoint_le {later : UInt32} (h : slot ≤ later) : timePoint slot ≤ timePoint later := by
  have hslots : slot.toNat ≤ later.toNat := UInt32.le_iff_toNat_le.mp h
  unfold timePoint
  omega

/-! ## 2. A node -/

structure Block (ι : Type) where
  timestamp : UInt32
  accepted : List ι
deriving DecidableEq

structure Node (ι : Type) [UndoSessions (Database ι)] where
  pending : Option (Block ι)
  head : Block ι
  /-- The blocks before the head that can be popped to, newest first. -/
  below : List (Block ι)
  /-- The blocks before them. -/
  settled : List (Block ι)
  db : UndoSessions.Db (Database ι)

def Node.chain [UndoSessions (Database ι)] (n : Node ι) : List (Block ι) :=
  n.pending.toList ++ n.head :: (n.below ++ n.settled)

namespace Node

variable [UndoSessions (Database ι)]

/-- `start_block`; `onblock` is what the transaction of the block itself does to the
    configuration, and `modifies` is set when the block is not an incomplete one outside of
    the speculative mode. -/
def startBlock (n : Node ι) (timestamp : UInt32) (onblock : UInt32 → UInt32) (modifies : Bool) :
    Checked (Node ι) := do
  ensure (n.pending.isNone = true) "pending block already exists"
  ensure (n.head.timestamp < timestamp) "next block must be in the future"
  pure { n with
    pending := some ⟨timestamp, []⟩
    db := n.db.session.modify fun db =>
      if modifies then
        ⟨clearExpiredInputTransactions timestamp db.transactions, onblock db.maxTransactionLifetime⟩
      else db }

variable [DecidableEq ι]

/-- An input transaction from `init_for_input_trx` to `finalize`.  `checks` are those between
    the expiration and the recording; `rest` is what comes after it, with what the
    transaction does to the configuration. -/
def inputTransaction (timestamp : UInt32) (id : ι) (expiration : UInt32) (checks : Checked Unit)
    (rest : UInt32 → Checked UInt32) (db : Database ι) : Checked (Database ι) := do
  validateExpiration timestamp db.maxTransactionLifetime expiration
  checks
  let transactions ← recordTransaction db.transactions id expiration
  let maxTransactionLifetime ← rest db.maxTransactionLifetime
  pure ⟨transactions, maxTransactionLifetime⟩

omit [DecidableEq ι] in
/-- The end of a transaction in its session, with the exception of the trace.  The session is
    undone when there is one, and also when the mode does not `keep` what is done in an
    incomplete block. -/
def endTransaction (n : Node ι) (p : Block ι) (id : ι) (keep : Bool) :
    Checked (Database ι) → Node ι × Checked Unit
  | .error e => ({ n with db := n.db.session.undo }, .error e)
  | .ok db =>
      let session := n.db.session.put db
      if keep then
        ({ n with
          pending := some { p with accepted := id :: p.accepted }
          db := session.squash }, .ok ())
      else ({ n with db := session.undo }, .ok ())

def pushTransaction (n : Node ι) (id : ι) (expiration : UInt32) (checks : Checked Unit)
    (rest : UInt32 → Checked UInt32) (keep : Bool) : Checked (Node ι × Checked Unit) :=
  match n.pending with
  | none => .error "no pending block"
  | some p => .ok (n.endTransaction p id keep
      (inputTransaction p.timestamp id expiration checks rest n.db.session.current))

omit [DecidableEq ι] in

/-- A transaction leaves the node as it was, or it is kept. -/
theorem endTransaction_cases (n : Node ι) (p : Block ι) (id : ι) (keep : Bool)
    (result : Checked (Database ι)) :
    (n.endTransaction p id keep result).1 = n ∨ ∃ db, result = .ok db ∧
      (n.endTransaction p id keep result).1 = { n with
        pending := some { p with accepted := id :: p.accepted }
        db := n.db.put db } := by
  cases result with
  | error =>
    left
    simp only [endTransaction, UndoSessions.Db.undo_session]
  | ok db =>
    unfold endTransaction
    cases keep with
    | false =>
      left
      simp only [Bool.false_eq_true, if_false, UndoSessions.Db.undo_put]
    | true =>
      refine .inr ⟨db, rfl, ?_⟩
      simp only [if_true, UndoSessions.Db.squash_put]

omit [DecidableEq ι]

def commitBlock (n : Node ι) : Checked (Node ι) :=
  match n.pending with
  | none => .error "no pending block"
  | some p => .ok { n with pending := none, head := p, below := n.head :: n.below }

def abortBlock (n : Node ι) : Node ι :=
  match n.pending with
  | none => n
  | some _ => { n with pending := none, db := n.db.undo }

def popBlock (n : Node ι) : Checked (Node ι) := do
  ensure (n.pending.isNone = true) "there is a pending block"
  match n.below with
  | [] => .error "attempt to pop beyond last irreversible block"
  | prev :: below => pure { n with head := prev, below := below, db := n.db.undo }

/-- `on_irreversible`: the database keeps the sessions of `reversible` blocks. -/
def commitDatabase (n : Node ι) (reversible : Nat) : Node ι :=
  { n with
    below := n.below.take reversible
    settled := n.below.drop reversible ++ n.settled
    db := n.db.commit (n.db.revision - (n.pending.toList.length + reversible)) }

end Node

inductive Op (ι : Type) where
  | startBlock (timestamp : UInt32) (onblock : UInt32 → UInt32) (modifies : Bool)
  | pushTransaction (id : ι) (checks : Checked Unit) (rest : UInt32 → Checked UInt32)
      (keep : Bool)
  | commitBlock
  | abortBlock
  | popBlock
  | commitDatabase (reversible : Nat)

section Runs

-- The expiration is a part of what is hashed: transactions with one id expire together.
variable (expiration : ι → UInt32)

def Node.apply [UndoSessions (Database ι)] [DecidableEq ι] (n : Node ι) : Op ι → Checked (Node ι)
  | .startBlock timestamp onblock modifies => n.startBlock timestamp onblock modifies
  | .pushTransaction id checks rest keep =>
      (n.pushTransaction id (expiration id) checks rest keep).map Prod.fst
  | .commitBlock => n.commitBlock
  | .abortBlock => .ok n.abortBlock
  | .popBlock => n.popBlock
  | .commitDatabase reversible => .ok (n.commitDatabase reversible)

def Step [UndoSessions (Database ι)] [DecidableEq ι] (n n' : Node ι) : Prop :=
  ∃ op, n.apply expiration op = .ok n'

def initialNode [UndoSessions (Database ι)] (timestamp maxTransactionLifetime : UInt32) :
    Node ι where
  pending := none
  head := ⟨timestamp, []⟩
  below := []
  settled := []
  db := UndoSessions.fresh ⟨[], maxTransactionLifetime⟩

/-! ## 3. The table of a chain -/

def accepted (chain : List (Block ι)) : List ι := chain.flatMap Block.accepted

/-- What the table has to know of the chain: the transactions that could come again. -/
structure Covers (chain : List (Block ι)) (db : Database ι) : Prop where
  nodup : (accepted chain).Nodup
  recorded : ∀ b ∈ chain.head?, ∀ id ∈ accepted chain,
    timePoint b.timestamp ≤ secondsPoint (expiration id) → ∃ o ∈ db.transactions, o.trxId = id
  hashed : ∀ o ∈ db.transactions, o.expiration = expiration o.trxId

variable {expiration} {chain : List (Block ι)} {db : Database ι} {b : Block ι}

/-- A later block leaves fewer transactions that could come again, and the purge leaves all
    of these. -/
theorem Covers.startBlock (h : Covers expiration (b :: chain) db) {timestamp : UInt32}
    (hlater : b.timestamp < timestamp) (onblock : UInt32 → UInt32) (modifies : Bool) :
    Covers expiration (⟨timestamp, []⟩ :: b :: chain)
      (if modifies then ⟨clearExpiredInputTransactions timestamp db.transactions,
        onblock db.maxTransactionLifetime⟩ else db) := by
  have hrecorded : ∀ id ∈ accepted (b :: chain),
      timePoint timestamp ≤ secondsPoint (expiration id) → ∃ o ∈ db.transactions, o.trxId = id := by
    intro id hid hlive
    exact h.recorded b rfl id hid (Nat.le_trans (timePoint_le (UInt32.le_of_lt hlater)) hlive)
  cases modifies with
  | false =>
    refine ⟨h.nodup, ?_, h.hashed⟩
    intro b' hb' id hid hlive
    cases hb'
    exact hrecorded id hid hlive
  | true =>
    refine ⟨h.nodup, ?_, fun o ho => h.hashed o (mem_of_mem_clearExpired ho)⟩
    intro b' hb' id hid hlive
    cases hb'
    obtain ⟨o, ho, rfl⟩ := hrecorded id hid hlive
    refine ⟨o, mem_clearExpired ho ?_, rfl⟩
    rw [h.hashed o ho]
    exact hlive

/-- A transaction that has come before is not admitted: it is expired or recorded. -/
theorem Covers.inputTransaction [DecidableEq ι] (h : Covers expiration (b :: chain) db) {id : ι}
    {checks : Checked Unit} {rest : UInt32 → Checked UInt32} {db' : Database ι}
    (hok : Node.inputTransaction b.timestamp id (expiration id) checks rest db = .ok db') :
    Covers expiration ({ b with accepted := id :: b.accepted } :: chain) db' := by
  simp only [Node.inputTransaction, ok_iff] at hok
  obtain ⟨_, hvalid, _, _, objects, hrecord, lifetime, _, rfl⟩ := hok
  obtain ⟨hfresh, rfl⟩ := recordTransaction_ok hrecord
  have hlive := validateExpiration_ok hvalid
  constructor
  · refine nodup_cons.mpr ⟨fun hid => ?_, h.nodup⟩
    obtain ⟨o, ho, heq⟩ := h.recorded b rfl id hid hlive
    exact hfresh o ho heq
  · intro b' hb' id' hid' hlive'
    cases hb'
    rcases mem_cons.mp hid' with rfl | hid'
    · exact ⟨_, mem_insertByExpiration.mpr (.inl rfl), rfl⟩
    · obtain ⟨o, ho, heq⟩ := h.recorded b rfl id' hid' hlive'
      exact ⟨o, mem_insertByExpiration.mpr (.inr ho), heq⟩
  · intro o ho
    rcases mem_insertByExpiration.mp ho with rfl | ho
    · rfl
    · exact h.hashed o ho

/-! ## 4. Runs -/

def chains (settled : List (Block ι)) : List (Block ι) → List (List (Block ι))
  | [] => []
  | b :: below => (b :: (below ++ settled)) :: chains settled below

theorem chains_take (settled blocks : List (Block ι)) (k : Nat) :
    (chains settled blocks).take k = chains (blocks.drop k ++ settled) (blocks.take k) := by
  induction blocks generalizing k with
  | nil => simp [chains]
  | cons _ _ ih =>
    cases k with
    | zero => rfl
    | succ =>
      simp only [chains, take_succ_cons, drop_succ_cons, ih]
      rw [← append_assoc, take_append_drop]

def Node.contexts [UndoSessions (Database ι)] (n : Node ι) : List (List (Block ι)) :=
  chains n.settled (n.pending.toList ++ n.head :: n.below)

variable (expiration) in
def Inv [UndoSessions (Database ι)] (n : Node ι) : Prop := n.db.Fits (Covers expiration) n.contexts

namespace Inv

variable [UndoSessions (Database ι)] {n n' : Node ι}

theorem fits_of_none (hinv : Inv expiration n) (hpending : n.pending = none) :
    n.db.Fits (Covers expiration) (chains n.settled (n.head :: n.below)) := by
  unfold Inv Node.contexts at hinv
  rw [hpending] at hinv
  exact hinv

theorem fits_of_some (hinv : Inv expiration n) {p : Block ι} (hpending : n.pending = some p) :
    n.db.Fits (Covers expiration) (chains n.settled (p :: n.head :: n.below)) := by
  unfold Inv Node.contexts at hinv
  rw [hpending] at hinv
  exact hinv

theorem initial (timestamp maxTransactionLifetime : UInt32) :
    Inv expiration (initialNode timestamp maxTransactionLifetime) :=
  .fresh ⟨nodup_nil, (fun _ _ _ h => nomatch h), fun _ h => nomatch h⟩

section

variable (hinv : Inv expiration n)

include hinv

theorem startBlock {timestamp : UInt32} {onblock : UInt32 → UInt32}
    {modifies : Bool} (h : n.startBlock timestamp onblock modifies = .ok n') :
    Inv expiration n' := by
  simp only [Node.startBlock, ok_iff] at h
  obtain ⟨hnone, hlater, rfl⟩ := h
  have hfits := hinv.fits_of_none (Option.isNone_iff_eq_none.mp hnone)
  have hcovers := hfits.current.startBlock hlater onblock modifies
  rw [Inv, UndoSessions.Db.modify, UndoSessions.Db.current_session]
  exact .level hcovers hfits

theorem pushTransaction [DecidableEq ι] {id : ι} {checks : Checked Unit}
    {rest : UInt32 → Checked UInt32} {keep : Bool} {result : Checked Unit}
    (h : n.pushTransaction id (expiration id) checks rest keep = .ok (n', result)) :
    Inv expiration n' := by
  unfold Node.pushTransaction at h
  cases hpending : n.pending with
  | none =>
    rw [hpending] at h
    cases h
  | some p =>
    rw [hpending, UndoSessions.Db.current_session] at h
    obtain rfl : (n.endTransaction p id keep (Node.inputTransaction p.timestamp id (expiration id)
      checks rest n.db.current)).1 = n' := congrArg Prod.fst (Except.ok.inj h)
    rcases n.endTransaction_cases p id keep (Node.inputTransaction p.timestamp id (expiration id)
      checks rest n.db.current) with hsame | ⟨db, hdb, hkept⟩
    · rw [hsame]
      exact hinv
    · rw [hkept]
      have hfits := hinv.fits_of_some hpending
      exact hfits.put (hfits.current.inputTransaction hdb)

theorem commitBlock (h : n.commitBlock = .ok n') : Inv expiration n' := by
  unfold Node.commitBlock at h
  cases hpending : n.pending with
  | none =>
    rw [hpending] at h
    cases h
  | some =>
    rw [hpending] at h
    cases h
    exact hinv.fits_of_some hpending

theorem abortBlock : Inv expiration n.abortBlock := by
  unfold Node.abortBlock
  cases hpending : n.pending with
  | none => exact hinv
  | some => exact (hinv.fits_of_some hpending).undo

theorem popBlock (h : n.popBlock = .ok n') : Inv expiration n' := by
  simp only [Node.popBlock, ok_iff] at h
  obtain ⟨hnone, hpop⟩ := h
  have hpending := Option.isNone_iff_eq_none.mp hnone
  have hfits := hinv.fits_of_none hpending
  cases hbelow : n.below with
  | nil =>
    rw [hbelow] at hpop
    cases hpop
  | cons =>
    rw [hbelow] at hpop hfits
    cases hpop
    unfold Inv Node.contexts
    rw [hpending]
    exact hfits.undo

theorem commitDatabase (reversible : Nat) : Inv expiration (n.commitDatabase reversible) := by
  have hfits := hinv.commit (n.pending.toList.length + reversible)
  rw [Node.contexts, chains_take, Nat.add_assoc, take_length_add_append,
    drop_length_add_append] at hfits
  exact hfits

theorem step [DecidableEq ι] (hstep : Step expiration n n') : Inv expiration n' := by
  obtain ⟨op, hop⟩ := hstep
  cases op with
  | startBlock => exact hinv.startBlock hop
  | pushTransaction =>
    obtain ⟨⟨node, result⟩, hpush, rfl⟩ := exists_of_map_eq_ok hop
    exact hinv.pushTransaction hpush
  | commitBlock => exact hinv.commitBlock hop
  | abortBlock =>
    cases hop
    exact hinv.abortBlock
  | popBlock => exact hinv.popBlock hop
  | commitDatabase reversible =>
    cases hop
    exact hinv.commitDatabase reversible

/-- The current level has the table of the whole chain. -/
theorem covers : Covers expiration n.chain n.db.current := by
  unfold Node.chain
  cases hpending : n.pending with
  | none => exact (hinv.fits_of_none hpending).current
  | some => exact (hinv.fits_of_some hpending).current

end

end Inv

/-- No input transaction is executed twice in a chain, whatever was undone on the way to it,
    and what the purge removes can not pass the test of the expiration again. -/
theorem input_transaction_once [UndoSessions (Database ι)] [DecidableEq ι]
    (timestamp maxTransactionLifetime : UInt32) {n : Node ι}
    (hrun : Steps (Step expiration) (initialNode timestamp maxTransactionLifetime) n) :
    (accepted n.chain).Nodup ∧
      ∀ (slot : UInt32) (objects : List (TransactionObject ι)), ∀ o ∈ objects,
        o ∉ clearExpiredInputTransactions slot objects →
          ∀ later lifetime : UInt32, slot ≤ later →
            validateExpiration later lifetime o.expiration ≠ .ok () := by
  constructor
  · have hinv : Inv expiration n :=
      invariant (fun _ _ hinv hstep => hinv.step hstep) (Inv.initial _ _) hrun
    exact hinv.covers.nodup
  · intro slot objects o hmem hpurged later lifetime hle hvalid
    have hlive := validateExpiration_ok hvalid
    exact hpurged (mem_clearExpired hmem (Nat.le_trans (timePoint_le hle) hlive))

end Runs

/-- One transaction that expires six seconds after the year 2000 has begun: it is executed in the
    last block it can be in, is refused in the same block and in the next one, and is executed
    again when the blocks are undone. -/
def sampleOps : List (Op Nat) :=
  let push : Op Nat := .pushTransaction 7 (.ok ()) .ok true
  [.startBlock 12 id true, push, push, .commitBlock, .startBlock 13 id true, push, .commitBlock,
    .popBlock, .popBlock, .startBlock 11 id true, push, .commitBlock, .startBlock 12 id true, push]

theorem input_transaction_once_sample :
    ∃ n : Node Nat, Steps (Step fun _ => 946684806) (initialNode 10 60) n ∧
      accepted n.chain = [7] ∧ (accepted n.chain).Nodup := by
  obtain ⟨n, hrun, hchain⟩ := exists_of_map_eq_ok
    (x := sampleOps.foldlM (Node.apply fun _ => 946684806) (initialNode 10 60))
    (f := fun n => accepted n.chain) (b := [7]) (by decide +kernel)
  have hsteps : Steps (Step fun _ => 946684806) (initialNode 10 60) n :=
    steps_of_foldlM (fun op _ _ _ h => ⟨op, h⟩) hrun
  exact ⟨n, hsteps, hchain, (input_transaction_once 10 60 hsteps).1⟩

end YottaChain.Transactions
