/-
  **Retiring a scheduled transaction** (`controller_impl::push_scheduled_transaction`).

  A generated transaction is removed first, in a session of its own.  It is then executed in
  a second session, and if it fails its sender's `onerror` handler is executed in a third.
  Each way out of the function pairs a receipt with a `squash` of the outer session, or has
  no receipt and lets the session expire.

  What the transaction and the handler do is arbitrary: they change the database in any way
  and may throw, and so may the steps in between.  The function either retires the
  transaction with one receipt that says what became of it, or changes nothing
  (`scheduled_transaction_retired_or_untouched`).
-/
import YottaChain.Imperative
import YottaChain.RamUsage
import YottaChain.ResourceBilling
import YottaChain.UndoSessions

namespace YottaChain.Scheduled

open Checked Imperative Resources

/-! ## 1. Exceptions -/

inductive ExceptionCode where
  | subjectiveBlockProduction
  | blockNetUsageExceeded
  | greylistNetUsageExceeded
  | blockCpuUsageExceeded
  | greylistCpuUsageExceeded
  | deadline
  | leewayDeadline
  | actorWhitelist
  | actorBlacklist
  | contractWhitelist
  | contractBlacklist
  | actionBlacklist
  | keyBlacklist
  | txCpuUsageExceeded
  | other
deriving DecidableEq

/-- `fc::exception`s are caught by the function, other exceptions are not. -/
inductive Thrown where
  | fc (code : ExceptionCode) (message : String)
  | std
deriving DecidableEq

def failureIsSubjective (code : ExceptionCode) : Bool :=
  match code with
  | .subjectiveBlockProduction => true
  | .blockNetUsageExceeded => true
  | .greylistNetUsageExceeded => true
  | .blockCpuUsageExceeded => true
  | .greylistCpuUsageExceeded => true
  | .deadline => true
  | .leewayDeadline => true
  | .actorWhitelist => true
  | .actorBlacklist => true
  | .contractWhitelist => true
  | .contractBlacklist => true
  | .actionBlacklist => true
  | .keyBlacklist => true
  | .txCpuUsageExceeded => false
  | .other => false

def scheduledFailureIsSubjective (code : ExceptionCode) : Bool :=
  code = .txCpuUsageExceeded || failureIsSubjective code

/-! ## 2. The node -/

structure GeneratedTransaction where
  sender : Name
  payer : Name
  delayUntil : Int64
  expiration : Int64
  packedTrxSize : UInt32
deriving DecidableEq

/-- `billable_size_v<generated_transaction_object>`: 96 + 4 + 5 * 32, in units of 16 bytes. -/
def billableSize : UInt64 := 272

def GeneratedTransaction.billedSize (g : GeneratedTransaction) : UInt64 :=
  billableSize + g.packedTrxSize.toUInt64

/-- `δ` is the rest of the database, which contracts change. -/
structure Database (ι δ : Type) where
  /-- The index `by_trx_id`. -/
  generated : Table ι GeneratedTransaction
  resources : Manager
  contracts : δ

inductive Status where
  | executed
  | softFail
  | hardFail
  | delayed
  | expired
deriving DecidableEq

structure Receipt (ι : Type) where
  trx : ι
  status : Status
  cpuUsageUs : UInt32
  netUsageWords : UInt32
deriving DecidableEq

structure Node (ι δ α : Type) [UndoSessions (Database ι δ)] where
  db : UndoSessions.Db (Database ι δ)
  receipts : List (Receipt ι)
  actions : List α

/-- What becomes of a `transaction_context` when its actions are executed. -/
structure Outcome (ι δ α : Type) where
  db : Database ι δ
  thrown : Option Thrown
  executed : List α
  billedCpuTimeUs : UInt32
  netUsage : UInt64
  /-- What `update_billed_cpu_time` returns in the handler of an exception. -/
  failedCpuTimeUs : UInt32
  billToAccounts : AccountSet
  initialObjectiveDurationLimit : Int

inductive Point where
  | copy
  | remove
  | unpack
  | context
  | receipt (status : Status)
  | actions (status : Status)
  | errorContext
deriving DecidableEq

structure Environment (ι δ α : Type) where
  pendingBlockTime : Int64
  /-- `block_timestamp_type(pending_block_time()).slot`. -/
  slot : UInt32
  billedCpuTimeUs : UInt32
  explicitBilledCpuTime : Bool
  transactionExtensions : Nat
  faults : Point → Option Thrown
  /-- `init_for_deferred_trx`, `check_actor_list`, `exec` and `finalize`. -/
  execute : Database ι δ → Outcome ι δ α
  /-- `init_for_implicit_trx`, `dispatch_action` and `finalize` for the `onerror` action. -/
  onerror : Database ι δ → Outcome ι δ α

abbrev NodeM (ι δ α β : Type) [UndoSessions (Database ι δ)] : Type := EStateM Thrown (Node ι δ α) β

section Model

variable {ι δ α β : Type} [UndoSessions (Database ι δ)]

namespace Node

def session (n : Node ι δ α) : Node ι δ α := { n with db := n.db.session }

def undo (n : Node ι δ α) : Node ι δ α := { n with db := n.db.undo }

def squash (n : Node ι δ α) : Node ι δ α := { n with db := n.db.squash }

def put (d : Database ι δ) (n : Node ι δ α) : Node ι δ α :=
  { n with db := n.db.put d }

def setResources (r : Manager) (n : Node ι δ α) : Node ι δ α :=
  n.put { n.db.current with resources := r }

/-- What the callback of `make_block_restore_point` does. -/
def restore (receipts actions : Nat) (n : Node ι δ α) : Node ι δ α :=
  { n with receipts := n.receipts.take receipts, actions := n.actions.take actions }

end Node

/-! ## 3. The function -/

def checked (r : Checked β) : NodeM ι δ α β := ofExcept (Thrown.fc .other) r

def require (c : Prop) [Decidable c] (message : String) : NodeM ι δ α Unit :=
  checked (ensure c message)

section Program

variable (env : Environment ι δ α)

def mayThrow (p : Point) : NodeM ι δ α Unit :=
  match env.faults p with
  | none => pure ()
  | some e => throw e

def makeBlockRestorePoint (x : NodeM ι δ α β) : NodeM ι δ α β := do
  let n ← get
  onThrow (Node.restore n.receipts.length n.actions.length) x

def pushReceipt (trx : ι) (status : Status) (cpuUsageUs : UInt32) (netUsage : UInt64) :
    NodeM ι δ α Unit := do
  let netUsageWords := netUsage / 8
  require (netUsageWords * 8 = netUsage) "net_usage is not divisible by 8"
  mayThrow env (.receipt status)
  modify fun n => { n with
    receipts := n.receipts ++ [⟨trx, status, cpuUsageUs, netUsageWords.toUInt32⟩] }

def appendActions (status : Status) (executed : List α) : NodeM ι δ α Unit := do
  mayThrow env (.actions status)
  modify fun n => { n with actions := n.actions ++ executed }

/-- An `fc::exception` is caught and its code is the result. -/
def catchFc (x : NodeM ι δ α Unit) : NodeM ι δ α (Option ExceptionCode) :=
  tryCatch (do x; pure none) fun e =>
    match e with
    | .fc code _ => pure (some code)
    | .std => throw .std

/-- The body of the `try` blocks: the actions are executed, and if they succeed the receipt
    and the actions are added to the block and the session of the context is squashed. -/
def settle (trx : ι) (status : Status) (outcome : Outcome ι δ α) : NodeM ι δ α Unit := do
  modify (Node.put outcome.db)
  match outcome.thrown with
  | some e => throw e
  | none =>
      makeBlockRestorePoint do
        pushReceipt env trx status outcome.billedCpuTimeUs outcome.netUsage
        appendActions env status outcome.executed
        modify Node.squash

/-- The constructor of `transaction_context`. -/
def openContext (p : Point) (transactionExtensions : Nat) : NodeM ι δ α Unit := do
  modify Node.session
  onThrow Node.undo do
    mayThrow env p
    require (transactionExtensions = 0) "we don't support any extensions yet"

/-- `apply_onerror`.  If the handler fails its session is undone when the context is left. -/
def applyOnerror (trx : ι) : NodeM ι δ α (Option (ExceptionCode × UInt32)) := do
  openContext env .errorContext 0
  let outcome := env.onerror (← get).db.current
  let failure ← onThrow Node.undo (catchFc (settle env trx .softFail outcome))
  match failure with
  | none => pure none
  | some code => do
      modify Node.undo
      pure (some (code, outcome.failedCpuTimeUs))

def removeScheduledTransaction [DecidableEq ι] (trx : ι) (g : GeneratedTransaction) : NodeM ι δ α Unit := do
  let d := (← get).db.current
  let resources ← checked (d.resources.addPendingRamUsage g.payer (-g.billedSize).toInt64)
  modify (Node.setResources resources)
  mayThrow env .remove
  modify fun n => n.put { n.db.current with generated := n.db.current.generated.erase trx }

def hardFail (trx : ι) (context : Outcome ι δ α) (cpuTimeToBillUs : UInt32) :
    NodeM ι δ α Unit := do
  let r := (← get).db.current.resources
  let (r, cpuTimeToBillUs) ← checked (if env.explicitBilledCpuTime then pure (r, cpuTimeToBillUs)
    else do
      let r ← r.updateAccountUsage context.billToAccounts env.slot
      let bandwidth ← r.maxBandwidthBilledAccountsCanPay context.billToAccounts fun _ => true
      pure (r, Manager.cappedCpuTime cpuTimeToBillUs bandwidth.accountCpuLimit
        context.initialObjectiveDurationLimit))
  let r ← checked (r.addTransactionUsage context.billToAccounts cpuTimeToBillUs.toUInt64 0 env.slot)
  modify (Node.setResources r)
  pushReceipt env trx .hardFail cpuTimeToBillUs 0
  modify Node.squash

def endFailure (trx : ι) (context : Outcome ι δ α) (code : ExceptionCode)
    (cpuTimeToBillUs : UInt32) : NodeM ι δ α Unit :=
  let subjective := if env.explicitBilledCpuTime then failureIsSubjective code
    else scheduledFailureIsSubjective code
  -- the session expires without being squashed
  if subjective then modify Node.undo
  else hardFail env trx context cpuTimeToBillUs

def handleFailure (trx : ι) (g : GeneratedTransaction) (context : Outcome ι δ α)
    (code : ExceptionCode) : NodeM ι δ α Unit :=
  if g.sender ≠ 0 ∧ failureIsSubjective code = false then do
    match ← applyOnerror env trx with
    | none => modify Node.squash
    | some (code, cpuTimeToBillUs) => endFailure env trx context code cpuTimeToBillUs
  else endFailure env trx context code context.failedCpuTimeUs

def executeScheduled (trx : ι) (g : GeneratedTransaction) : NodeM ι δ α Unit := do
  openContext env .context env.transactionExtensions
  let outcome := env.execute (← get).db.current
  let failure ← onThrow Node.undo (catchFc (settle env trx .executed outcome))
  match failure with
  | none => modify Node.squash
  | some code => do
      modify Node.undo
      handleFailure env trx g outcome code

/-- `push_scheduled_transaction` for an object of the index. -/
def pushGeneratedTransaction [DecidableEq ι] (trx : ι) (g : GeneratedTransaction) : NodeM ι δ α Unit := do
  modify Node.session
  onThrow Node.undo do
    mayThrow env .copy
    removeScheduledTransaction env trx g
    require (g.delayUntil ≤ env.pendingBlockTime) "this transaction isn't ready"
    mayThrow env .unpack
    if g.expiration < env.pendingBlockTime then do
      pushReceipt env trx .expired env.billedCpuTimeUs 0
      modify Node.squash
    else executeScheduled env trx g

def pushScheduledTransaction [DecidableEq ι] (trxid : ι) : NodeM ι δ α Unit := do
  match (← get).db.current.generated.find trxid with
  | none => throw (.fc .other "unknown transaction")
  | some g => pushGeneratedTransaction env trxid g

end Program

/-! ## 4. Sessions -/

namespace Node

variable (n : Node ι δ α) (d d' : Database ι δ)

/-- A session has been opened in `n`, and the database is now `d`. -/
def within : Node ι δ α := { n with db := n.db.session.put d }

def record (receipt : Receipt ι) (executed : List α) : Node ι δ α :=
  { n with receipts := n.receipts ++ [receipt], actions := n.actions ++ executed }

theorem session_eq_within : n.session = n.within n.db.current := by
  rw [session, within, n.db.put_session_current]

theorem current_within : (n.within d).db.current = d := n.db.session.current_put d

theorem put_within : (n.within d).put d' = n.within d' := by
  simp only [put, within, UndoSessions.Db.put_put]

theorem setResources_within (r : Manager) :
    (n.within d).setResources r = n.within { d with resources := r } := by
  rw [setResources, current_within, put_within]

theorem undo_within : (n.within d).undo = n := by
  simp only [undo, within, UndoSessions.Db.undo_put]

/-- What is squashed has the block's receipt and actions already. -/
theorem squash_within (receipt : Receipt ι) (executed : List α) :
    ((n.within d).record receipt executed).squash = (n.put d).record receipt executed := by
  simp only [squash, record, within, put, UndoSessions.Db.squash_put]

theorem restore_self : n.restore n.receipts.length n.actions.length = n := by
  simp only [restore, List.take_length]

theorem restore_record (receipt : Receipt ι) (executed : List α) :
    (n.record receipt executed).restore n.receipts.length n.actions.length = n := by
  simp only [restore, record, List.take_left]

end Node

/-! ## 5. The steps -/

section Steps

variable {env : Environment ι δ α} {n s : Node ι δ α} {d : Database ι δ}
  {Q : Unit → Node ι δ α → Prop} {E : Thrown → Node ι δ α → Prop} {p : Point}

theorem wp_mayThrow (hQ : Q () s) (hE : ∀ e, E e s) : Wp (mayThrow env p) s Q E := by
  unfold mayThrow
  cases env.faults p with
  | none => exact hQ
  | some e => exact hE e

theorem wp_checked {r : Checked β} {Q : β → Node ι δ α → Prop} (hQ : ∀ b, r = .ok b → Q b s)
    (hE : ∀ e, E e s) : Wp (checked r) s Q E :=
  wp_ofExcept.mpr ⟨hQ, fun _ _ => hE _⟩

theorem wp_require {c : Prop} [Decidable c] {message : String} (hQ : c → Q () s)
    (hE : ∀ e, E e s) : Wp (require c message) s Q E :=
  wp_checked (fun _ hok => hQ (ensure_eq_ok.mp hok)) hE

theorem wp_pushReceipt {trx : ι} {status : Status} {cpu : UInt32} {net : UInt64}
    (hQ : Q () (s.record ⟨trx, status, cpu, (net / 8).toUInt32⟩ [])) (hE : ∀ e, E e s) :
    Wp (pushReceipt env trx status cpu net) s Q E := by
  unfold pushReceipt
  simp only [wp_bind, wp_modify]
  refine wp_require (fun _ => ?_) hE
  refine wp_mayThrow ?_ hE
  simpa only [Node.record, List.append_nil] using hQ

theorem wp_catchFc {x : NodeM ι δ α Unit} {Q : Option ExceptionCode → Node ι δ α → Prop}
    (h : Wp x s (fun _ => Q none) fun e s' => (∀ code, Q (some code) s') ∧ E e s') :
    Wp (catchFc x) s Q E := by
  unfold catchFc
  simp only [wp_tryCatch, wp_bind, wp_pure]
  refine h.mono (fun _ _ hQ => hQ) ?_
  rintro (⟨code, message⟩ | _) s' ⟨hcode, hE⟩
  · exact hcode code
  · exact hE

def receiptOf (trx : ι) (status : Status) (outcome : Outcome ι δ α) : Receipt ι :=
  ⟨trx, status, outcome.billedCpuTimeUs, (outcome.netUsage / 8).toUInt32⟩

/-- A context is settled with its receipt and its actions, or the block is restored. -/
theorem wp_settle (trx : ι) (status : Status) (outcome : Outcome ι δ α) :
    Wp (settle env trx status outcome) (n.within d)
      (fun _ s' => outcome.thrown = none ∧
        s' = (n.put outcome.db).record (receiptOf trx status outcome) outcome.executed)
      (fun _ s' => s' = n.within outcome.db) := by
  unfold settle
  simp only [wp_bind, wp_modify, Node.put_within]
  cases hthrown : outcome.thrown with
  | some => exact rfl
  | none =>
    simp only [makeBlockRestorePoint, appendActions, wp_bind, wp_get, wp_onThrow, wp_modify]
    refine wp_pushReceipt ?_ fun _ => Node.restore_self _
    refine wp_mayThrow ⟨trivial, ?_⟩ fun _ => Node.restore_record _ _ _
    simp only [Node.record, List.append_nil]
    exact n.squash_within outcome.db _ _

/-- The execution of a context: it is settled, or it fails and the session is still open, or
    it throws and the session is undone. -/
theorem wp_context {trx : ι} {status : Status} {outcome : Outcome ι δ α}
    {Q : Option ExceptionCode → Node ι δ α → Prop}
    (hsettled : outcome.thrown = none →
      Q none ((n.put outcome.db).record (receiptOf trx status outcome) outcome.executed))
    (hfailed : ∀ code, Q (some code) (n.within outcome.db)) (hE : ∀ e, E e n) :
    Wp (onThrow Node.undo (catchFc (settle env trx status outcome))) (n.within d) Q E := by
  rw [wp_onThrow]
  refine wp_catchFc ((wp_settle trx status outcome).mono ?_ ?_)
  · rintro _ _ ⟨hthrown, rfl⟩
    exact hsettled hthrown
  · rintro e _ rfl
    rw [Node.undo_within]
    exact ⟨hfailed, hE e⟩

theorem wp_openContext {extensions : Nat} (hQ : Q () (n.within n.db.current)) (hE : ∀ e, E e n) :
    Wp (openContext env p extensions) n Q E := by
  unfold openContext
  simp only [wp_bind, wp_modify, wp_onThrow, Node.session_eq_within]
  have hundone : ∀ e, E e (n.within n.db.current).undo := by
    rw [Node.undo_within]
    exact hE
  refine wp_mayThrow ?_ hundone
  exact wp_require (fun _ => hQ) hundone

/-- The handler of a failed transaction is settled, or it leaves no trace. -/
theorem wp_applyOnerror {trx : ι} {Q : Option (ExceptionCode × UInt32) → Node ι δ α → Prop}
    (hsettled : (env.onerror n.db.current).thrown = none →
      Q none ((n.put (env.onerror n.db.current).db).record
        (receiptOf trx .softFail (env.onerror n.db.current)) (env.onerror n.db.current).executed))
    (hfailed : ∀ failure, Q (some failure) n) (hE : ∀ e, E e n) :
    Wp (applyOnerror env trx) n Q E := by
  unfold applyOnerror
  simp only [wp_bind, wp_get]
  refine wp_openContext ?_ hE
  rw [Node.current_within]
  refine wp_context hsettled (fun code => ?_) hE
  simp only [wp_bind, wp_modify, wp_pure, Node.undo_within]
  exact hfailed _

end Steps

/-! ## 6. What becomes of the transaction -/

section Retired

variable (env : Environment ι δ α)

/-- What a receipt says about the database and the actions it stands for, when the
    transaction has been removed from `d₀`. -/
inductive Effects (g : GeneratedTransaction) (d₀ : Database ι δ) :
    Status → UInt32 → UInt32 → Database ι δ → List α → Prop
  | expired (h : g.expiration < env.pendingBlockTime) :
      Effects g d₀ .expired env.billedCpuTimeUs 0 d₀ []
  | executed {outcome : Outcome ι δ α} (houtcome : env.execute d₀ = outcome)
      (h : outcome.thrown = none) :
      Effects g d₀ .executed outcome.billedCpuTimeUs (outcome.netUsage / 8).toUInt32
        outcome.db outcome.executed
  | softFail {outcome : Outcome ι δ α} (houtcome : env.onerror d₀ = outcome)
      (h : outcome.thrown = none) :
      Effects g d₀ .softFail outcome.billedCpuTimeUs (outcome.netUsage / 8).toUInt32
        outcome.db outcome.executed
  | hardFail {accounts : AccountSet} {cpu : UInt32} {r r' : Manager}
      (hr : r = d₀.resources ∨ d₀.resources.updateAccountUsage accounts env.slot = .ok r)
      (hr' : r.addTransactionUsage accounts cpu.toUInt64 0 env.slot = .ok r') :
      Effects g d₀ .hardFail cpu 0 { d₀ with resources := r' } []

/-- The transaction is removed, its payer gets the billed RAM back, and the block has one
    more receipt. -/
def Retired [DecidableEq ι] (trx : ι) (g : GeneratedTransaction) (n n' : Node ι δ α) : Prop :=
  ∃ resources status cpu net d executed,
    Charged n.db.current.resources resources g.payer (-(272 + g.packedTrxSize.toNat)) ∧
    Effects env g { n.db.current with
      generated := n.db.current.generated.erase trx, resources := resources }
      status cpu net d executed ∧
    n' = (n.put d).record ⟨trx, status, cpu, net⟩ executed

end Retired

section Exits

variable {env : Environment ι δ α} {n : Node ι δ α} {d : Database ι δ}
  {trx : ι} {g : GeneratedTransaction}

/-- Inside the session of the function: it returns with the effects of `d`, or with nothing
    changed, and when it throws the session is still there to be undone. -/
def Ends (env : Environment ι δ α) (trx : ι) (g : GeneratedTransaction) (n : Node ι δ α)
    (d : Database ι δ) (x : NodeM ι δ α Unit) : Prop :=
  Wp x (n.within d)
    (fun _ n' => (∃ status cpu net d' executed, Effects env g d status cpu net d' executed ∧
      n' = (n.put d').record ⟨trx, status, cpu, net⟩ executed) ∨ n' = n)
    (fun _ s => s.undo = n)

theorem ends_hardFail (context : Outcome ι δ α) (cpu : UInt32) :
    Ends env trx g n d (hardFail env trx context cpu) := by
  unfold Ends hardFail
  simp only [wp_bind, wp_get, wp_modify, Node.current_within]
  refine wp_checked ?_ fun _ => n.undo_within d
  rintro ⟨r, cpu'⟩ hcapped
  refine wp_checked ?_ fun _ => n.undo_within d
  intro r' hr'
  rw [Node.setResources_within]
  refine wp_pushReceipt (.inl ?_) fun _ => n.undo_within _
  have hr : r = d.resources ∨ d.resources.updateAccountUsage context.billToAccounts env.slot = .ok r := by
    split at hcapped
    · cases pure_eq_ok.mp hcapped
      exact .inl rfl
    · simp only [ok_iff] at hcapped
      obtain ⟨_, hupdate, _, _, rfl, _⟩ := hcapped
      exact .inr hupdate
  exact ⟨_, _, _, _, _, .hardFail hr hr', n.squash_within _ _ _⟩

theorem ends_endFailure (context : Outcome ι δ α) (code : ExceptionCode) (cpu : UInt32) :
    Ends env trx g n d (endFailure env trx context code cpu) := by
  unfold Ends endFailure
  simp only
  rw [wp_ite]
  constructor
  · intro _
    exact .inr (n.undo_within d)
  · intro _
    exact ends_hardFail context cpu

theorem ends_handleFailure (context : Outcome ι δ α) (code : ExceptionCode) :
    Ends env trx g n d (handleFailure env trx g context code) := by
  unfold Ends handleFailure
  rw [wp_ite]
  constructor
  · intro _
    simp only [wp_bind]
    refine wp_applyOnerror ?_ ?_ fun _ => n.undo_within d
    · intro hthrown
      rw [Node.current_within, Node.put_within] at *
      exact .inl ⟨_, _, _, _, _, .softFail rfl hthrown, n.squash_within _ _ _⟩
    · rintro ⟨code', cpu⟩
      exact ends_endFailure context code' cpu
  · intro _
    exact ends_endFailure context code _

theorem ends_executeScheduled : Ends env trx g n d (executeScheduled env trx g) := by
  unfold Ends executeScheduled
  simp only [wp_bind, wp_get]
  refine wp_openContext ?_ fun _ => n.undo_within d
  rw [Node.current_within, Node.current_within]
  refine wp_context ?_ ?_ fun _ => n.undo_within d
  · intro hthrown
    rw [Node.put_within]
    exact .inl ⟨_, _, _, _, _, .executed rfl hthrown, n.squash_within _ _ _⟩
  · intro code
    simp only [wp_bind, wp_modify, Node.undo_within]
    exact ends_handleFailure _ code

theorem toInt_refund (g : GeneratedTransaction) :
    (-g.billedSize).toInt64.toInt = -(272 + g.packedTrxSize.toNat) := by
  have hsize := g.packedTrxSize.toNat_lt
  have hbilled : g.billedSize.toNat = 272 + g.packedTrxSize.toNat := by
    unfold GeneratedTransaction.billedSize billableSize
    rw [FixedWidth.toNat_add_of_lt, UInt32.toNat_toUInt64]
    · rfl
    · rw [UInt32.toNat_toUInt64]
      show 272 + _ < _
      omega
  rw [FixedWidth.toInt_toInt64_neg (by omega), hbilled]
  rfl

theorem charged_of_refund {r r' : Manager}
    (h : r.addPendingRamUsage g.payer (-g.billedSize).toInt64 = .ok r') :
    Charged r r' g.payer (-(272 + g.packedTrxSize.toNat)) := by
  have hrefund := toInt_refund g
  have hne : (-g.billedSize).toInt64 ≠ 0 := by
    intro hzero
    rw [hzero] at hrefund
    have hzero' : (0 : Int64).toInt = 0 := rfl
    omega
  rw [← hrefund]
  exact charged_of_ok hne h

/-- In every run the transaction is retired with one receipt, or nothing changes; and nothing
    changes if the function throws. -/
theorem scheduled_transaction_retired_or_untouched [DecidableEq ι] (env : Environment ι δ α) (trxid : ι)
    (n : Node ι δ α) :
    Wp (pushScheduledTransaction env trxid) n
      (fun _ n' => (∃ g, n.db.current.generated.find trxid = some g ∧ Retired env trxid g n n') ∨
        n' = n)
      (fun _ n' => n' = n) := by
  unfold pushScheduledTransaction
  simp only [wp_bind, wp_get]
  cases hfind : n.db.current.generated.find trxid with
  | none => exact rfl
  | some g =>
    unfold pushGeneratedTransaction removeScheduledTransaction
    simp only [wp_bind, wp_get, wp_modify, wp_onThrow, wp_ite, Node.session_eq_within]
    refine wp_mayThrow ?_ fun _ => n.undo_within _
    rw [Node.current_within]
    refine wp_checked ?_ fun _ => n.undo_within _
    intro resources hresources
    have hcharged := charged_of_refund hresources
    rw [Node.setResources_within]
    refine wp_mayThrow ?_ fun _ => n.undo_within _
    rw [Node.current_within, Node.put_within]
    refine wp_require (fun _ => ?_) fun _ => n.undo_within _
    refine wp_mayThrow ?_ fun _ => n.undo_within _
    constructor
    · intro hexpired
      refine wp_pushReceipt (.inl ⟨g, rfl, ?_⟩) fun _ => n.undo_within _
      exact ⟨resources, _, _, _, _, _, hcharged, .expired hexpired, n.squash_within _ _ _⟩
    · intro _
      refine ends_executeScheduled.mono ?_ fun _ _ hundo => hundo
      rintro _ n' (⟨status, cpu, net, d, executed, heffects, rfl⟩ | rfl)
      · exact .inl ⟨g, rfl, resources, status, cpu, net, d, executed, hcharged, heffects, rfl⟩
      · exact .inr rfl

end Exits

end Model

end YottaChain.Scheduled
