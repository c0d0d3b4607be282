/-
  **The system contract and the money contracts together.**

  `eosio.system` reads the tables of `eosio.token` and `hdddeposit` and sends them
  actions; `hdddeposit` asks `eosio.system` whether an account has voted and sends
  it `changevotes`.  A message is a request with its authorisations, addressed to the
  ledger or to the system contract, and a transaction is a message with all it sends.

  The tables of `hddlock` and `hddpool`, the clock and the accounts of the chain are
  an environment.  What it says of voters and producers is not used: this is read
  off the tables of the system contract at the moment a message is handled.  The
  duties a block sends to `hddpool` are not executed here.
-/
import YottaChain.Ledger
import YottaChain.SystemRun

namespace YottaChain.Economy

open Checked

structure State where
  ledger : Ledger.World
  system : System.Tables

inductive Request where
  | ledger (a : Act)
  | system (a : System.Action)

structure Message where
  auths : List Name
  request : Request

namespace Message

def ofLedger (m : Ledger.Message) : Message :=
  match m.act with
  | .changevotes voter => ⟨m.auths, .system (.changevotes voter)⟩
  | a => ⟨m.auths, .ledger a⟩

def ofSent (sent : Sent) : Message := ofLedger (.ofSent sent)

end Message

def acting (env : System.Env) (st : State) (auths : List Name) : System.Env :=
  { env with
    ctx := { env.ctx with
      hasAuth := fun u => auths.contains u
      producersExt := System.getProducerSeq st.system.election
      isActiveVoter := System.isActiveVoter st.system.election }
    token := st.ledger.token
    deposit := st.ledger.deposit }

def ledgerEnv (env : System.Env) : Ledger.Env := ⟨env.ctx, env.lock, env.hddpool⟩

def handle (env : System.Env) (st : State) (m : Message) : Checked (State × List Message) :=
  let env := acting env st m.auths
  match m.request with
  | .ledger (.changevotes _) => .error "an action of the system contract"
  | .ledger a => do
      let (w, sent) ← Ledger.handle env.fp (ledgerEnv env) st.ledger ⟨m.auths, a⟩
      pure ({ st with ledger := w }, sent.map Message.ofLedger)
  | .system a => do
      let (t, sent) ← System.apply env st.system a
      pure ({ st with system := t }, sent.map Message.ofSent)

def exec (env : System.Env) (depth : ℕ) (st : State) (m : Message) : Checked State :=
  Dispatch.exec (handle env) depth st m

def TxStep (allowed : State → Message → Prop) (st st' : State) : Prop :=
  ∃ env depth m, allowed st m ∧ exec env depth st m = .ok st'

def execs (env : System.Env) (depth : ℕ) (st : State) (ms : List Message) : Checked State :=
  ms.foldlM (exec env depth) st

theorem execs_steps {env : System.Env} {depth : ℕ} {allowed : State → Message → Prop}
    {ms : List Message} (hall : ∀ m ∈ ms, ∀ st, allowed st m) {st st' : State}
    (h : execs env depth st ms = .ok st') : Run.Steps (TxStep allowed) st st' := by
  refine Run.steps_of_foldlM (fun m hm st _ hexec => ?_) h
  exact ⟨env, depth, m, hall m hm st, hexec⟩

def State.empty : State := ⟨.empty, {}⟩

def funding : List Message :=
  [⟨[Token.self], .ledger (.create (N "issuer") (.core 1000000000))⟩,
    ⟨[N "issuer"], .ledger (.issue (N "alice") (.core 800000) [])⟩]

end YottaChain.Economy
