/-
  **Transactions over the money contracts.**

  `eosio.token`, `hdddeposit` and `channel.sys` act on each other: an action sends
  further actions, which are executed after it in the same transaction, and a
  transfer to `channel.sys` makes that contract act.  A message is an action with
  its authorisations; `handle` executes it in the contract it is addressed to,
  and `Dispatch.exec` executes it with all it sends.

  The tables of `hddlock` and `hddpool`, the clock and the accounts of the chain
  are an environment the messages only read.  Other contracts that are notified
  (`require_recipient`) do nothing, and `changevotes` does not touch the tables
  of the ledger.
-/
import YottaChain.Dispatch
import YottaChain.Token
import YottaChain.HddDeposit
import YottaChain.ChannelSys

namespace YottaChain.Ledger

open Checked

structure World where
  token : Token.Tables
  deposit : HddDeposit.Tables
  channel : Channel.Tables

structure Env where
  ctx : Ctx
  lock : HddLock.Tables
  hddpool : HddPool.Tables

structure Message where
  auths : List Name
  act : Act

def Message.ofSent (sent : Sent) : Message := ⟨[sent.actor], sent.act⟩

def Env.acting (e : Env) (auths : List Name) : Ctx :=
  { e.ctx with hasAuth := fun u => auths.contains u }

/-! ## 1. One message -/

/-- An action of `hdddeposit`. -/
def onDeposit (w : World) (outcome : Checked HddDeposit.Outcome) :
    Checked (World × List Message) := do
  let (t, sent) ← outcome
  pure ({ w with deposit := t }, sent.map Message.ofSent)

/-- An action of `channel.sys`. -/
def onChannel (w : World) (outcome : Checked Channel.Outcome) :
    Checked (World × List Message) := do
  let (t, sent) ← outcome
  pure ({ w with channel := t }, sent.map Message.ofSent)

/-- A transfer, and what `channel.sys` does when it is among the notified. -/
def transferred (fp : Doubles) (e : Env) (w : World) (c : Ctx) (sender receiver : Name)
    (quantity : Asset) (memo : Text) : Checked (World × List Message) := do
  let (token, recipients) ← Token.transfer fp c e.lock w.deposit w.token sender receiver quantity
    memo
  let w := { w with token := token }
  if recipients.contains Channel.self then
    onChannel w (Channel.transfercore w.channel sender receiver quantity memo)
  else pure (w, [])

def handle (fp : Doubles) (e : Env) (w : World) (m : Message) : Checked (World × List Message) :=
  let c := e.acting m.auths
  match m.act with
  | .create issuer maximumSupply => do
      let t ← Token.create c w.token issuer maximumSupply
      pure ({ w with token := t }, [])
  | .issue receiver quantity memo => do
      let (t, sent) ← Token.issue c w.token receiver quantity memo
      pure ({ w with token := t }, sent.map Message.ofSent)
  | .retire quantity memo => do
      let t ← Token.retire c w.token quantity memo
      pure ({ w with token := t }, [])
  | .transfer sender receiver quantity memo =>
      transferred fp e w c sender receiver quantity memo
  | .paydeppool user quant =>
      onDeposit w (HddDeposit.paydeppool c e.lock w.token w.deposit user quant)
  | .unpaydeppool user quant => onDeposit w (HddDeposit.unpaydeppool c e.lock w.deposit user quant)
  | .paydeppool2 user quant =>
      onDeposit w (HddDeposit.paydeppool2 fp c e.lock w.deposit user quant)
  | .undeppool2 user quant => onDeposit w (HddDeposit.undeppool2 c e.lock w.deposit user quant)
  | .depstore user quant => onDeposit w (HddDeposit.depstore c w.deposit user quant)
  | .undepstore user caller => onDeposit w (HddDeposit.undepstore c w.deposit user caller)
  | .paydeposit user minerid quant =>
      onDeposit w (HddDeposit.paydeposit fp c e.lock e.hddpool w.deposit user minerid quant)
  | .incdeposit minerid quant => onDeposit w (HddDeposit.incdeposit c w.deposit minerid quant)
  | .mforfeit _ minerid quant memo accType caller =>
      onDeposit w (HddDeposit.mforfeit c w.deposit minerid quant memo accType caller)
  | .delminer minerid => onDeposit w (HddDeposit.delminer c w.deposit minerid)
  | .mchgdepacc minerid newDepacc =>
      onDeposit w (HddDeposit.mchgdepacc c w.deposit minerid newDepacc)
  | .setrate rate => onDeposit w (HddDeposit.setrate c w.deposit rate)
  | .updatevote user => onDeposit w (HddDeposit.updatevote c w.deposit user)
  | .depositlog _ _ _ => do
      HddDeposit.channellog c
      pure (w, [])
  | .mapc user quant gas bscaddr =>
      onChannel w (Channel.mapc c w.channel user quant gas bscaddr)
  | .feetoc user quant => onChannel w (Channel.feetoc c w.channel user quant)
  | .subfee user quant memo => onChannel w (Channel.subfee c w.channel user quant memo)
  | .splitgas => onChannel w (Channel.splitgas fp c e.hddpool w.channel)
  | .rewardnode user quant memo => onChannel w (Channel.rewardnode c w.channel user quant memo)
  | .channellog _ _ _ memo => do
      Channel.channellog c memo
      pure (w, [])
  | .changevotes _ => pure (w, [])
  | .poollog .. | .poolfail .. | .payrewardnew .. | .onreward .. | .onbuild .. =>
      .error "not an action of the ledger"

/-! ## 2. Transactions -/

def exec (fp : Doubles) (e : Env) (depth : ℕ) (w : World) (m : Message) : Checked World :=
  Dispatch.exec (handle fp e) depth w m

def TxStep (fp : Doubles) (allowed : Env → World → Act → Prop) (w w' : World) : Prop :=
  ∃ e depth m, allowed e w m.act ∧ exec fp e depth w m = .ok w'

def execs (fp : Doubles) (e : Env) (depth : ℕ) (w : World) (ms : List Message) : Checked World :=
  ms.foldlM (exec fp e depth) w

theorem execs_steps {fp : Doubles} {e : Env} {depth : ℕ} {allowed : Env → World → Act → Prop}
    {ms : List Message} (hall : ∀ m ∈ ms, ∀ w, allowed e w m.act) {w w' : World}
    (h : execs fp e depth w ms = .ok w') : Run.Steps (TxStep fp allowed) w w' := by
  refine Run.steps_of_foldlM (fun m hm w w' hexec => ?_) h
  exact ⟨e, depth, m, hall m hm w, hexec⟩

def World.empty : World := ⟨⟨∅, ∅⟩, ⟨∅, ∅, ∅, ∅, none⟩, ⟨∅⟩⟩

def Env.plain : Env := ⟨.permissive 5, ⟨∅, fun _ => [], ∅⟩, .empty⟩

end YottaChain.Ledger
