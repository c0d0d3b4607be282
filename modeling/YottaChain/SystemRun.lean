/-
  **The contract `eosio.system` as a state machine.**

  Every call first runs the constructor of the contract, which creates the memory
  market as soon as the core token has a supply, and then the action.  Three
  actions are switched off in the source and always fail.  `deferredRefund` is
  the chain executing a scheduled refund.  `setparams` and `setpriv` do not touch
  the tables and are left out.
-/
import YottaChain.SystemPay
import YottaChain.SystemNames
import YottaChain.SystemRam

namespace YottaChain.System

open Checked

inductive Action where
  -- eosio.system.cpp
  | newaccount (creator newact : Name)
  | setram (maxRamSize : UInt64)
  | rmvproducer (producer : Name)
  | bidname (bidder newname : Name) (bid : Asset)
  -- delegate_bandwidth.cpp
  | buyrambytes (payer receiver : Name) (bytes : UInt32)
  | buyram (payer receiver : Name) (quant : Asset)
  | sellram (account : Name) (bytes : Int64)
  | delegatebw (source receiver : Name) (net cpu : Asset) (transfer : Bool)
  | undelegatebw (source receiver : Name) (net cpu : Asset)
  | refund (owner : Name)
  | deferredRefund (owner : Name)
  -- voting.cpp
  | regproducer (producer : Name) (producerKey : PublicKey) (url : Text) (location : UInt16)
  | unregprod (producer : Name)
  | voteproducer (voter proxy : Name) (producers : List Name)
  | changevotes (voter : Name)
  | regproxy (proxy : Name) (isproxy : Bool)
  | seqproducer (producer shadow : Name) (seq : UInt16) (level : UInt8)
  | reprodlevel
  | setautosche (autoSche : Bool) (minL1 maxL2 : UInt8)
  -- producer_pay.cpp
  | onblock (slot : UInt32) (producer : Name)
  | claimrewards (owner : Name)
  | rewardprods
  | startreward

namespace Tables

def withElection (t : Tables) (r : Checked Election) : Checked Outcome := do
  let e ← r
  pure ({ t with election := e }, [])

def stakes (t : Tables) : Stakes := ⟨t.staking, t.election⟩

def withStakes (t : Tables) (r : Checked (Stakes × List Sent)) : Checked Outcome := do
  let (s, sent) ← r
  pure ({ t with staking := s.staking, election := s.election }, sent)

def withStaking (t : Tables) (r : Checked (Staking × List Sent)) : Checked Outcome := do
  let (s, sent) ← r
  pure ({ t with staking := s }, sent)

def memory (t : Tables) : Memory := ⟨t.ram, t.staking.userres⟩

def withMemory (t : Tables) (r : Checked (Memory × List Sent)) : Checked Outcome := do
  let (m, sent) ← r
  pure ({ t with ram := m.ram, staking := { t.staking with userres := m.userres } }, sent)

end Tables

def newaccount (t : Tables) (creator newact : Name) : Checked Outcome := do
  let names ← claimName t.names creator newact
  let userres ← t.staking.userres.emplace newact {}
  pure ({ t with names := names, staking := { t.staking with userres := userres } }, [])

/-- The action sent to `hddpool` when a block has nothing else to do. -/
def poolDuty (hddpool : HddPool.Tables) (slot : UInt32) : List Sent :=
  if HddPool.getNextRewardSlot hddpool ≤ slot then [⟨HddPool.self, .onreward slot⟩]
  else if HddPool.getNextBuildSlot hddpool ≤ slot then [⟨HddPool.self, .onbuild slot⟩]
  else []

def onblock (env : Env) (t : Tables) (slot : UInt32) : Checked Outcome := do
  env.ctx.requireAuth self
  if 240 < slot - t.election.lastProducerScheduleUpdate then
    pure ({ t with
      election := updateElectedProducersYta env.sorter t.election slot
      names := closeAuction env.ctx.currentTime t.election.threshActivatedStakeTime slot t.names },
      [])
  else pure (t, poolDuty env.hddpool slot)

def dispatch (env : Env) (t : Tables) : Action → Checked Outcome
  | .newaccount creator newact => newaccount t creator newact
  | .setram maxRamSize => do
      let ram ← setram env.ctx t.ram maxRamSize
      pure ({ t with ram := ram }, [])
  | .rmvproducer producer => t.withElection (rmvproducer env.ctx t.election producer)
  | .bidname bidder newname bid => do
      let (names, sent) ← bidname env.ctx t.names bidder newname bid
      pure ({ t with names := names }, sent)
  | .buyrambytes payer receiver bytes =>
      t.withMemory (buyrambytes env t.memory payer receiver bytes)
  | .buyram payer receiver quant => t.withMemory (buyram env t.memory payer receiver quant)
  | .sellram account bytes => t.withMemory (sellram env t.memory account bytes)
  | .delegatebw source receiver net cpu transfer =>
      t.withStakes (delegatebw env t.stakes source receiver net cpu transfer)
  | .undelegatebw source receiver net cpu =>
      t.withStakes (undelegatebw env t.stakes source receiver net cpu)
  | .refund owner => t.withStaking (refund env.ctx t.staking owner)
  | .deferredRefund owner => t.withStaking (deferredRefund env.ctx t.staking owner)
  | .regproducer producer producerKey url location =>
      t.withElection (regproducer env.ctx t.election producer producerKey url location)
  | .unregprod _ => .error "unregprod is disabled"
  | .voteproducer voter proxy producers =>
      t.withElection (voteproducer env.ctx env.deposit t.election voter proxy producers)
  | .changevotes voter => t.withElection (changevotes env.ctx env.deposit t.election voter)
  | .regproxy _ _ => .error "proxy not supported."
  | .seqproducer producer shadow seq level =>
      t.withElection (seqproducer env.ctx t.election producer shadow seq level)
  | .reprodlevel => t.withElection (reprodlevel env.ctx env.sorter t.pay t.election)
  | .setautosche autoSche minL1 maxL2 =>
      t.withElection (setautosche env.ctx t.election autoSche minL1 maxL2)
  | .onblock slot _ => onblock env t slot
  | .claimrewards _ => .error "can not claimrewards by self"
  | .rewardprods => do
      let (pay, sent) ← rewardprods env.ctx t.election t.pay
      pure ({ t with pay := pay }, sent)
  | .startreward => do
      let pay ← startreward env.ctx t.election t.pay
      pure ({ t with pay := pay }, [])

def apply (env : Env) (t : Tables) (a : Action) : Checked Outcome := do
  let ram ← construct env.token t.ram
  dispatch env { t with ram := ram } a

def Step (t t' : Tables) : Prop := ∃ env a sent, apply env t a = .ok (t', sent)

def runActions : Tables → List (Env × Action) → Checked Tables
  | t, [] => .ok t
  | t, (env, a) :: rest => do
      let r ← apply env t a
      runActions r.1 rest

theorem runActions_steps {calls : List (Env × Action)} {t t' : Tables}
    (h : runActions t calls = .ok t') : Run.Steps Step t t' := by
  induction calls generalizing t with
  | nil =>
    cases h
    exact .refl
  | cons call _ ih =>
    obtain ⟨env, a⟩ := call
    simp only [runActions, bind_eq_ok] at h
    obtain ⟨⟨t1, sent⟩, hcall, hrest⟩ := h
    exact .head ⟨env, a, sent, hcall⟩ (ih hrest)

/-- An environment without deposits and locks in which the core token has the given
    supply and the market pays one for one. -/
def Env.plain (now : UInt64) (supply : Int64) : Env where
  ctx := .permissive now
  fp := .whole
  token :=
    ⟨(∅ : Table UInt64 Token.CurrencyStats).put (symbolName coreSymbol)
      ⟨.core supply, .core 100000000000000, self⟩, ∅⟩
  deposit := ⟨∅, ∅, ∅, ∅, none⟩
  lock := ⟨∅, fun _ => [], ∅⟩
  hddpool := .empty
  pricing := ⟨fun _ _ paid => paid, fun _ _ shares => shares⟩
  sorter := .insertion

end YottaChain.System
