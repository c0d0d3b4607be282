/-
  **Bandwidth: delegation, its reversal and refunds.**

  `changebw` writes a change of the stake into four places: the delegation, the
  totals of the receiver, the refund that is pending for the stake owner, and the
  stake of its vote.  Each is a function of its own here, in the order of the
  source.  What a pending refund does not cover is transferred to `eosio.stake`.

  A refund is scheduled as a deferred transaction under the account's name as the
  sender id, which replaces the one that is scheduled; without a refund to be
  paid the scheduled transaction is cancelled.
-/
import YottaChain.SystemVoting

namespace YottaChain.System

open Checked

def stakeAccount : Name := N "eosio.stake"

def checkYtaAccount (user : Name) : Checked Unit :=
  ensure (user ≠ N "hddpool12345" ∧ user ≠ N "hdddeposit12" ∧ user ≠ N "hddlock12345" ∧
    user ≠ N "fund.sys" ∧ user ≠ N "channel.sys") "can not delegatebe and buy ram for this user"

/-- Both assets are `asset(0)`; the second is only looked at if the first is. -/
def bothZero (a b : Asset) : Checked Bool := do
  if ← a.eq (.core 0) then b.eq (.core 0) else pure false

/-- One of the assets is below `asset(0)`; the second is only looked at if the first
    is not. -/
def eitherNegative (a b : Asset) : Checked Bool := do
  if ← a.lt (.core 0) then pure true else b.lt (.core 0)

/-- `eosio_assert( asset(0) <= a, msg )`. -/
def ensureNonneg (a : Asset) (msg : String) : Checked Unit := do
  ensure (← (Asset.core 0).le a) msg

/-! ## 1. The delegation and the totals of the receiver -/

def delegated (s : Staking) (owner receiver : Name) (net cpu : Asset) :
    Checked DelegatedBandwidth :=
  match s.delband.find (owner, receiver) with
  | none => pure ⟨net, cpu⟩
  | some dbo => do
      let net ← dbo.netWeight.add net
      let cpu ← dbo.cpuWeight.add cpu
      pure ⟨net, cpu⟩

def updateDelegation (s : Staking) (owner receiver : Name) (net cpu : Asset) : Checked Staking := do
  let row ← delegated s owner receiver net cpu
  ensureNonneg row.netWeight "insufficient staked net bandwidth"
  ensureNonneg row.cpuWeight "insufficient staked cpu bandwidth"
  let zero ← bothZero row.netWeight row.cpuWeight
  pure { s with delband :=
      if zero then s.delband.erase (owner, receiver) else s.delband.put (owner, receiver) row }

def totalled (s : Staking) (receiver : Name) (net cpu : Asset) : Checked UserResources :=
  match s.userres.find receiver with
  | none => pure { netWeight := net, cpuWeight := cpu }
  | some tot => do
      let net ← tot.netWeight.add net
      let cpu ← tot.cpuWeight.add cpu
      pure { tot with netWeight := net, cpuWeight := cpu }

def updateTotals (s : Staking) (receiver : Name) (net cpu : Asset) : Checked Staking := do
  let row ← totalled s receiver net cpu
  ensureNonneg row.netWeight "insufficient staked total net bandwidth"
  ensureNonneg row.cpuWeight "insufficient staked total cpu bandwidth"
  let zero ← bothZero row.netWeight row.cpuWeight
  pure { s with userres :=
      if zero ∧ row.ramBytes = 0 then s.userres.erase receiver else s.userres.put receiver row }

/-! ## 2. The refund -/

def drawRefund (amount balance : Asset) : Checked (Asset × Asset) := do
  let amount ← amount.sub balance
  if ← amount.lt (.core 0) then pure (.core 0, amount.neg) else pure (amount, .core 0)

/-- Net a change of the stake against the pending refund: the refund afterwards and
    what is not covered. -/
def updateRefund (now : UInt32) (req : RefundRequest) (net cpu : Asset) :
    Checked (Option RefundRequest × Asset × Asset) := do
  let requestTime := if ← eitherNegative net cpu then now else req.requestTime
  let (netAmount, net) ← drawRefund req.netAmount net
  let (cpuAmount, cpu) ← drawRefund req.cpuAmount cpu
  ensureNonneg netAmount "negative net refund amount"
  ensureNonneg cpuAmount "negative cpu refund amount"
  if ← bothZero netAmount cpuAmount then pure (none, net, cpu)
  else pure (some ⟨requestTime, netAmount, cpuAmount⟩, net, cpu)

def splitNegative (balance : Asset) : Checked (Asset × Asset) := do
  if ← balance.lt (.core 0) then pure (balance.neg, .core 0) else pure (.core 0, balance)

def createRefund (now : UInt32) (net cpu : Asset) :
    Checked (Option RefundRequest × Asset × Asset) := do
  if ← eitherNegative net cpu then do
    let (netAmount, net) ← splitNegative net
    let (cpuAmount, cpu) ← splitNegative cpu
    pure (some ⟨now, netAmount, cpuAmount⟩, net, cpu)
  else pure (none, net, cpu)

/-- `refund_delay`, in seconds. -/
def refundDelay : UInt32 := 3 * 24 * 3600

def schedule (s : Staking) (now : UInt32) (owner : Name) (needDeferredTrx : Bool) : Staking :=
  { s with deferred :=
      if needDeferredTrx then s.deferred.put owner (now + refundDelay)
      else s.deferred.erase owner }

def storeRefund (s : Staking) (owner : Name) (req : Option RefundRequest) : Staking :=
  { s with refunds :=
      match req with
      | some r => s.refunds.put owner r
      | none => s.refunds.erase owner }

/-- The refund of an account after a change of its stake, whether it has to be
    scheduled, and what it does not cover. -/
def nextRefund (now : UInt32) (s : Staking) (owner : Name) (net cpu : Asset) :
    Checked (Staking × Bool × Asset × Asset) := do
  let (req, net, cpu) ←
    (match s.refunds.find owner with
    | some req => updateRefund now req net cpu
    | none => createRefund now net cpu)
  pure (storeRefund s owner req, req.isSome, net, cpu)

/-- The refund section of `changebw`, with the transfer of what is not covered. -/
def settleRefund (now : UInt32) (s : Staking) (source owner receiver : Name) (net cpu : Asset)
    (transfer : Bool) : Checked (Staking × List Sent) := do
  let isUndelegating := decide (net.amount + cpu.amount < 0)
  let isDelegatingToSelf := !transfer && decide (owner = receiver)
  let (s, need, net, cpu) ←
    (if isDelegatingToSelf || isUndelegating then nextRefund now s owner net cpu
    else pure (s, false, net, cpu))
  let s := schedule s now owner need
  let transferAmount ← net.add cpu
  if ← (Asset.core 0).lt transferAmount then
    pure (s, [⟨source, .transfer source stakeAccount transferAmount "stake bandwidth".toList⟩])
  else pure (s, [])

/-- For `eosio.stake` itself neither transfer nor refund makes sense. -/
def settle (now : UInt32) (s : Staking) (source owner receiver : Name) (net cpu : Asset)
    (transfer : Bool) : Checked (Staking × List Sent) :=
  if source ≠ stakeAccount then settleRefund now s source owner receiver net cpu transfer
  else pure (s, [])

/-! ## 3. The vote -/

def updateStake (c : Ctx) (deposit : HddDeposit.Tables) (e : Election) (owner : Name)
    (net cpu : Asset) : Checked Election := do
  let totalUpdate ← net.add cpu
  let voter : VoterInfo :=
    match e.voters.find owner with
    | none => { staked := totalUpdate.amount }
    | some v => { v with staked := v.staked + totalUpdate.amount }
  ensure (0 ≤ voter.staked) "stake for voting cannot be negative"
  renewVotes c deposit { e with voters := e.voters.put owner voter } owner voter

/-! ## 4. The actions -/

structure Stakes where
  staking : Staking
  election : Election

def changebw (c : Ctx) (deposit : HddDeposit.Tables) (t : Stakes) (source receiver : Name)
    (net cpu : Asset) (transfer : Bool) : Checked (Stakes × List Sent) := do
  c.requireAuth source
  ensure (!(← bothZero net cpu)) "should stake non-zero amount"
  let sum ← net.add cpu
  ensure (max net.amount.toInt.natAbs cpu.amount.toInt.natAbs ≤ sum.amount.toInt.natAbs)
    "net and cpu deltas cannot be opposite signs"
  checkYtaAccount receiver
  let owner := if transfer then receiver else source
  let s ← updateDelegation t.staking owner receiver net cpu
  let s ← updateTotals s receiver net cpu
  let (s, sent) ← settle c.now s source owner receiver net cpu transfer
  let e ← updateStake c deposit t.election owner net cpu
  pure (⟨s, e⟩, sent)

def checkFree (env : Env) (source : Name) (net cpu : Asset) : Checked Unit := do
  let balance ← Token.getBalance env.token source (symbolName coreSymbol)
  let frozenAsset ← HddDeposit.getDeposit env.deposit source
  let lockAsset ← HddLock.getLockAsset env.fp env.lock env.ctx.currentTime source
  ensure (frozenAsset.symbol = lockAsset.symbol) "deposit and lock symbol precision mismatch"
  let frozenAsset ← frozenAsset.add lockAsset
  ensure (frozenAsset.symbol = coreSymbol) "deposit symbol not core symbol"
  let available ← balance.sub frozenAsset
  let stake ← net.add cpu
  ensure (← available.ge stake) "overdrawn balance for transfer bw"

def checkTransfer (env : Env) (source : Name) (net cpu : Asset) (transfer : Bool) : Checked Unit :=
  if transfer then checkFree env source net cpu else pure ()

def delegatebw (env : Env) (t : Stakes) (source receiver : Name) (net cpu : Asset)
    (transfer : Bool) : Checked (Stakes × List Sent) := do
  ensure (← cpu.ge (.core 0)) "must stake a positive amount"
  ensure (← net.ge (.core 0)) "must stake a positive amount"
  let stake ← net.add cpu
  ensure (← (Asset.core 0).lt stake) "must stake a positive amount"
  ensure (transfer = false ∨ source ≠ receiver) "cannot use transfer flag if delegating to self"
  checkTransfer env source net cpu transfer
  changebw env.ctx env.deposit t source receiver net cpu transfer

def undelegatebw (env : Env) (t : Stakes) (source receiver : Name) (net cpu : Asset) :
    Checked (Stakes × List Sent) := do
  ensure (← (Asset.core 0).le cpu) "must unstake a positive amount"
  ensure (← (Asset.core 0).le net) "must unstake a positive amount"
  let stake ← cpu.add net
  ensure (← (Asset.core 0).lt stake) "must unstake a positive amount"
  ensure (minActivatedStake ≤ t.election.totalActivatedStake)
    "cannot undelegate bandwidth until the chain is activated (at least 15% of all tokens participate in voting)"
  changebw env.ctx env.deposit t source receiver net.neg cpu.neg false

def refund (c : Ctx) (s : Staking) (owner : Name) : Checked (Staking × List Sent) := do
  c.requireAuth owner
  let req ← s.refunds.get owner "refund request not found"
  ensure (req.requestTime + refundDelay ≤ c.now) "refund is not available yet"
  let quantity ← req.netAmount.add req.cpuAmount
  pure ({ s with refunds := s.refunds.erase owner },
    [⟨stakeAccount, .transfer stakeAccount owner quantity "unstake".toList⟩])

/-- The chain executes the deferred transaction of an account: `refund`, authorised by
    the account.  It is removed when it succeeds. -/
def deferredRefund (c : Ctx) (s : Staking) (owner : Name) : Checked (Staking × List Sent) := do
  let ready ← s.deferred.get owner "no deferred transaction"
  ensure (ready ≤ c.now) "the transaction is delayed"
  let (s, sent) ← refund { c with hasAuth := fun u => u == owner } s owner
  pure ({ s with deferred := s.deferred.erase owner }, sent)

end YottaChain.System
