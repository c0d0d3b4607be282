/-
  **The account side of `hddpool`**: storage and production balances, how they
  accrue, and the actions of a user on them.

  An action is a function from the tables to a checked outcome.  `fp` stands
  for the floating-point expressions and `c` for the chain.  A lambda handed to
  `modify` becomes a record update; the checks inside it stay where they are in
  the order of the source.  `require_recipient` only notifies the named
  accounts and has no counterpart here.
-/
import YottaChain.HddPoolTables

namespace YottaChain.HddPool

open Checked

/-! ## 1. Accrual -/

def getNewmodelStartTime : UInt64 := hddmLatestStopTime

def calculateFeeBalance (fp : Doubles) (oldbalance hddPerCycleFee : Int64)
    (lastHddTime currentTime : UInt64) : Int64 :=
  if currentTime ≤ lastHddTime then oldbalance
  else oldbalance + fp.tickFee ((currentTime - lastHddTime) / 1000) hddPerCycleFee

def profitDeadline (deadlineTime : UInt64) : UInt64 :=
  if deadlineTime = 0 then getNewmodelStartTime else deadlineTime

/-- `calculate_profit_balance`; the deadline it writes back through its
    reference argument is `profitDeadline deadlineTime`. -/
def calculateProfitBalance (fp : Doubles) (oldbalance hddPerCycleProfit : Int64)
    (lastHddTime currentTime deadlineTime : UInt64) : Int64 :=
  let deadline := profitDeadline deadlineTime
  let now := if deadline < currentTime then deadline else currentTime
  if now ≤ lastHddTime then oldbalance
  else oldbalance + fp.tickProfit ((now - lastHddTime) / 1000) hddPerCycleProfit

def userMagnitude : String := "magnitude of user hdd_minerhdd must be less than 2^62"
def storeMagnitude : String := "magnitude of user hdd_storehhdd must be less than 2^62"
def minerMagnitude : String := "magnitude of miner hddbalance must be less than 2^62"

/-- The settlement block shared by every action that accrues profit: nine
    tenths of the new profit stay with the account.  Returns the new balance of
    the account and what is left for the eco fund. -/
def settle (fp : Doubles) (msg : String) (balance profit : Int64)
    (lastTime t deadlineTime : UInt64) : Checked (Int64 × Int64) := do
  let newBalance := calculateProfitBalance fp balance profit lastTime t deadlineTime
  ensure (isHddAmountWithinRange newBalance) msg
  let kept := fp.tenths 9 (newBalance - balance) + balance
  pure (kept, newBalance - kept)

def creditEco (userhdd : Table Name UserHdd) (ecoIncBalance : Int64) :
    Checked (Table Name UserHdd) :=
  if 0 < ecoIncBalance then do
    let eco ← userhdd.get ecologyfoundAcc "ecologyfound account is not open"
    ensure (isHddAmountWithinRange (eco.hddMinerhdd + ecoIncBalance)) userMagnitude
    pure (userhdd.put ecologyfoundAcc
      { eco with hddMinerhdd := eco.hddMinerhdd + ecoIncBalance })
  else .ok userhdd

/-! ## 2. Owner accounts -/

def newUserHddRow (currentTime : UInt64) (balance : Int64) : UserHdd where
  hddStorehhdd := balance
  hddPerCycleFee := 0
  hddSpaceStore := 0
  lastHddstoreTime := currentTime
  hddMinerhdd := 0
  hddPerCycleProfit := 0
  hddSpaceProfit := 0
  lastHddprofitTime := currentTime

def newUserHdd (c : Ctx) (s : Tables) (user : Name) (balance : Int64) : Checked Tables := do
  let userhdd ← s.userhdd.emplace user (newUserHddRow c.currentTime balance)
  pure { s with userhdd := userhdd, hddTotalUser := s.hddTotalUser + 1 }

def openOwner (c : Ctx) (s : Tables) (owner : Name) : Checked Tables :=
  match s.userhdd.find owner with
  | some _ => .ok s
  | none => newUserHdd c s owner 0

/-- The settled row of `chg_owner_space` and what goes to the eco fund. -/
def settleOwner (fp : Doubles) (row : UserHdd) (isCalc : Bool) (ct deadlineTime : UInt64) :
    Checked (UserHdd × Int64) :=
  if isCalc then do
    let (kept, ecoInc) ← settle fp userMagnitude row.hddMinerhdd row.hddPerCycleProfit
      row.lastHddprofitTime ct deadlineTime
    pure ({ row with hddMinerhdd := kept, lastHddprofitTime := ct }, ecoInc)
  else .ok (row, 0)

/-- The new production space: the decrease stops at zero. -/
def newOwnerSpace (old spaceDelta : UInt64) (isIncrease : Bool) : UInt64 :=
  if isIncrease then old + spaceDelta
  else if spaceDelta < old then old - spaceDelta
  else 0

def chgOwnerSpace (fp : Doubles) (userhdd : Table Name UserHdd) (minerowner : Name)
    (spaceDelta : UInt64) (isIncrease isCalc : Bool) (ct deadlineTime : UInt64) :
    Checked (Table Name UserHdd) :=
  if minerowner = ecologyfoundAcc then .ok userhdd
  else do
    let row ← userhdd.get minerowner "no owner exists in userhdd table"
    let (settled, ecoInc) ← settleOwner fp row isCalc ct deadlineTime
    let newspace := newOwnerSpace row.hddSpaceProfit spaceDelta isIncrease
    ensure (newspace ≤ maxProfitSpace) "execeed max profie space"
    creditEco
      (userhdd.put minerowner
        { settled with
          hddSpaceProfit := newspace
          hddPerCycleProfit := fp.cycleProfit newspace })
      ecoInc

def calcprofit (fp : Doubles) (c : Ctx) (s : Tables) (user : Name) : Checked Outcome := do
  c.requireAuth user
  if user = ecologyfoundAcc then pure (s, [])
  else do
    let row ← s.userhdd.get user "user is not a storage provider"
    let (kept, ecoInc) ← settle fp userMagnitude row.hddMinerhdd row.hddPerCycleProfit
      row.lastHddprofitTime c.currentTime 0
    let userhdd ← creditEco
      (s.userhdd.put user
        { row with hddMinerhdd := kept, lastHddprofitTime := c.currentTime })
      ecoInc
    pure ({ s with userhdd := userhdd }, [])

/-! ## 3. Storage balances -/

def settleStore (fp : Doubles) (c : Ctx) (row : UserHdd) : Checked UserHdd := do
  let newBalance := calculateFeeBalance fp row.hddStorehhdd row.hddPerCycleFee
    row.lastHddstoreTime c.currentTime
  ensure (isHddAmountWithinRange newBalance) storeMagnitude
  pure { row with hddStorehhdd := newBalance, lastHddstoreTime := c.currentTime }

/-- A block producer with account type 2, and `owner` otherwise. -/
def producerOr (c : Ctx) (accType : UInt8) (caller owner : Name) : Checked Unit :=
  if accType = 2 then do
    ensure (c.isAccount caller) "caller not a account."
    c.checkBpAccount caller
  else c.requireAuth owner

def getbalance (fp : Doubles) (c : Ctx) (s : Tables) (user : Name) (accType : UInt8)
    (caller : Name) : Checked Outcome := do
  ensure (c.isAccount user) "user not a account."
  producerOr c accType caller (if accType = 1 then user else self)
  match s.userhdd.find user with
  | none => pure (s, [])
  | some row => do
      let row' ← settleStore fp c row
      pure ({ s with userhdd := s.userhdd.put user row' }, [])

/-- Add `amount` to the storage balance of `user`, opening the account if it
    does not exist. -/
def addStore (c : Ctx) (s : Tables) (user : Name) (amount : Int64) : Checked Tables :=
  match s.userhdd.find user with
  | none => newUserHdd c s user amount
  | some row => do
      ensure (isHddAmountWithinRange (row.hddStorehhdd + amount)) storeMagnitude
      pure { s with
        userhdd := s.userhdd.put user { row with hddStorehhdd := row.hddStorehhdd + amount } }

def buyhdd (fp : Doubles) (c : Ctx) (s : Tables) (sender receiver : Name) (amount : Int64)
    (memo : Text) : Checked Outcome := do
  c.requireAuth sender
  ensure (c.isAccount sender) "user not a account"
  ensure (c.isAccount receiver) "receiver not a account"
  ensure (c.isAccount hddExchgAcc) "to not a account"
  ensure (minBuyHddAmount ≤ amount) "amount too low"
  ensure (amount ≤ maxBuySellHddAmount) "exceed single purchase volume"
  ensure (isHddAmountWithinRange amount) "magnitude of amount must be less than 2^62"
  let g := s.gparams.getD {}
  ensure (amount ≤ g.hddCounter) "hdd_counter overdrawn"
  let g := { g with hddCounter := g.hddCounter - amount }
  let delta : Int64 := if 0 < amount % 10000 then 1 else 0
  let quant ← Asset.make (fp.buyPrice amount g.hddPrice g.ytaPrice + delta) coreSymbol
  let s ← addStore c { s with gparams := some g } receiver amount
  pure (s, [⟨sender, .transfer sender hddExchgAcc quant memo⟩])

def transhdds (c : Ctx) (s : Tables) (sender receiver : Name) (amount : Int64) (memo : Text) :
    Checked Outcome := do
  c.requireAuth sender
  ensure (c.isAccount sender) "user not a account"
  ensure (c.isAccount receiver) "to not a account"
  ensure (0 < amount) "cannot transfer negative hdd amount"
  ensure (isHddAmountWithinRange amount) "magnitude of amount must be less than 2^62"
  ensure (memo.length ≤ 256) "memo has more than 256 bytes"
  let row ← s.userhdd.get sender "from not exists in userhdd table"
  ensure (amount ≤ row.hddStorehhdd) "hdd overdrawn."
  ensure (isHddAmountWithinRange (row.hddStorehhdd - amount)) storeMagnitude
  let s ← addStore c
    { s with
      userhdd := s.userhdd.put sender { row with hddStorehhdd := row.hddStorehhdd - amount } }
    receiver amount
  pure (s, [])

/-- The subsidy of `sellhdd`: only until 2020-11-13 13:00:00, below the
    deduplication ratio 40000, and not for the eco fund. -/
def sellSubsidy (fp : Doubles) (c : Ctx) (g : HddGlobalParam) (user : Name) (amount : Int64) :
    Checked (List Sent) :=
  if user = ecologyfoundAcc ∨ 1605243600 < c.currentTime / 1000000 ∨
      40000 ≤ g.dupRemoveRatio then .ok []
  else do
    let quant ← Asset.make (fp.sellPrice amount g.hddPrice g.ytaPrice
      (40000 - g.dupRemoveRatio) g.dupRemoveDistRatio) coreSymbol
    pure [⟨hddSubsidyAcc, .transfer hddSubsidyAcc user quant "hdd subsidy".toList⟩]

def sellhdd (fp : Doubles) (c : Ctx) (s : Tables) (user : Name) (amount : Int64) (memo : Text) :
    Checked Outcome := do
  c.requireAuth user
  ensure (0 < amount) "cannot sell negative hdd amount"
  ensure (amount ≤ maxBuySellHddAmount) "exceed single sale volume"
  ensure (isHddAmountWithinRange amount) "magnitude of user hdd amount must be less than 2^62"
  let row ← s.userhdd.get user "user not exists in userhdd table."
  ensure (amount ≤ row.hddMinerhdd) "hdd overdrawn."
  ensure (isHddAmountWithinRange (row.hddMinerhdd - amount)) userMagnitude
  let g := s.gparams.getD {}
  let quant ← Asset.make (fp.sellPrice amount g.hddPrice g.ytaPrice g.dupRemoveRatio
    g.dupRemoveDistRatio) coreSymbol
  let subsidy ← sellSubsidy fp c g user amount
  pure
    ({ s with
        userhdd := s.userhdd.put user { row with hddMinerhdd := row.hddMinerhdd - amount } },
      ⟨hddExchgAcc, .transfer hddExchgAcc user quant memo⟩ :: subsidy)

def sethfee (fp : Doubles) (c : Ctx) (s : Tables) (user : Name) (fee : Int64) (caller : Name) :
    Checked Outcome := do
  ensure (c.isAccount user) "user invalidate"
  ensure (c.isAccount caller) "caller not an account."
  ensure (0 ≤ fee) "must use positive fee value"
  let row ← s.userhdd.get user "user not exists in userhdd table"
  ensure (fee ≠ row.hddPerCycleFee) " the fee is the same \n"
  c.checkBpAccount caller
  ensure (isHddAmountWithinRange fee) "magnitude of fee must be less than 2^62"
  let row ← settleStore fp c row
  pure ({ s with userhdd := s.userhdd.put user { row with hddPerCycleFee := fee } }, [])

def subbalance (c : Ctx) (s : Tables) (user : Name) (balance : Int64) (accType : UInt8)
    (caller : Name) : Checked Outcome := do
  ensure (c.isAccount user) "user invalidate"
  producerOr c accType caller self
  ensure (isHddAmountWithinRange balance) "magnitude of hddbalance must be less than 2^62"
  ensure (0 ≤ balance) "must use positive balance value"
  let row ← s.userhdd.get user "user not exists in userhdd table"
  -- the block producer is checked on every path, also on that of the contract itself
  c.checkBpAccount caller
  ensure (isHddAmountWithinRange (row.hddStorehhdd - balance))
    "magnitude of user hddbalance must be less than 2^62"
  pure ({ s with
    userhdd := s.userhdd.put user { row with hddStorehhdd := row.hddStorehhdd - balance } }, [])

/-- The checks shared by `addhspace` and `subhspace`. -/
def storeSpaceRow (c : Ctx) (s : Tables) (user caller : Name) : Checked UserHdd := do
  ensure (c.isAccount user) "user invalidate"
  ensure (c.isAccount caller) "caller not an account."
  let row ← s.userhdd.get user "user not exists in userhdd table"
  c.checkBpAccount caller
  pure row

def addhspace (c : Ctx) (s : Tables) (user : Name) (space : UInt64) (caller : Name) :
    Checked Outcome := do
  let row ← storeSpaceRow c s user caller
  ensure (row.hddSpaceStore + space ≤ maxUserSpace) "overflow max_userspace"
  pure ({ s with
    userhdd := s.userhdd.put user { row with hddSpaceStore := row.hddSpaceStore + space } }, [])

def subhspace (c : Ctx) (s : Tables) (user : Name) (space : UInt64) (caller : Name) :
    Checked Outcome := do
  let row ← storeSpaceRow c s user caller
  let left := if space ≤ row.hddSpaceStore then row.hddSpaceStore - space else 0
  pure ({ s with userhdd := s.userhdd.put user { row with hddSpaceStore := left } }, [])

end YottaChain.HddPool
