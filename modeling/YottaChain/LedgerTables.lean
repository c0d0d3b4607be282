/-
  **The tables of the four money contracts and what other contracts read from
  them.**

    * `eosio.token`   — `stat` and `accounts`;
    * `hddlock`       — `lockrule`, `acclock`, `accfrozen`;
    * `hdddeposit`    — `depositpool`, `depositpool2`, `miner2dep`, `depstore`
      and the deposit rate;
    * `channel.sys`   — `cbalances`.

  A table with one scope per account is keyed by the pair of scope and primary
  key.  Where scope and primary key are always the same account
  (`depositpool`, `depositpool2`, `depstore`) the account is the key.  A row does
  not repeat its primary key.  The last section lists the actions the contracts send to each other.
-/
import YottaChain.Chain

namespace YottaChain

open Checked

/-! ## 1. `eosio.token` -/

namespace Token

structure CurrencyStats where
  supply : Asset
  maxSupply : Asset
  issuer : Name

structure Tables where
  /-- `stat`, by symbol name. -/
  stat : Table UInt64 CurrencyStats
  /-- `accounts`, by owner and symbol name. -/
  accounts : Table (Name × UInt64) Asset

def getBalance (t : Tables) (owner : Name) (sym : UInt64) : Checked Asset :=
  t.accounts.get (owner, sym) "get_balance : can not find asset symbol"

end Token

/-! ## 2. `hddlock` -/

namespace HddLock

structure LockRule where
  times : List UInt64
  percentage : List UInt8

structure AccLock where
  quantity : Asset
  lockruleid : UInt64

structure Tables where
  lockrule : Table UInt64 LockRule
  /-- The `acclock` rows of an account, in the order of their rule ids. -/
  acclock : Name → List AccLock
  /-- `accfrozen`: the end of the freeze, in seconds. -/
  accfrozen : Table Name UInt64

def isFrozen (t : Tables) (currentTime : UInt64) (user : Name) : Bool :=
  match t.accfrozen.find user with
  | some time => decide (currentTime / 1000000 < time)
  | none => false

/-- The released percentage: that of the last time point that has passed. -/
def releasedPercent (curtime : UInt64) : List UInt64 → List UInt8 → UInt8 → UInt8
  | time :: times, p :: ps, percent =>
      if curtime < time then percent else releasedPercent curtime times ps p
  | _, _, percent => percent

def addLock (fp : Doubles) (t : Tables) (curtime : UInt64) (locked : Int64)
    (row : AccLock) : Checked Int64 := do
  let rule ← t.lockrule.get row.lockruleid "lockruleid not existed in rule table"
  let percent := releasedPercent curtime rule.times rule.percentage 0
  ensure (percent ≤ 100) "invalidate lock percentage"
  pure (locked + fp.lockedPart row.quantity.amount (100 - percent))

def getLockAsset (fp : Doubles) (t : Tables) (currentTime : UInt64) (user : Name) :
    Checked Asset := do
  let amount ← (t.acclock user).foldlM (addLock fp t (currentTime / 1000000)) 0
  pure ⟨amount, coreSymbol⟩

end HddLock

/-! ## 3. `hdddeposit` -/

namespace HddDeposit

/-- A row of `depositpool` or `depositpool2`. -/
structure DepositPool where
  poolType : UInt8
  depositTotal : Asset
  depositFree : Asset
  depositHis : Asset

structure Miner2Dep where
  minerType : UInt8
  accountName : Name
  deposit : Asset
  depTotal : Asset

structure Tables where
  depositpool : Table Name DepositPool
  depositpool2 : Table Name DepositPool
  miner2dep : Table UInt64 Miner2Dep
  depstore : Table Name Asset
  gdepositrate : Option Int64

def addTotal (pool : Table Name DepositPool) (user : Name) (field : DepositPool → Asset)
    (deposit : Asset) : Checked Asset :=
  match pool.find user with
  | some acc => deposit.add (field acc)
  | none => .ok deposit

def getDeposit (t : Tables) (user : Name) : Checked Asset := do
  let deposit ← addTotal t.depositpool user DepositPool.depositTotal ⟨0, coreSymbol⟩
  addTotal t.depositpool2 user DepositPool.depositTotal deposit

def getMinerForfeit (t : Tables) (minerid : UInt64) : Checked Asset :=
  match t.miner2dep.find minerid with
  | some miner =>
      if miner.deposit.amount < miner.depTotal.amount then miner.depTotal.sub miner.deposit
      else .ok ⟨0, coreSymbol⟩
  | none => .ok ⟨0, coreSymbol⟩

def getMinerDepacc (t : Tables) (minerid : UInt64) : Name :=
  match t.miner2dep.find minerid with
  | some miner => miner.accountName
  | none => 0

def isDepositEnough (fp : Doubles) (t : Tables) (deposit : Asset) (maxSpace : UInt64) : Bool :=
  decide (fp.depositFor maxSpace (t.gdepositrate.getD 100) ≤ deposit.amount)

def calcDeposit (fp : Doubles) (t : Tables) (space : UInt64) : Checked Asset :=
  Asset.make (fp.depositFor space (t.gdepositrate.getD 100)) coreSymbol

def isOldMiner (t : Tables) (minerid : UInt64) : Bool :=
  match t.miner2dep.find minerid with
  | some miner => decide (miner.minerType = 0)
  | none => true

end HddDeposit

/-! ## 4. `channel.sys` -/

namespace Channel

structure Tables where
  /-- `cbalances`, by account and type of the balance. -/
  cbalances : Table (Name × UInt8) Asset

def getfeebalance (t : Tables) (user : Name) : Asset :=
  match t.cbalances.find (user, 2) with
  | some balance => balance
  | none => ⟨0, coreSymbol⟩

end Channel

/-! ## 5. Actions between contracts -/

/-- The actions of the money contracts, and those that contracts send to
    `eosio.system` and `hddpool`. -/
inductive Act where
  -- eosio.token
  | create (issuer : Name) (maximumSupply : Asset)
  | issue (receiver : Name) (quantity : Asset) (memo : Text)
  | retire (quantity : Asset) (memo : Text)
  | transfer (sender receiver : Name) (quantity : Asset) (memo : Text)
  -- hdddeposit
  | paydeppool (user : Name) (quant : Asset)
  | unpaydeppool (user : Name) (quant : Asset)
  | paydeppool2 (user : Name) (quant : Asset)
  | undeppool2 (user : Name) (quant : Asset)
  | depstore (user : Name) (quant : Asset)
  | undepstore (user caller : Name)
  | paydeposit (user : Name) (minerid : UInt64) (quant : Asset)
  | incdeposit (minerid : UInt64) (quant : Asset)
  | mforfeit (user : Name) (minerid : UInt64) (quant : Asset) (memo : Text)
      (accType : UInt8) (caller : Name)
  | delminer (minerid : UInt64)
  | mchgdepacc (minerid : UInt64) (newDepacc : Name)
  | setrate (rate : Int64)
  | updatevote (user : Name)
  | depositlog (type : UInt8) (quant : Asset) (user : Name)
  -- channel.sys
  | mapc (user : Name) (quant gas : Asset) (bscaddr : Text)
  | feetoc (user : Name) (quant : Asset)
  | subfee (user : Name) (quant : Asset) (memo : Text)
  | splitgas
  | rewardnode (user : Name) (quant : Asset) (memo : Text)
  | channellog (type : UInt8) (quant : Asset) (user : Name) (memo : Text)
  -- eosio.system
  | changevotes (voter : Name)
  -- hddpool, sent by itself
  | poollog (type : UInt8) (quant : Asset) (minerid : UInt64) (gas : Asset) (owner : Name)
  | poolfail (type : UInt8) (quant : Asset) (minerid : UInt64) (gas : Asset) (owner : Name)
  | payrewardnew (type : UInt8) (quant : Asset) (minerid : UInt64) (isDestory : Bool)
  -- hddpool, sent by eosio.system
  | onreward (slot : UInt32)
  | onbuild (slot : UInt32)
deriving DecidableEq

/-- An action sent by a contract with the `active` permission of `actor`. -/
structure Sent where
  actor : Name
  act : Act
deriving DecidableEq

end YottaChain
