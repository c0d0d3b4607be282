/-
  **The tables of `hddpool` and the constants of its source file.**

  A row does not repeat its primary key: the key of the table is the key.
  `userhddinfo` is always opened in the scope of the account it looks up, so
  the account alone is its key; `maccount` has one scope per owner and is
  keyed by owner and miner; the two probability tables have one scope per
  buffer.  The reserved fields of the source, which no action reads, are left
  out.
-/
import YottaChain.LedgerTables

namespace YottaChain.HddPool

open Checked

/-! ## 1. Constants -/

def microsecondsInOneDay : UInt64 := 86400000000
def daysInOneMonth : UInt32 := 30
def hddmLatestStopTime : UInt64 := 1639745400000000

def oneGb : UInt64 := 65536
def maxUserSpace : UInt64 := oneGb * 1024 * (1024 * 500)
def maxProfitSpace : UInt64 := oneGb * 1024 * (1024 * 500)
def maxPoolSpace : UInt64 := oneGb * 1024 * (1024 * 500)
def maxMinerSpace : UInt64 := oneGb * (1024 * 100)
def minMinerSpace : UInt64 := 100 * oneGb
def maxBuySellHddAmount : Int64 := 2 * 1024 * 1024 * 100000000
def minBuyHddAmount : Int64 := 2 * 100000000
def defaulMinerLevel : UInt32 := 66438

def maxHddAmount : Int64 := 4611686018427387903

def isHddAmountWithinRange (amount : Int64) : Bool :=
  decide (-maxHddAmount ≤ amount ∧ amount ≤ maxHddAmount)

/-- The account of the contract, `_self`. -/
def self : Name := N "hddpool12345"
def hddExchgAcc : Name := N "hddpoolexchg"
def hddSubsidyAcc : Name := N "hddsubsidyeu"
def ecologyfoundAcc : Name := N "ecologyfound"

/-! ## 2. Rows -/

/-- A row of `userhddinfo`. -/
structure UserHdd where
  hddStorehhdd : Int64
  hddPerCycleFee : Int64
  hddSpaceStore : UInt64
  lastHddstoreTime : UInt64
  hddMinerhdd : Int64
  hddPerCycleProfit : Int64
  hddSpaceProfit : UInt64
  lastHddprofitTime : UInt64
deriving DecidableEq

structure MAccount where
  space : UInt64
  hddPerCycleProfit : Int64
  hddBalance : Int64
  lastHddTime : UInt64
deriving DecidableEq

structure StorePool where
  poolOwner : Name
  maxSpace : UInt64
  spaceLeft : UInt64
deriving DecidableEq

structure MinerInfo where
  owner : Name
  admin : Name
  poolId : Name
  maxSpace : UInt64
  spaceLeft : UInt64
deriving DecidableEq

/-- A row of `miner`, the miner table of the new model. -/
structure Miner where
  owner : Name
  admin : Name
  poolId : Name
  maxSpace : UInt64
  space : UInt64
  lastModifyTime : UInt64
  internalId : UInt32
  realSpace : UInt64
  level : UInt32
  /-- `0` earns, anything else does not. -/
  status : UInt16
deriving DecidableEq

/-- A slot of `miner2`: `minerid = 0` marks a free slot, and `nextId` is then
    the slot after it in the free list. -/
structure Miner2 where
  minerid : UInt64
  nextId : UInt64
deriving DecidableEq

structure Miner2Ex where
  nextId : UInt64 := 1
  maxTableCount : UInt64 := 0
  maxMinerCount : UInt64 := 0
deriving DecidableEq

/-- A row of `mscore1` or `mscore2`: the miner drawn by the numbers above the
    previous row's range up to this one. -/
structure MScore where
  minerid : UInt64
  range : UInt64
deriving DecidableEq

/-- The two buffers of a probability table, `N(scopea)` and `N(scopeb)`. -/
inductive Scope where
  | scopea
  | scopeb
deriving DecidableEq

structure MScore2Ex where
  mscore1S0Count : UInt64 := 0
  mscore1S1Count : UInt64 := 0
  mscore2S0Count : UInt64 := 0
  mscore2S1Count : UInt64 := 0
  buildProcId : UInt64 := 1
  prevBuildRange1 : UInt64 := 0
  prevBuildRange2 : UInt64 := 0
  buildCount1 : UInt64 := 0
  buildCount2 : UInt64 := 0
  currentS : UInt8 := 0
deriving DecidableEq

/-- `newmparam`, without the two random seeds that nothing reads. -/
structure NewMParam where
  startTime : UInt64 := 0
  nextDayTime : UInt64 := 0
  startSpace : UInt64 := 0
  taskSpace : UInt64 := 0
  lastDayIncSpace : UInt64 := 0
  lastMonthIncSpace : UInt64 := 0
  totalIssue : Int64 := 0
  totalDestory : Int64 := 0
  curIssue : Int64 := 0
  curDestory : Int64 := 0
  curReward1 : Int64 := 0
  curReward2 : Int64 := 0
  curReward1gas : Int64 := 0
  curReward2gas : Int64 := 0
  rewardDay : UInt32 := 0
  rewardMonth : UInt32 := 0
  lastRewardSlot : UInt32 := 0
  spanRewardSlot : UInt32 := 12
  newSpanRewardSlot : UInt32 := 12
  lastBuildSlot : UInt32 := 0
  spanBuildSlot : UInt32 := 2
  rewardType : UInt8 := 0
  isStarted : Bool := false
deriving DecidableEq

structure HddGlobalParam where
  hddPrice : UInt64 := 5760
  ytaPrice : UInt64 := 8000
  dupRemoveRatio : UInt64 := 10000
  dupRemoveDistRatio : UInt64 := 10000
  hddCounter : Int64 := 2 * 1024 * 1024 * 100000000
deriving DecidableEq

/-- `hdd_price_guard`: the two reference values of the price and of the
    deduplication ratio, each with its time, allowed change in percent and time
    span in seconds. -/
structure HddPriceGuard where
  lastYtaGuardPrice1 : UInt64 := 8000
  lastYtapriceGuardTime1 : UInt64
  lastYtaGuardPrice2 : UInt64 := 8000
  lastYtapriceGuardTime2 : UInt64
  lastDupRemoveGuardRatio1 : UInt64 := 10000
  lastDuprmvRatioGuardTime1 : UInt64
  lastDupRemoveGuardRatio2 : UInt64 := 10000
  lastDuprmvRatioGuardTime2 : UInt64
  ytaPriceDelta1 : UInt64 := 15
  ytaPriceTimespan1 : UInt64 := 8 * 60
  ytaPriceDelta2 : UInt64 := 50
  ytaPriceTimespan2 : UInt64 := 60 * 60 * 24
  duprmvRatioDelta1 : UInt64 := 10
  duprmvRatioTimespan1 : UInt64 := 60 * 60 * 24
  duprmvRatioDelta2 : UInt64 := 50
  duprmvRatioTimespan2 : UInt64 := 60 * 60 * 240
deriving DecidableEq

/-! ## 3. The state of the contract -/

structure Tables where
  userhdd : Table Name UserHdd
  maccount : Table (Name × UInt64) MAccount
  storepool : Table Name StorePool
  minerinfo : Table UInt64 MinerInfo
  miner : Table UInt64 Miner
  miner2 : Table UInt64 Miner2
  miner2ex : Option Miner2Ex
  mscore1 : Table (Scope × UInt64) MScore
  mscore2 : Table (Scope × UInt64) MScore
  mscore2ex : Option MScore2Ex
  newmparam : Option NewMParam
  /-- `counterstat.total_space`, in gigabytes. -/
  counterstat : Option UInt64
  gparams : Option HddGlobalParam
  paramguard : Option HddPriceGuard
  gusdprice : Option UInt64
  /-- `deposit_rate.rate`; its time stamp is never read. -/
  gdeprate : Option Int64
  hddTotalUser : UInt64
  hddMaccUser : UInt64

/-- The tables of the other contracts that `hddpool` reads. -/
structure Views where
  token : Token.Tables
  deposit : HddDeposit.Tables
  channel : Channel.Tables

def Tables.empty : Tables where
  userhdd := ∅
  maccount := ∅
  storepool := ∅
  minerinfo := ∅
  miner := ∅
  miner2 := ∅
  miner2ex := none
  mscore1 := ∅
  mscore2 := ∅
  mscore2ex := none
  newmparam := none
  counterstat := none
  gparams := none
  paramguard := none
  gusdprice := none
  gdeprate := none
  hddTotalUser := 0
  hddMaccUser := 0

def Views.empty : Views := ⟨⟨∅, ∅⟩, ⟨∅, ∅, ∅, ∅, none⟩, ⟨∅⟩⟩

abbrev Outcome : Type := Tables × List Sent

/-! ## 4. Lookups offered to other contracts -/

def isMinerExist (s : Tables) (minerid : UInt64) : Bool := (s.minerinfo.find minerid).isSome

def getMinerPoolOwner (s : Tables) (minerid : UInt64) : Name :=
  match s.minerinfo.find minerid with
  | none => 0
  | some info =>
      match s.storepool.find info.poolId with
      | none => 0
      | some pool => pool.poolOwner

def getYtaPrice (s : Tables) : UInt64 := (s.gparams.getD {}).ytaPrice

def getUsdPrice (s : Tables) : UInt64 := s.gusdprice.getD 64500

end YottaChain.HddPool
