/-
  **The tables of `eosio.system` and what its actions read.**

  The state is split by what changes together:

    * `Election` — `voters`, `producers`, `producersext`, the level lists
      `prodslevel` and the totals of the vote;
    * `Staking`  — `userres`, `delband`, `refunds` and the refunds that are
      scheduled as deferred transactions;
    * `Ram`      — the market `rammarket` and the totals of the sold memory;
    * `Names`    — the auctions `namebids`;
    * `Pay`      — the three buckets of the producer pay.

  The fields of the singletons `global` and `globalext` are where they belong by
  this division.  A vote weight is a `double` that holds an integer, and is that
  integer here.  Tables with one scope per account are keyed by the account, or by
  the pair of scope and primary key.
-/
import YottaChain.HddPoolTables
import YottaChain.KeyedList

namespace YottaChain.System

def self : Name := N "eosio"

/-! ## 1. Producers and voters -/

/-- `eosio::public_key`: the type and the bytes. -/
structure PublicKey where
  type : UInt32 := 0
  data : List UInt8 := List.replicate 33 0
deriving DecidableEq

/-- `eosio::producer_key`: an entry of a schedule. -/
structure ProducerKey where
  producerName : Name
  blockSigningKey : PublicKey
deriving DecidableEq

/-- `producer_info`, without its url and the time of the last claim. -/
structure ProducerInfo where
  totalVotes : ℤ := 0
  producerKey : PublicKey
  isActive : Bool := true
  unpaidBlocks : UInt32 := 0
  location : UInt16

/-- `producer_info_ext`, without `unpaid_amount`. -/
structure ProducerInfoExt where
  seqNum : UInt16
  level : UInt8
  unpaidBaseCnt : UInt32 := 0
  shadow : Name

structure YtaProdInfo where
  owner : Name
  totalVotes : ℤ
  producerKey : PublicKey
  isActive : Bool
  location : UInt16
  isInGrace : Bool
  graceStartTime : UInt64

structure AllProdsLevel where
  prodsL1 : List YtaProdInfo := []
  prodsL2 : List YtaProdInfo := []

def AllProdsLevel.listed (s : AllProdsLevel) : List YtaProdInfo := s.prodsL1 ++ s.prodsL2

/-- `voter_info`, without its reserved fields. -/
structure VoterInfo where
  proxy : Name := 0
  producers : List Name := []
  staked : Int64 := 0
  lastVoteWeight : ℤ := 0
  proxiedVoteWeight : ℤ := 0
  isProxy : Bool := false

/-- `eosio_global_state3`. -/
structure AutoSchedule where
  isSchedule : Bool := false
  minL1 : UInt8 := 15
  maxL2 : UInt8 := 0

structure Election where
  voters : Table Name VoterInfo := ∅
  producers : Table Name ProducerInfo := ∅
  producersext : Table Name ProducerInfoExt := ∅
  prodslevel : Option AllProdsLevel := none
  globalext3 : Option AutoSchedule := none
  totalUnpaidBlocks : UInt32 := 0
  totalUnpaidBaseCnt : UInt32 := 0
  totalActivatedStake : Int64 := 0
  threshActivatedStakeTime : UInt64 := 0
  totalProducerVoteWeight : ℤ := 0
  /-- The slot of the last update of the schedule. -/
  lastProducerScheduleUpdate : UInt32 := 0
  /-- The schedule last given to `set_proposed_producers`. -/
  proposedProducers : Option (List ProducerKey) := none

/-! ## 2. Bandwidth and memory -/

structure UserResources where
  netWeight : Asset := .core 0
  cpuWeight : Asset := .core 0
  ramBytes : Int64 := 0

structure DelegatedBandwidth where
  netWeight : Asset
  cpuWeight : Asset

structure RefundRequest where
  requestTime : UInt32
  netAmount : Asset := .core 0
  cpuAmount : Asset := .core 0

structure Staking where
  userres : Table Name UserResources := ∅
  /-- `delband`, by the account that delegates and the receiver. -/
  delband : Table (Name × Name) DelegatedBandwidth := ∅
  refunds : Table Name RefundRequest := ∅
  /-- The deferred refund transactions by their sender id, with the second from
      which each can be executed. -/
  deferred : Table Name UInt32 := ∅

/-- `S(0,RAM)`. -/
def ramSymbol : UInt64 :=
  ((82 : UInt64) <<< 8) ||| ((65 : UInt64) <<< 16) ||| ((77 : UInt64) <<< 24)

/-- `S(4,RAMCORE)`. -/
def ramcoreSymbol : UInt64 :=
  (4 : UInt64) ||| ((82 : UInt64) <<< 8) ||| ((65 : UInt64) <<< 16) ||| ((77 : UInt64) <<< 24) |||
    ((67 : UInt64) <<< 32) ||| ((79 : UInt64) <<< 40) ||| ((82 : UInt64) <<< 48) |||
    ((69 : UInt64) <<< 56)

/-- `exchange_state` with the balances of its two connectors. -/
structure ExchangeState where
  supply : Asset
  base : Asset
  quote : Asset

structure Ram where
  rammarket : Option ExchangeState := none
  maxRamSize : UInt64 := 64 * 1024 * 1024 * 1024
  totalRamBytesReserved : UInt64 := 0
  totalRamStake : Int64 := 0

/-! ## 3. Names and pay -/

/-- `name_bid`; a negative `highBid` is a closed auction waiting to be claimed. -/
structure NameBid where
  highBidder : Name
  highBid : Int64
  lastBidTime : UInt64
deriving DecidableEq

structure Names where
  namebids : Table Name NameBid := ∅
  /-- The slot of the last block that closed an auction. -/
  lastNameClose : UInt32 := 0

structure Pay where
  lastPervoteBucketFill : UInt64 := 0
  pervoteBucket : Int64 := 0
  perblockBucket : Int64 := 0
  perbaseBucket : Int64 := 0
  lastClaimTime : UInt64 := 0

/-! ## 4. The state and the environment -/

structure Tables where
  election : Election := {}
  staking : Staking := {}
  ram : Ram := {}
  names : Names := {}
  pay : Pay := {}

/-- The results of the two floating-point conversions of the memory market, from the
    supply, the balance of the connector and the amount converted. -/
structure Pricing where
  toExchange : Int64 → Int64 → Int64 → Int64
  fromExchange : Int64 → Int64 → Int64 → Int64

/-- What an action sees: the chain, the tables of other contracts, and the library
    functions of which only the interface is fixed. -/
structure Env where
  ctx : Ctx
  fp : Doubles
  token : Token.Tables
  deposit : HddDeposit.Tables
  lock : HddLock.Tables
  hddpool : HddPool.Tables
  pricing : Pricing
  sorter : KeyedList.Sorter

abbrev Outcome : Type := Tables × List Sent

/-! ## 5. Lookups offered to other contracts -/

def isActiveVoter (e : Election) (owner : Name) : Bool :=
  match e.voters.find owner with
  | none => false
  | some voter => !voter.producers.isEmpty

/-- `getProducerSeq`, with the shadow account it returns by reference. -/
def getProducerSeq (e : Election) (producer : Name) : Option (UInt16 × Name) :=
  (e.producersext.find producer).map fun prod => (prod.seqNum, prod.shadow)

end YottaChain.System

namespace YottaChain

def HddDeposit.getDepositfree (t : HddDeposit.Tables) (user : Name) : Checked Asset := do
  let deposit ← addTotal t.depositpool user DepositPool.depositFree (.core 0)
  addTotal t.depositpool2 user DepositPool.depositFree deposit

def HddPool.getNextRewardSlot (t : HddPool.Tables) : UInt32 :=
  match t.newmparam with
  | some p => p.lastRewardSlot + p.spanRewardSlot
  | none => 0xffffffff

def HddPool.getNextBuildSlot (t : HddPool.Tables) : UInt32 :=
  match t.newmparam with
  | some p => p.lastBuildSlot + p.spanBuildSlot
  | none => 0xffffffff

/-- `eosio.token`'s `get_supply`. -/
def Token.getSupply (t : Token.Tables) (sym : UInt64) : Checked Asset := do
  let st ← t.stat.get sym "get_supply : can not find symbol"
  pure st.supply

end YottaChain
