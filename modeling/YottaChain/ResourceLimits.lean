/-
  **The resource limits manager** (`resource_limits.cpp`, `resource_limits_private.hpp`).

  Accounts have weights, which may be pending, and usages, which are moving averages over a
  day.  The share of an account in the elastic limit of a block is its weight over the sum of
  all weights.  The manager reports what an account can still use, rounding what it has used
  up, and it checks a usage against the share, rounding what has been used down.

  Values of 64 bits are `UInt64`, and the products that the code takes in 128 bits are natural
  numbers, with the remainder written out where they can be too large.
-/
import YottaChain.Chain

namespace YottaChain.Resources

open Checked

/-! ## 1. Moving averages -/

def rateLimitingPrecision : Nat := 1000000

def uint64Max : Nat := 18446744073709551615

def int64Max : Nat := 9223372036854775807

def integerDivideCeil (num den : Nat) : Nat := num / den + if num % den > 0 then 1 else 0

/-- `downgrade_cast<int64_t>`. -/
def downgradeCast (value : Nat) : Checked Int := do
  ensure (value ≤ int64Max) "Casting a higher bit integer value to a lower bit integer value"
  pure value

structure Ratio where
  numerator : UInt64
  denominator : UInt64
deriving DecidableEq

/-- `value * r`. -/
def Ratio.of (r : Ratio) (value : UInt64) : Checked UInt64 := do
  ensure (r.numerator = 0 ∨ uint64Max / r.numerator.toNat ≥ value.toNat)
    "Usage exceeds maximum value representable after extending for precision"
  pure (value * r.numerator / r.denominator)

/-- `exponential_moving_average_accumulator`. -/
structure Accumulator where
  lastOrdinal : UInt32
  /-- The average times the precision. -/
  valueEx : UInt64
  /-- The average of the last period and the contribution of the current one. -/
  consumed : UInt64
deriving DecidableEq

namespace Accumulator

def average (a : Accumulator) : UInt64 :=
  UInt64.ofNat (integerDivideCeil a.valueEx.toNat rateLimitingPrecision)

/-- The part of `add` that enters a new period. -/
def decay (a : Accumulator) (ordinal windowSize : UInt32) : Checked Accumulator := do
  ensure (ordinal > a.lastOrdinal) "new ordinal cannot be less than the previous ordinal"
  let valueEx ← (if a.lastOrdinal.toNat + windowSize.toNat > ordinal.toNat then
      Ratio.of ⟨windowSize.toUInt64 - (ordinal - a.lastOrdinal).toUInt64, windowSize.toUInt64⟩
        a.valueEx
    else pure 0 : Checked UInt64)
  let decayed : Accumulator := ⟨ordinal, valueEx, a.consumed⟩
  pure { decayed with consumed := decayed.average }

def add (a : Accumulator) (units : UInt64) (ordinal windowSize : UInt32) :
    Checked Accumulator := do
  ensure (units.toNat ≤ uint64Max / rateLimitingPrecision)
    "Usage exceeds maximum value representable after extending for precision"
  ensure (uint64Max - a.consumed.toNat ≥ units.toNat)
    "Overflow in tracked usage when adding usage!"
  let valueExContrib := integerDivideCeil (units.toNat * rateLimitingPrecision) windowSize.toNat
  ensure (valueExContrib ≤ uint64Max)
    "Casting a higher bit integer value to a lower bit integer value"
  ensure (uint64Max - a.valueEx.toNat ≥ valueExContrib)
    "Overflow in accumulated value when adding usage!"
  let a ← (if a.lastOrdinal ≠ ordinal then a.decay ordinal windowSize else pure a :
    Checked Accumulator)
  pure { a with
    consumed := a.consumed + units
    valueEx := a.valueEx + UInt64.ofNat valueExContrib }

end Accumulator

/-! ## 2. The objects -/

structure ElasticLimitParameters where
  target : UInt64
  max : UInt64
  periods : UInt32
  maxMultiplier : UInt32
  contractRate : Ratio
  expandRate : Ratio
deriving DecidableEq

structure LimitsConfig where
  cpuLimitParameters : ElasticLimitParameters
  netLimitParameters : ElasticLimitParameters
deriving DecidableEq

def accountCpuUsageAverageWindow : UInt32 := 172800

def accountNetUsageAverageWindow : UInt32 := 172800

structure LimitsState where
  averageBlockNetUsage : Accumulator
  averageBlockCpuUsage : Accumulator
  pendingNetUsage : UInt64
  pendingCpuUsage : UInt64
  totalNetWeight : UInt64
  totalCpuWeight : UInt64
  totalRamBytes : UInt64
  virtualNetLimit : UInt64
  virtualCpuLimit : UInt64
deriving DecidableEq

/-- A `resource_limits_object` without its key. -/
structure AccountLimits where
  netWeight : Int64 := -1
  cpuWeight : Int64 := -1
  ramBytes : Int64 := -1
deriving DecidableEq

/-- A `resource_usage_object` without its owner. -/
structure AccountUsage where
  netUsage : Accumulator := ⟨0, 0, 0⟩
  cpuUsage : Accumulator := ⟨0, 0, 0⟩
  ramUsage : UInt64 := 0
deriving DecidableEq

structure Manager where
  /-- The `by_owner` index: pending rows and others, by owner. -/
  limits : Table (Bool × Name) AccountLimits
  usage : Table Name AccountUsage
  config : LimitsConfig
  state : LimitsState

/-- A `flat_set` of accounts. -/
structure AccountSet where
  names : List Name
  sorted : names.Pairwise (· < ·)

namespace Manager

/-! ## 3. Limits of accounts -/

def initializeAccount (r : Manager) (account : Name) : Checked Manager := do
  let limits ← r.limits.emplace (false, account) {}
  let usage ← r.usage.emplace account {}
  pure { r with limits := limits, usage := usage }

def getAccountLimits (r : Manager) (account : Name) : Checked AccountLimits :=
  match r.limits.find (true, account) with
  | some pending => .ok pending
  | none => r.limits.get (false, account) "unknown key"

/-- `set_account_limits`, with whether the limit of RAM is decreased. -/
def setAccountLimits (r : Manager) (account : Name) (ramBytes netWeight cpuWeight : Int64) :
    Checked (Manager × Bool) := do
  let limits ← r.getAccountLimits account
  let decreasedLimit := decide (ramBytes ≥ 0) &&
    (decide (limits.ramBytes < 0) || decide (ramBytes < limits.ramBytes))
  pure ({ r with limits := r.limits.put (true, account) ⟨netWeight, cpuWeight, ramBytes⟩ },
    decreasedLimit)

/-- `update_state_and_value`. -/
def updateTotal (total : UInt64) (value pendingValue : Int64) (which : String) :
    Checked UInt64 := do
  ensure (value ≤ 0 ∨ total ≥ value.toUInt64) ("underflow when reverting old value to " ++ which)
  let total := if value > 0 then total - value.toUInt64 else total
  ensure (pendingValue ≤ 0 ∨ uint64Max - total.toNat ≥ pendingValue.toUInt64.toNat)
    ("overflow when applying new value to " ++ which)
  pure (if pendingValue > 0 then total + pendingValue.toUInt64 else total)

def firstPending (r : Manager) : Option Name :=
  (r.limits.first (fun k _ => (toLex (!k.1, k.2.toNat) : Bool ×ₗ Nat))
    fun i => (!(ofLex i).1, UInt64.ofNat (ofLex i).2)).bind
      fun k => if k.1 then some k.2 else none

/-- One round of the loop of `process_account_limit_updates`. -/
def applyPending (r : Manager) (owner : Name) : Checked Manager := do
  let pending ← r.limits.get (true, owner) "unknown key"
  let actual ← r.limits.get (false, owner) "unknown key"
  let totalRamBytes ← updateTotal r.state.totalRamBytes actual.ramBytes pending.ramBytes "ram_bytes"
  let totalCpuWeight ←
    updateTotal r.state.totalCpuWeight actual.cpuWeight pending.cpuWeight "cpu_weight"
  let totalNetWeight ←
    updateTotal r.state.totalNetWeight actual.netWeight pending.netWeight "net_weight"
  pure { r with
    limits := (r.limits.put (false, owner) pending).erase (true, owner)
    state := { r.state with
      totalRamBytes := totalRamBytes
      totalCpuWeight := totalCpuWeight
      totalNetWeight := totalNetWeight } }

def processPending : Nat → Manager → Checked Manager
  | 0, r => do
      ensure (r.firstPending = none) "too many rounds"
      pure r
  | rounds + 1, r =>
      match r.firstPending with
      | none => pure r
      | some owner => do
          let r ← r.applyPending owner
          processPending rounds r

def processAccountLimitUpdates (r : Manager) : Checked Manager := processPending r.limits.size r

/-! ## 4. Usage -/

def updateUsage (slot : UInt32) (usage : AccountUsage) : Checked AccountUsage := do
  let netUsage ← usage.netUsage.add 0 slot accountNetUsageAverageWindow
  let cpuUsage ← usage.cpuUsage.add 0 slot accountCpuUsageAverageWindow
  pure { usage with netUsage := netUsage, cpuUsage := cpuUsage }

def updateAccountUsage (r : Manager) (accounts : AccountSet) (slot : UInt32) :
    Checked Manager := do
  let usage ← r.usage.modifyAll accounts.names "unknown key" fun _ => updateUsage slot
  pure { r with usage := usage }

def maxUserUseInWindow (limit : UInt64) (windowSize : UInt32) (weight : Int64)
    (totalWeight : UInt64) : Nat :=
  limit.toNat * windowSize.toNat * weight.toInt.toNat % 2 ^ 128 / totalWeight.toNat

/-- The test that `add_transaction_usage` makes for each resource of each account. -/
def checkUsage (weight : Int64) (totalWeight limit : UInt64) (windowSize : UInt32)
    (usage : Accumulator) (message : String) : Checked Unit :=
  ensure (weight ≥ 0 ∧ totalWeight > 0 →
    usage.valueEx.toNat * windowSize.toNat / rateLimitingPrecision ≤
      maxUserUseInWindow limit windowSize weight totalWeight) message

/-- What `add_transaction_usage` does for one account. -/
def billUsage (r : Manager) (cpuUsage netUsage : UInt64) (slot : UInt32) (account : Name)
    (usage : AccountUsage) : Checked AccountUsage := do
  let limits ← r.getAccountLimits account
  let net ← usage.netUsage.add netUsage slot accountNetUsageAverageWindow
  let cpu ← usage.cpuUsage.add cpuUsage slot accountCpuUsageAverageWindow
  checkUsage limits.cpuWeight r.state.totalCpuWeight r.state.virtualCpuLimit
    accountCpuUsageAverageWindow cpu
    "authorizing account has insufficient cpu resources for this transaction"
  checkUsage limits.netWeight r.state.totalNetWeight r.state.virtualNetLimit
    accountNetUsageAverageWindow net
    "authorizing account has insufficient net resources for this transaction"
  pure { usage with netUsage := net, cpuUsage := cpu }

/-- The end of `add_transaction_usage`, where the block is billed. -/
def billBlock (cpuUsage netUsage : UInt64) (r : Manager) : Checked Manager := do
  let state := { r.state with
    pendingCpuUsage := r.state.pendingCpuUsage + cpuUsage
    pendingNetUsage := r.state.pendingNetUsage + netUsage }
  ensure (state.pendingCpuUsage ≤ r.config.cpuLimitParameters.max)
    "Block has insufficient cpu resources"
  ensure (state.pendingNetUsage ≤ r.config.netLimitParameters.max)
    "Block has insufficient net resources"
  pure { r with state := state }

def addTransactionUsage (r : Manager) (accounts : AccountSet) (cpuUsage netUsage : UInt64)
    (slot : UInt32) : Checked Manager := do
  let usage ← r.usage.modifyAll accounts.names "unknown key" (r.billUsage cpuUsage netUsage slot)
  billBlock cpuUsage netUsage { r with usage := usage }

def addPendingRamUsage (r : Manager) (account : Name) (ramDelta : Int64) : Checked Manager :=
  if ramDelta = 0 then pure r else do
    let usage ← r.usage.get account "unknown key"
    ensure (ramDelta ≤ 0 ∨ uint64Max - usage.ramUsage.toNat ≥ ramDelta.toUInt64.toNat)
      "Ram usage delta would overflow UINT64_MAX"
    ensure (ramDelta ≥ 0 ∨ usage.ramUsage ≥ (-ramDelta).toUInt64)
      "Ram usage delta would underflow UINT64_MAX"
    pure { r with usage := r.usage.put account { usage with
      ramUsage := usage.ramUsage + ramDelta.toUInt64 } }

/-! ## 5. Reports -/

structure AccountResourceLimit where
  used : Int
  available : Int
  max : Int
deriving DecidableEq

def accountLimitEx (weight : Int64) (totalWeight limit : UInt64) (windowSize : UInt32)
    (usage : Accumulator) : Checked AccountResourceLimit :=
  if weight < 0 ∨ totalWeight = 0 then pure ⟨-1, -1, -1⟩ else do
    let max := maxUserUseInWindow limit windowSize weight totalWeight
    let used := integerDivideCeil (usage.valueEx.toNat * windowSize.toNat) rateLimitingPrecision
    let available ← (if max ≤ used then pure 0 else downgradeCast (max - used) : Checked Int)
    let used ← downgradeCast used
    let max ← downgradeCast max
    pure ⟨used, available, max⟩

def getAccountCpuLimitEx (r : Manager) (name : Name) (elastic : Bool) :
    Checked AccountResourceLimit := do
  let usage ← r.usage.get name "unknown key"
  let limits ← r.getAccountLimits name
  accountLimitEx limits.cpuWeight r.state.totalCpuWeight
    (if elastic then r.state.virtualCpuLimit else r.config.cpuLimitParameters.max)
    accountCpuUsageAverageWindow usage.cpuUsage

def getAccountNetLimitEx (r : Manager) (name : Name) (elastic : Bool) :
    Checked AccountResourceLimit := do
  let usage ← r.usage.get name "unknown key"
  let limits ← r.getAccountLimits name
  accountLimitEx limits.netWeight r.state.totalNetWeight
    (if elastic then r.state.virtualNetLimit else r.config.netLimitParameters.max)
    accountNetUsageAverageWindow usage.netUsage

def getAccountCpuLimit (r : Manager) (name : Name) (elastic : Bool) : Checked Int := do
  let limit ← r.getAccountCpuLimitEx name elastic
  pure limit.available

def getAccountNetLimit (r : Manager) (name : Name) (elastic : Bool) : Checked Int := do
  let limit ← r.getAccountNetLimitEx name elastic
  pure limit.available

def getBlockCpuLimit (r : Manager) : UInt64 :=
  r.config.cpuLimitParameters.max - r.state.pendingCpuUsage

def getBlockNetLimit (r : Manager) : UInt64 :=
  r.config.netLimitParameters.max - r.state.pendingNetUsage

/-! ## 6. Blocks -/

/-- `elastic_limit_parameters::validate`. -/
def validateParameters (p : ElasticLimitParameters) : Checked Unit := do
  ensure (p.periods > 0) "elastic limit parameter 'periods' cannot be zero"
  ensure (p.contractRate.denominator > 0)
    "elastic limit parameter 'contract_rate' is not a well-defined ratio"
  ensure (p.expandRate.denominator > 0)
    "elastic limit parameter 'expand_rate' is not a well-defined ratio"

def setBlockParameters (r : Manager) (cpu net : ElasticLimitParameters) :
    Checked Manager := do
  validateParameters cpu
  validateParameters net
  pure { r with config := ⟨cpu, net⟩ }

def updateElasticLimit (currentLimit averageUsage : UInt64) (params : ElasticLimitParameters) :
    Checked UInt64 := do
  let result ← (if averageUsage > params.target then params.contractRate.of currentLimit
    else params.expandRate.of currentLimit : Checked UInt64)
  pure (min (max result params.max) (params.max * params.maxMultiplier.toUInt64))

def processBlockUsage (r : Manager) (blockNum : UInt32) : Checked Manager := do
  let cpu ← r.state.averageBlockCpuUsage.add r.state.pendingCpuUsage blockNum
    r.config.cpuLimitParameters.periods
  let virtualCpuLimit ←
    updateElasticLimit r.state.virtualCpuLimit cpu.average r.config.cpuLimitParameters
  let net ← r.state.averageBlockNetUsage.add r.state.pendingNetUsage blockNum
    r.config.netLimitParameters.periods
  let virtualNetLimit ←
    updateElasticLimit r.state.virtualNetLimit net.average r.config.netLimitParameters
  pure { r with state := { r.state with
    averageBlockCpuUsage := cpu
    virtualCpuLimit := virtualCpuLimit
    pendingCpuUsage := 0
    averageBlockNetUsage := net
    virtualNetLimit := virtualNetLimit
    pendingNetUsage := 0 } }

end Manager

end YottaChain.Resources
