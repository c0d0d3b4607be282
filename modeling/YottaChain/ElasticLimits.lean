/-
  **The elastic limits of blocks** (`controller_impl::finalize_block`,
  `resource_limits_manager::process_block_usage`, `chain_config::validate`).

  At the end of a block the average usage decides whether the elastic limits contract or
  expand, between the maximum of a block and a thousand times as much.  The maxima come from
  the chain configuration, which a contract may set to anything that `validate` accepts.  CPU
  is counted in 32 bits there and is always in range.  The maximum of NET has 64 bits and no
  upper bound, and its products have 64 bits as well: it has to be at most `netBound` for the
  limits to stay in range (`limits_stay_in_range`).
-/
import YottaChain.MovingAverage

namespace YottaChain.Resources

open Checked Run Accumulator UInt64

/-! ## 1. The configuration -/

/-- The fields of `chain_config` that are validated. -/
structure ChainConfig where
  maxBlockNetUsage : UInt64
  targetBlockNetUsagePct : UInt32
  maxTransactionNetUsage : UInt32
  basePerTransactionNetUsage : UInt32
  contextFreeDiscountNetUsageNum : UInt32
  contextFreeDiscountNetUsageDen : UInt32
  maxBlockCpuUsage : UInt32
  targetBlockCpuUsagePct : UInt32
  maxTransactionCpuUsage : UInt32
  minTransactionCpuUsage : UInt32
  maxAuthorityDepth : UInt16

namespace ChainConfig

def percent100 : UInt32 := 10000

def percent1 : UInt32 := 100

def minNetUsageDeltaBetweenBaseAndMaxForTrx : UInt32 := 10240

def validate (c : ChainConfig) : Checked Unit := do
  ensure (c.targetBlockNetUsagePct ≤ percent100)
    "target block net usage percentage cannot exceed 100%"
  ensure (c.targetBlockNetUsagePct ≥ percent1 / 10)
    "target block net usage percentage must be at least 0.1%"
  ensure (c.targetBlockCpuUsagePct ≤ percent100)
    "target block cpu usage percentage cannot exceed 100%"
  ensure (c.targetBlockCpuUsagePct ≥ percent1 / 10)
    "target block cpu usage percentage must be at least 0.1%"
  ensure (c.maxTransactionNetUsage.toUInt64 < c.maxBlockNetUsage)
    "max transaction net usage must be less than max block net usage"
  ensure (c.maxTransactionCpuUsage < c.maxBlockCpuUsage)
    "max transaction cpu usage must be less than max block cpu usage"
  ensure (c.basePerTransactionNetUsage < c.maxTransactionNetUsage)
    "base net usage per transaction must be less than the max transaction net usage"
  ensure (c.maxTransactionNetUsage - c.basePerTransactionNetUsage ≥
      minNetUsageDeltaBetweenBaseAndMaxForTrx)
    "max transaction net usage must be at least 10240 bytes larger than base net usage per transaction"
  ensure (c.contextFreeDiscountNetUsageDen > 0)
    "net usage discount ratio for context free data cannot have a 0 denominator"
  ensure (c.contextFreeDiscountNetUsageNum ≤ c.contextFreeDiscountNetUsageDen)
    "net usage discount ratio for context free data cannot exceed 1"
  ensure (c.minTransactionCpuUsage ≤ c.maxTransactionCpuUsage)
    "min transaction cpu usage cannot exceed max transaction cpu usage"
  ensure (c.maxTransactionCpuUsage < c.maxBlockCpuUsage - c.minTransactionCpuUsage)
    "max transaction cpu usage must be at less than the difference between the max block cpu usage and the min transaction cpu usage"
  ensure (1 ≤ c.maxAuthorityDepth) "max authority depth should be at least 1"

def eosPercent (value : UInt64) (percentage : UInt32) : UInt64 :=
  value * percentage.toUInt64 / percent100.toUInt64

/-- The parameters that `finalize_block` makes for a maximum and a target percentage: a minute of
    half seconds, and the rates that are fixed in the code. -/
def elasticParameters (max : UInt64) (targetPct : UInt32) : ElasticLimitParameters where
  target := eosPercent max targetPct
  max := max
  periods := 120
  maxMultiplier := 1000
  contractRate := ⟨99, 100⟩
  expandRate := ⟨1000, 999⟩

def cpuParameters (c : ChainConfig) : ElasticLimitParameters :=
  elasticParameters c.maxBlockCpuUsage.toUInt64 c.targetBlockCpuUsagePct

def netParameters (c : ChainConfig) : ElasticLimitParameters :=
  elasticParameters c.maxBlockNetUsage c.targetBlockNetUsagePct

end ChainConfig

/-- The elastic limits in `finalize_block`. -/
def Manager.finalizeBlock (r : Manager) (c : ChainConfig) (blockNum : UInt32) :
    Checked Manager := do
  let r ← r.setBlockParameters c.cpuParameters c.netParameters
  r.processBlockUsage blockNum

/-- `initialize_database`: the defaults, and limits as in a congested chain. -/
def initialManager : Manager where
  limits := ∅
  usage := ∅
  config := ⟨ChainConfig.elasticParameters 200000 1000, ChainConfig.elasticParameters 1048576 1000⟩
  state :=
    { averageBlockNetUsage := ⟨0, 0, 0⟩
      averageBlockCpuUsage := ⟨0, 0, 0⟩
      pendingNetUsage := 0
      pendingCpuUsage := 0
      totalNetWeight := 0
      totalCpuWeight := 0
      totalRamBytes := 0
      virtualNetLimit := 1048576
      virtualCpuLimit := 200000 }

/-! ## 2. Blocks -/

structure SameLimits (r r₁ : Manager) : Prop where
  config : r₁.config = r.config
  cpuAverage : r₁.state.averageBlockCpuUsage = r.state.averageBlockCpuUsage
  netAverage : r₁.state.averageBlockNetUsage = r.state.averageBlockNetUsage
  cpuLimit : r₁.state.virtualCpuLimit = r.state.virtualCpuLimit
  netLimit : r₁.state.virtualNetLimit = r.state.virtualNetLimit

/-- A block at its end: a configuration that is accepted, usage within the maxima in force and a
    number greater than those before. -/
structure Ends (r : Manager) (c : ChainConfig) (blockNum : UInt32) : Prop where
  accepted : c.validate = .ok ()
  cpu : r.state.pendingCpuUsage ≤ r.config.cpuLimitParameters.max
  net : r.state.pendingNetUsage ≤ r.config.netLimitParameters.max
  cpuLater : r.state.averageBlockCpuUsage.lastOrdinal < blockNum
  netLater : r.state.averageBlockNetUsage.lastOrdinal < blockNum

def netBound : Nat := 18446744073709

def usageBound : Nat := 155014656081

structure InRange (r : Manager) (c : ChainConfig) : Prop where
  maximum : c.maxBlockNetUsage.toNat ≤ netBound
  usage : r.state.pendingNetUsage.toNat ≤ usageBound

def Step (r r' : Manager) : Prop :=
  ∃ r₁ c blockNum, SameLimits r r₁ ∧ Ends r₁ c blockNum ∧ InRange r₁ c ∧
    r₁.finalizeBlock c blockNum = .ok r'

/-! ## 3. The averages -/

/-- An average of at most `usageBound` units, with what rounding up may have added. -/
structure Bounded (a : Accumulator) : Prop where
  value : a.valueEx.toNat ≤ usageBound * rateLimitingPrecision + 119
  consumed : a.consumed.toNat ≤ 2 ^ 40

variable {a : Accumulator} {ordinal : UInt32}

/-- A new period multiplies the value by at most 119 / 120, without an overflow. -/
theorem Bounded.decay (h : Bounded a) (hlater : a.lastOrdinal < ordinal) :
    ∃ b, a.decay ordinal 120 = .ok b ∧
      b.valueEx.toNat ≤ (usageBound * rateLimitingPrecision + 119) * 119 / 120 ∧
      b.consumed.toNat ≤ usageBound + 1 := by
  have hlt := UInt32.lt_iff_toNat_lt.mp hlater
  have hwindow : (120 : UInt32).toNat = 120 := rfl
  have hfactor : 120 - (ordinal.toNat - a.lastOrdinal.toNat) ≤ 119 := by omega
  have hproduct := Nat.mul_le_mul h.value hfactor
  let value := decayed a.valueEx.toNat 120 (ordinal.toNat - a.lastOrdinal.toNat)
  have hvalue : value ≤ (usageBound * rateLimitingPrecision + 119) * 119 / 120 :=
    Nat.div_le_div_right hproduct
  unfold usageBound rateLimitingPrecision at *
  let b : Accumulator := ⟨ordinal, UInt64.ofNat value, 0⟩
  have hb : b.valueEx.toNat = value := toNat_ofNat_of_le (by unfold uint64Max; omega)
  refine ⟨{ b with consumed := b.average }, decay_eq_ok.mpr ⟨hlater, ?_, rfl, hb, rfl⟩, ?_, ?_⟩
  · rw [hwindow]
    unfold uint64Max
    omega
  · exact hb ▸ hvalue
  · show b.average.toNat ≤ _
    rw [toNat_average, hb]
    refine (integerDivideCeil_le _ (by decide)).trans ?_
    unfold rateLimitingPrecision
    omega

/-- A block of at most `usageBound` units keeps the average bounded, and nothing overflows. -/
theorem Bounded.add (h : Bounded a) {units : UInt64} (hunits : units.toNat ≤ usageBound)
    (hlater : a.lastOrdinal < ordinal) : ∃ a', a.add units ordinal 120 = .ok a' ∧ Bounded a' := by
  obtain ⟨b, hb, hbvalue, hbconsumed⟩ := h.decay hlater
  obtain ⟨hvalue, hconsumed⟩ := h
  have hcontrib : contrib units 120 ≤ (units.toNat * rateLimitingPrecision + 119) / 120 :=
    integerDivideCeil_le _ (by decide)
  unfold usageBound rateLimitingPrecision at *
  let a' : Accumulator := ⟨ordinal, UInt64.ofNat (b.valueEx.toNat + contrib units 120),
    b.consumed + units⟩
  have ha'value : a'.valueEx.toNat = b.valueEx.toNat + contrib units 120 :=
    toNat_ofNat_of_le (by unfold uint64Max; omega)
  have ha'consumed : a'.consumed.toNat = b.consumed.toNat + units.toNat :=
    FixedWidth.toNat_add_of_lt (by omega)
  refine ⟨a', add_eq_ok.mpr ⟨?_, ?_, ?_, b, .later (UInt32.ne_of_lt hlater) hb, rfl, rfl, ha'value⟩,
    ?_, ?_⟩
  · unfold uint64Max rateLimitingPrecision
    omega
  · unfold uint64Max
    omega
  · unfold uint64Max
    omega
  · rw [ha'value]
    unfold usageBound rateLimitingPrecision
    omega
  · rw [ha'consumed]
    omega

/-! ## 4. The limits -/

structure Between (max limit : UInt64) : Prop where
  lower : max.toNat ≤ limit.toNat
  upper : limit.toNat ≤ 1000 * max.toNat

variable {top : UInt64}

theorem clamp_between {result : UInt64} (htop : 1000 * top.toNat ≤ uint64Max) :
    Between top (min (max result top) (top * (1000 : UInt32).toUInt64)) := by
  have hproduct : (top * (1000 : UInt32).toUInt64).toNat = 1000 * top.toNat := by
    rw [UInt64.toNat_mul, Nat.mul_comm]
    exact Nat.mod_eq_of_lt (Nat.lt_succ_of_le htop)
  constructor
  · rw [FixedWidth.toNat_min, FixedWidth.toNat_max, hproduct]
    omega
  · rw [FixedWidth.toNat_min, hproduct]
    exact Nat.min_le_right _ _

variable {pct : UInt32}

theorem updateElasticLimit_between {current average : UInt64}
    (hcurrent : current.toNat * 1000 ≤ uint64Max) (htop : 1000 * top.toNat ≤ uint64Max) :
    ∃ limit, Manager.updateElasticLimit current average (ChainConfig.elasticParameters top pct) =
      .ok limit ∧ Between top limit := by
  have hrate : ∀ r : Ratio, r.numerator.toNat ≤ 1000 → ∃ result, r.of current = .ok result := by
    intro r hr
    have hle : current.toNat * r.numerator.toNat ≤ uint64Max :=
      (Nat.mul_le_mul_left _ hr).trans hcurrent
    refine ⟨UInt64.ofNat (current.toNat * r.numerator.toNat / r.denominator.toNat),
      Ratio.of_eq_ok.mpr ⟨hle, ?_⟩⟩
    exact toNat_ofNat_of_le ((Nat.div_le_self _ _).trans hle)
  have hresult : ∃ result, (if average > (ChainConfig.elasticParameters top pct).target then
      (ChainConfig.elasticParameters top pct).contractRate.of current
      else (ChainConfig.elasticParameters top pct).expandRate.of current : Checked UInt64) =
        .ok result := by
    split
    · exact hrate ⟨99, 100⟩ (by decide)
    · exact hrate ⟨1000, 999⟩ (by decide)
  obtain ⟨result, hresult⟩ := hresult
  have hlimit : Between top (min (max result top) (top * (1000 : UInt32).toUInt64)) :=
    clamp_between htop
  refine ⟨_, ?_, hlimit⟩
  simp only [Manager.updateElasticLimit, ok_iff]
  exact ⟨result, hresult, rfl⟩

theorem validateParameters_elastic (top : UInt64) (pct : UInt32) :
    Manager.validateParameters (ChainConfig.elasticParameters top pct) = .ok () := rfl

/-- The target is a part of the maximum, whatever wraps around. -/
theorem target_le (hpct : pct ≤ ChainConfig.percent100) :
    (ChainConfig.elasticParameters top pct).target ≤ top := by
  have hle : pct.toNat ≤ 10000 := UInt32.le_iff_toNat_le.mp hpct
  rw [le_iff_toNat_le]
  show (top * pct.toUInt64 / ChainConfig.percent100.toUInt64).toNat ≤ _
  rw [UInt64.toNat_div, UInt64.toNat_mul, UInt32.toNat_toUInt64]
  refine Nat.div_le_of_le_mul ((Nat.mod_le _ _).trans ?_)
  rw [Nat.mul_comm]
  exact Nat.mul_le_mul_right _ hle

structure Inv (r : Manager) : Prop where
  cpuAverage : Bounded r.state.averageBlockCpuUsage
  netAverage : Bounded r.state.averageBlockNetUsage
  cpuMax : r.config.cpuLimitParameters.max.toNat < 2 ^ 32
  netMax : r.config.netLimitParameters.max.toNat ≤ netBound
  cpuLimit : Between r.config.cpuLimitParameters.max r.state.virtualCpuLimit
  netLimit : Between r.config.netLimitParameters.max r.state.virtualNetLimit

theorem Inv.initial : Inv initialManager where
  cpuAverage := ⟨by decide, by decide⟩
  netAverage := ⟨by decide, by decide⟩
  cpuMax := by decide
  netMax := by decide
  cpuLimit := ⟨by decide, by decide⟩
  netLimit := ⟨by decide, by decide⟩

variable {r : Manager}

theorem Inv.during {r₁ : Manager} (h : Inv r) (hsame : SameLimits r r₁) : Inv r₁ := by
  constructor
  · exact hsame.cpuAverage ▸ h.cpuAverage
  · exact hsame.netAverage ▸ h.netAverage
  · exact hsame.config ▸ h.cpuMax
  · exact hsame.config ▸ h.netMax
  · rw [hsame.config, hsame.cpuLimit]
    exact h.cpuLimit
  · rw [hsame.config, hsame.netLimit]
    exact h.netLimit

variable {c : ChainConfig}

/-- The end of a block in range: nothing throws, and the new limits are in range. -/
theorem Inv.finalizeBlock (h : Inv r) {blockNum : UInt32} (hends : Ends r c blockNum)
    (hrange : InRange r c) :
    ∃ r', r.finalizeBlock c blockNum = .ok r' ∧ r'.config = ⟨c.cpuParameters, c.netParameters⟩ ∧
      Inv r' := by
  have hmaxCpu := c.maxBlockCpuUsage.toNat_lt
  have hmaxNet := hrange.maximum
  have hpendingCpu : r.state.pendingCpuUsage.toNat ≤ usageBound :=
    (le_iff_toNat_le.mp hends.cpu).trans (h.cpuMax.le.trans (by decide))
  obtain ⟨cpu, hcpu, hcpuBounded⟩ := h.cpuAverage.add hpendingCpu hends.cpuLater
  obtain ⟨net, hnet, hnetBounded⟩ := h.netAverage.add hrange.usage hends.netLater
  have hcpuUpper := h.cpuLimit.upper
  have hnetUpper := h.netLimit.upper
  have hcpuMax := h.cpuMax
  have hnetMax := h.netMax
  unfold netBound at hmaxNet hnetMax
  have hcpuLimit : ∃ limit, Manager.updateElasticLimit r.state.virtualCpuLimit cpu.average
      c.cpuParameters = .ok limit ∧ Between c.maxBlockCpuUsage.toUInt64 limit := by
    apply updateElasticLimit_between
    · unfold uint64Max
      omega
    · unfold uint64Max
      rw [UInt32.toNat_toUInt64]
      omega
  have hnetLimit : ∃ limit, Manager.updateElasticLimit r.state.virtualNetLimit net.average
      c.netParameters = .ok limit ∧ Between c.maxBlockNetUsage limit := by
    apply updateElasticLimit_between
    · unfold uint64Max
      omega
    · unfold uint64Max
      omega
  obtain ⟨cpuLimit, hcpuUpdate, hcpuBetween⟩ := hcpuLimit
  obtain ⟨netLimit, hnetUpdate, hnetBetween⟩ := hnetLimit
  refine ⟨{ r with
    config := ⟨c.cpuParameters, c.netParameters⟩
    state := { r.state with
      averageBlockCpuUsage := cpu
      virtualCpuLimit := cpuLimit
      pendingCpuUsage := 0
      averageBlockNetUsage := net
      virtualNetLimit := netLimit
      pendingNetUsage := 0 } }, ?_, rfl, hcpuBounded, hnetBounded, ?_, hrange.maximum, hcpuBetween,
    hnetBetween⟩
  · simp only [Manager.finalizeBlock, Manager.setBlockParameters, Manager.processBlockUsage, ok_iff]
    refine ⟨_, ⟨(), validateParameters_elastic _ _, (), validateParameters_elastic _ _, rfl⟩, ?_⟩
    exact ⟨cpu, hcpu, cpuLimit, hcpuUpdate, net, hnet, netLimit, hnetUpdate, rfl⟩
  · show c.maxBlockCpuUsage.toUInt64.toNat < 2 ^ 32
    rw [UInt32.toNat_toUInt64]
    exact hmaxCpu

theorem Inv.step {r' : Manager} (h : Inv r) (hstep : Step r r') : Inv r' := by
  obtain ⟨r₁, c, blockNum, hsame, hends, hrange, hok⟩ := hstep
  obtain ⟨r2, hok', _, hinv⟩ := (h.during hsame).finalizeBlock hends hrange
  rw [hok] at hok'
  cases hok'
  exact hinv

theorem validate_targets (h : c.validate = .ok ()) :
    c.targetBlockCpuUsagePct ≤ ChainConfig.percent100 ∧
      c.targetBlockNetUsagePct ≤ ChainConfig.percent100 := by
  simp only [ChainConfig.validate, ok_iff] at h
  exact ⟨h.2.2.1, h.1⟩

def sampleConfig (maxBlockNetUsage : UInt64) : ChainConfig where
  maxBlockNetUsage := maxBlockNetUsage
  targetBlockNetUsagePct := 1000
  maxTransactionNetUsage := 524288
  basePerTransactionNetUsage := 12
  contextFreeDiscountNetUsageNum := 20
  contextFreeDiscountNetUsageDen := 100
  maxBlockCpuUsage := 200000
  targetBlockCpuUsagePct := 1000
  maxTransactionCpuUsage := 150000
  minTransactionCpuUsage := 100
  maxAuthorityDepth := 6

/-- **No block is stopped by the elastic limits**, in a run of blocks whose maximum and usage of
    NET are in range: the next one is finalized, and the limits are between the maxima and a
    thousand times as much. -/
theorem limits_stay_in_range {r r₁ : Manager} (hrun : Steps Step initialManager r)
    (hsame : SameLimits r r₁) {c : ChainConfig} {blockNum : UInt32} (hends : Ends r₁ c blockNum)
    (hrange : InRange r₁ c) :
    ∃ r', r₁.finalizeBlock c blockNum = .ok r' ∧
      c.cpuParameters.target ≤ c.maxBlockCpuUsage.toUInt64 ∧
      c.netParameters.target ≤ c.maxBlockNetUsage ∧
      Between c.maxBlockCpuUsage.toUInt64 r'.state.virtualCpuLimit ∧
      Between c.maxBlockNetUsage r'.state.virtualNetLimit := by
  have hinv : Inv r := invariant (fun _ _ h hstep => h.step hstep) Inv.initial hrun
  obtain ⟨r', hok, hconfig, hinv'⟩ := (hinv.during hsame).finalizeBlock hends hrange
  obtain ⟨hcpuPct, hnetPct⟩ := validate_targets hends.accepted
  have hcpuLimit := hinv'.cpuLimit
  have hnetLimit := hinv'.netLimit
  rw [hconfig] at hcpuLimit hnetLimit
  exact ⟨r', hok, target_le hcpuPct, target_le hnetPct, hcpuLimit, hnetLimit⟩

/-- A block that has used all it may. -/
def filled (r : Manager) : Manager :=
  { r with state := { r.state with pendingCpuUsage := 200000, pendingNetUsage := 1048576 } }

def fullBlock (r : Manager) (blockNum : UInt32) : Checked Manager := do
  ensure (200000 ≤ r.config.cpuLimitParameters.max ∧ 1048576 ≤ r.config.netLimitParameters.max ∧
    r.state.averageBlockCpuUsage.lastOrdinal < blockNum ∧
    r.state.averageBlockNetUsage.lastOrdinal < blockNum) "not at its end"
  (filled r).finalizeBlock (sampleConfig 1048576) blockNum

theorem fullBlock_ok {r r' : Manager} {blockNum : UInt32} (h : fullBlock r blockNum = .ok r') :
    Ends (filled r) (sampleConfig 1048576) blockNum ∧ InRange (filled r) (sampleConfig 1048576) ∧
      (filled r).finalizeBlock (sampleConfig 1048576) blockNum = .ok r' := by
  simp only [fullBlock, ok_iff] at h
  obtain ⟨⟨hcpu, hnet, hcpuLater, hnetLater⟩, hok⟩ := h
  have haccepted : (sampleConfig 1048576).validate = .ok () := by decide +kernel
  have husage : (filled r).state.pendingNetUsage.toNat ≤ usageBound :=
    show (1048576 : UInt64).toNat ≤ usageBound by decide
  exact ⟨⟨haccepted, hcpu, hnet, hcpuLater, hnetLater⟩, ⟨by decide, husage⟩, hok⟩

/-- Twelve full blocks: the averages are still below the targets, and the limits have grown.  The
    next full block lowers them. -/
theorem limits_stay_in_range_sample :
    ∃ r r', Steps Step initialManager r ∧ fullBlock r 14 = .ok r' ∧
      r.state.virtualNetLimit = 1061234 ∧ r'.state.virtualNetLimit = 1050621 ∧
      Between 1048576 r'.state.virtualNetLimit := by
  obtain ⟨⟨_, _⟩, hblocks, hview⟩ := exists_of_map_eq_ok
    (x := do
      let r ← [2, 3, 4, 5, 6, 7, 8, 9, 10, 11, 12, 13].foldlM fullBlock initialManager
      let r' ← fullBlock r 14
      pure (r, r'))
    (f := fun out => (out.1.state.virtualNetLimit, out.2.state.virtualNetLimit))
    (b := (1061234, 1050621)) (by decide +kernel)
  simp only [ok_iff] at hblocks
  obtain ⟨r, hrun, r', hlast, rfl, rfl⟩ := hblocks
  obtain ⟨hbefore, hafter⟩ := Prod.mk.inj hview
  have hsteps : Steps Step initialManager r := by
    refine steps_of_foldlM (fun n _ r r' h => ?_) hrun
    obtain ⟨hends, hrange, hok⟩ := fullBlock_ok h
    exact ⟨filled r, _, n, ⟨rfl, rfl, rfl, rfl, rfl⟩, hends, hrange, hok⟩
  obtain ⟨hends, hrange, hok⟩ := fullBlock_ok hlast
  have hsame : SameLimits r (filled r) := ⟨rfl, rfl, rfl, rfl, rfl⟩
  obtain ⟨_, hok', _, _, _, hnet⟩ := limits_stay_in_range hsteps hsame hends hrange
  cases hok.symm.trans hok'
  exact ⟨r, r', hsteps, hlast, hbefore, hafter, hnet⟩

/-- The largest maximum of NET is accepted.  The first block with it leaves an elastic limit below
    the maximum, and the next one can not be finalized. -/
theorem unbounded_net_maximum_stops_blocks :
    ∃ c r', Ends initialManager c 2 ∧ initialManager.finalizeBlock c 2 = .ok r' ∧
      r'.state.virtualNetLimit < c.maxBlockNetUsage ∧ Ends r' c 3 ∧
      r'.finalizeBlock c 3 =
        .error "Usage exceeds maximum value representable after extending for precision" := by
  let c := sampleConfig 18446744073709551615
  let second (r' : Manager) : Option String :=
    match r'.finalizeBlock c 3 with
    | .ok _ => none
    | .error e => some e
  have hview : (initialManager.finalizeBlock c 2).map (fun r' => (decide
      (r'.state.virtualNetLimit < c.maxBlockNetUsage ∧
        r'.state.pendingCpuUsage ≤ r'.config.cpuLimitParameters.max ∧
        r'.state.pendingNetUsage ≤ r'.config.netLimitParameters.max ∧
        r'.state.averageBlockCpuUsage.lastOrdinal < 3 ∧
        r'.state.averageBlockNetUsage.lastOrdinal < 3), second r')) =
      .ok (true, some "Usage exceeds maximum value representable after extending for precision") := by
    decide +kernel
  obtain ⟨r', hok, heq⟩ := exists_of_map_eq_ok hview
  obtain ⟨hfirst, hsecond⟩ := Prod.mk.inj heq
  obtain ⟨hbelow, hcpu, hnet, hcpuLater, hnetLater⟩ := of_decide_eq_true hfirst
  have haccepted : c.validate = .ok () := by decide +kernel
  refine ⟨c, r', ⟨haccepted, by decide, by decide, by decide, by decide⟩, hok, hbelow,
    ⟨haccepted, hcpu, hnet, hcpuLater, hnetLater⟩, ?_⟩
  cases hthird : r'.finalizeBlock c 3 with
  | ok => simp [second, hthird] at hsecond
  | error =>
    simp only [second, hthird, Option.some.injEq] at hsecond
    rw [hsecond]

end YottaChain.Resources
