/-
  **Billing a transaction** (`transaction_context.cpp`, `resource_limits.cpp`).

  What the manager reports as available can be spent in full
  (`reported_limits_can_be_spent`).  The bill of a failed deferred transaction is capped by
  the same reports, but an account that has used more than its share reports zero and fails
  the check even with nothing to pay: `failed_transaction_can_be_billed_iff` says when it
  does not.
-/
import YottaChain.MovingAverage

namespace YottaChain.Resources

open Checked Accumulator List

namespace Manager

/-! ## 1. What the billed accounts can pay -/

structure Bandwidth where
  accountNetLimit : Int
  accountCpuLimit : Int
  greylistedNet : Bool
  greylistedCpu : Bool
deriving DecidableEq

def largeNumberNoOverflow : Int := 4611686018427387903

def canPay (r : Manager) (elastic : Name → Bool) (b : Bandwidth) (a : Name) :
    Checked Bandwidth := do
  let netLimit ← r.getAccountNetLimit a (elastic a)
  let b := if netLimit ≥ 0 then { b with
      accountNetLimit := min b.accountNetLimit netLimit
      greylistedNet := b.greylistedNet || !elastic a }
    else b
  let cpuLimit ← r.getAccountCpuLimit a (elastic a)
  pure (if cpuLimit ≥ 0 then { b with
      accountCpuLimit := min b.accountCpuLimit cpuLimit
      greylistedCpu := b.greylistedCpu || !elastic a }
    else b)

/-- `max_bandwidth_billed_accounts_can_pay`; `elastic` is false for a greylisted account of a
    block that is being produced, unless elastic limits are forced. -/
def maxBandwidthBilledAccountsCanPay (r : Manager) (accounts : AccountSet)
    (elastic : Name → Bool) : Checked Bandwidth :=
  accounts.names.foldlM (r.canPay elastic) ⟨largeNumberNoOverflow, largeNumberNoOverflow, false, false⟩

/-- What is left to bill for a hard failure; `static_cast<uint32_t>` keeps the low bits. -/
def cappedCpuTime (cpuTimeToBillUs : UInt32) (accountCpuLimit initialObjectiveDurationLimit : Int) :
    UInt32 :=
  UInt32.ofNat
    (min (min (cpuTimeToBillUs.toNat : Int) accountCpuLimit) initialObjectiveDurationLimit %
      2 ^ 32).toNat

/-- What `push_scheduled_transaction` does for a hard failure after `update_account_usage`. -/
def billFailed (r : Manager) (accounts : AccountSet) (slot cpuTimeToBillUs : UInt32)
    (initialObjectiveDurationLimit : Int) : Checked Manager := do
  let bandwidth ← r.maxBandwidthBilledAccountsCanPay accounts fun _ => true
  let cpu := cappedCpuTime cpuTimeToBillUs bandwidth.accountCpuLimit initialObjectiveDurationLimit
  r.addTransactionUsage accounts cpu.toUInt64 0 slot

end Manager

open Manager

theorem AccountSet.nodup (accounts : AccountSet) : accounts.names.Nodup :=
  accounts.sorted.imp fun hlt => UInt64.ne_of_lt hlt

/-! ## 2. One account and one resource -/

section Resource

variable {weight : Int64} {totalWeight limit : UInt64} {windowSize : UInt32}
  {usage usage' : Accumulator} {units : UInt64} {slot : UInt32}

def Limited (weight : Int64) (totalWeight : UInt64) : Prop := weight ≥ 0 ∧ totalWeight > 0

theorem not_limited_iff : weight < 0 ∨ totalWeight = 0 ↔ ¬ Limited weight totalWeight := by
  unfold Limited
  rw [not_and_or]
  refine or_congr ?_ ?_
  · exact Int64.not_le.symm
  · rw [gt_iff_lt, UInt64.pos_iff_ne_zero, not_not]

def usedInWindow (usage : Accumulator) (windowSize : UInt32) : Nat :=
  integerDivideCeil (usage.valueEx.toNat * windowSize.toNat) rateLimitingPrecision

theorem accountLimitEx_of_limited (h : Limited weight totalWeight) {l : AccountResourceLimit}
    (hok : accountLimitEx weight totalWeight limit windowSize usage = .ok l) :
    l.available = ((maxUserUseInWindow limit windowSize weight totalWeight -
      usedInWindow usage windowSize : Nat) : Int) := by
  rw [accountLimitEx, if_neg (fun hor => not_limited_iff.mp hor h)] at hok
  simp only [ok_iff] at hok
  obtain ⟨available, havailable, _, _, _, _, rfl⟩ := hok
  rw [← usedInWindow] at havailable
  show available = _
  split_ifs at havailable with hle
  · rw [Nat.sub_eq_zero_of_le hle]
    exact (pure_eq_ok.mp havailable).symm
  · simp only [downgradeCast, ok_iff] at havailable
    exact havailable.2.symm

/-- What is reported of a resource fits a signed number of 64 bits. -/
def Reported (weight : Int64) (totalWeight limit : UInt64) (windowSize : UInt32)
    (usage : Accumulator) : Prop :=
  Limited weight totalWeight → usedInWindow usage windowSize ≤ int64Max ∧
    maxUserUseInWindow limit windowSize weight totalWeight ≤ int64Max

theorem exists_accountLimitEx :
    (∃ l, accountLimitEx weight totalWeight limit windowSize usage = .ok l) ↔
      Reported weight totalWeight limit windowSize usage := by
  rw [accountLimitEx, Reported]
  by_cases hlimited : Limited weight totalWeight
  · rw [if_neg fun hor => not_limited_iff.mp hor hlimited]
    rw [← usedInWindow]
    generalize usedInWindow usage windowSize = used
    generalize maxUserUseInWindow limit windowSize weight totalWeight = max
    simp only [downgradeCast, ok_iff]
    constructor
    · rintro ⟨_, _, _, _, ⟨hused, _⟩, _, ⟨hmax, _⟩, _⟩ _
      exact ⟨hused, hmax⟩
    · intro h
      obtain ⟨hused, hmax⟩ := h hlimited
      refine ⟨_, ((max - used : Nat) : Int), ?_, _, ⟨hused, rfl⟩, _, ⟨hmax, rfl⟩, rfl⟩
      split_ifs with hle
      · rw [Nat.sub_eq_zero_of_le hle]
        rfl
      · simp only [ok_iff]
        exact ⟨(Nat.sub_le _ _).trans hmax, trivial⟩
  · rw [if_pos (not_limited_iff.mpr hlimited)]
    exact iff_of_true ⟨_, rfl⟩ fun h => absurd h hlimited

/-- What `add_transaction_usage` needs of one resource in the current slot. -/
structure Fits (weight : Int64) (totalWeight limit : UInt64) (windowSize : UInt32)
    (usage : Accumulator) (units : UInt64) : Prop where
  raw : units.toNat ≤ uint64Max / rateLimitingPrecision
  consumed : usage.consumed.toNat + units.toNat ≤ uint64Max
  value : usage.valueEx.toNat + contrib units windowSize ≤ uint64Max
  share : Limited weight totalWeight →
    (usage.valueEx.toNat + contrib units windowSize) * windowSize.toNat / rateLimitingPrecision ≤
      maxUserUseInWindow limit windowSize weight totalWeight

theorem fits_iff (hslot : usage.lastOrdinal = slot) {message : String} :
    (∃ usage', usage.add units slot windowSize = .ok usage' ∧
      checkUsage weight totalWeight limit windowSize usage' message = .ok ()) ↔
      Fits weight totalWeight limit windowSize usage units := by
  constructor
  · rintro ⟨usage', hadd, hcheck⟩
    obtain ⟨hraw, hconsumed, hvalue⟩ := (exists_add_same hslot).mp ⟨usage', hadd⟩
    refine ⟨hraw, hconsumed, hvalue, fun hlimited => ?_⟩
    rw [← add_same_valueEx hslot hadd]
    exact ensure_eq_ok.mp hcheck hlimited
  · intro h
    obtain ⟨usage', hadd⟩ := (exists_add_same hslot).mpr ⟨h.raw, h.consumed, h.value⟩
    refine ⟨usage', hadd, ensure_eq_ok.mpr fun hlimited => ?_⟩
    rw [add_same_valueEx hslot hadd]
    exact h.share hlimited

theorem share_of_le (hpos : 0 < windowSize.toNat) (hwindow : windowSize.toNat ≤ 172800)
    {share : Nat} (hle : usedInWindow usage windowSize + units.toNat ≤ share) :
    (usage.valueEx.toNat + contrib units windowSize) * windowSize.toNat / rateLimitingPrecision ≤
      share :=
  (used_after_le usage.valueEx.toNat units.toNat hpos
    (hwindow.trans (by decide))).trans hle

/-- For an amount within what is left, the check of the share is that of what has been used
    already. -/
theorem share_iff_of_capped (hpos : 0 < windowSize.toNat) (hwindow : windowSize.toNat ≤ 172800)
    {share : Nat} (hcap : units.toNat ≤ share - usedInWindow usage windowSize) :
    (usage.valueEx.toNat + contrib units windowSize) * windowSize.toNat / rateLimitingPrecision ≤
        share ↔
      usage.valueEx.toNat * windowSize.toNat / rateLimitingPrecision ≤ share := by
  constructor
  · intro h
    refine Nat.le_trans (Nat.div_le_div_right ?_) h
    exact Nat.mul_le_mul_right _ (Nat.le_add_right _ _)
  · intro h
    by_cases hroom : usedInWindow usage windowSize ≤ share
    · exact share_of_le hpos hwindow (by omega)
    · have hzero : units = 0 := UInt64.toNat_inj.mp (by simpa using (by omega : units.toNat = 0))
      rw [hzero, contrib_zero, Nat.add_zero]
      exact h

end Resource

/-! ## 3. All accounts of a transaction -/

section Accounts

variable {r₀ r : Manager} {accounts : AccountSet} {slot : UInt32} {cpu net : UInt64} {a : Name}

def Current (r : Manager) (accounts : AccountSet) (slot : UInt32) : Prop :=
  ∀ a ∈ accounts.names, ∀ usage, r.usage.find a = some usage →
    usage.netUsage.lastOrdinal = slot ∧ usage.cpuUsage.lastOrdinal = slot

theorem updateAccountUsage_ok (h : r₀.updateAccountUsage accounts slot = .ok r) :
    (∃ usage, r = { r₀ with usage := usage }) ∧ ∀ a ∈ accounts.names, ∃ u0 u,
      r₀.usage.find a = some u0 ∧ r.usage.find a = some u ∧
      u0.netUsage.add 0 slot accountNetUsageAverageWindow = .ok u.netUsage ∧
      u0.cpuUsage.add 0 slot accountCpuUsageAverageWindow = .ok u.cpuUsage := by
  simp only [updateAccountUsage, ok_iff] at h
  obtain ⟨usage, husage, rfl⟩ := h
  refine ⟨⟨usage, rfl⟩, fun a ha => ?_⟩
  have hrow := Table.modifyAll_ok accounts.nodup husage a
  rw [if_pos ha] at hrow
  obtain ⟨u0, u, hu0, hupdate, hu⟩ := hrow
  simp only [updateUsage, ok_iff] at hupdate
  obtain ⟨netUsage, hnet, cpuUsage, hcpu, rfl⟩ := hupdate
  exact ⟨u0, _, hu0, hu, hnet, hcpu⟩

theorem current_of_update (h : r₀.updateAccountUsage accounts slot = .ok r) :
    Current r accounts slot := by
  intro a ha usage husage
  obtain ⟨u0, u, _, hu, hnet, hcpu⟩ := (updateAccountUsage_ok h).2 a ha
  rw [hu] at husage
  cases husage
  exact ⟨add_lastOrdinal hnet, add_lastOrdinal hcpu⟩

structure Bears (r : Manager) (limits : AccountLimits) (usage : AccountUsage)
    (cpu net : UInt64) : Prop where
  cpu : Fits limits.cpuWeight r.state.totalCpuWeight r.state.virtualCpuLimit
    accountCpuUsageAverageWindow usage.cpuUsage cpu
  net : Fits limits.netWeight r.state.totalNetWeight r.state.virtualNetLimit
    accountNetUsageAverageWindow usage.netUsage net

/-- The block bears the amounts; the sums are those of 64 bits. -/
structure HasRoom (r : Manager) (cpu net : UInt64) : Prop where
  cpu : r.state.pendingCpuUsage + cpu ≤ r.config.cpuLimitParameters.max
  net : r.state.pendingNetUsage + net ≤ r.config.netLimitParameters.max

theorem exists_billUsage {usage : AccountUsage} (hnet : usage.netUsage.lastOrdinal = slot)
    (hcpu : usage.cpuUsage.lastOrdinal = slot) :
    (∃ usage', r.billUsage cpu net slot a usage = .ok usage') ↔
      ∃ limits, r.getAccountLimits a = .ok limits ∧ Bears r limits usage cpu net := by
  simp only [billUsage, ok_iff]
  constructor
  · rintro ⟨_, limits, hlimits, netUsage, hnetAdd, cpuUsage, hcpuAdd, _, hcpuCheck, _, hnetCheck, _⟩
    exact ⟨limits, hlimits, (fits_iff hcpu).mp ⟨cpuUsage, hcpuAdd, hcpuCheck⟩,
      (fits_iff hnet).mp ⟨netUsage, hnetAdd, hnetCheck⟩⟩
  · rintro ⟨limits, hlimits, hbears⟩
    obtain ⟨cpuUsage, hcpuAdd, hcpuCheck⟩ := (fits_iff hcpu).mpr hbears.cpu
    obtain ⟨netUsage, hnetAdd, hnetCheck⟩ := (fits_iff hnet).mpr hbears.net
    exact ⟨_, limits, hlimits, netUsage, hnetAdd, cpuUsage, hcpuAdd, (), hcpuCheck, (), hnetCheck,
      rfl⟩

theorem exists_addTransactionUsage (hcurrent : Current r accounts slot) :
    (∃ r', r.addTransactionUsage accounts cpu net slot = .ok r') ↔
      (∀ a ∈ accounts.names, ∃ usage limits, r.usage.find a = some usage ∧
        r.getAccountLimits a = .ok limits ∧ Bears r limits usage cpu net) ∧
      HasRoom r cpu net := by
  have hblock : ∀ usage, (∃ r', billBlock cpu net { r with usage := usage } = .ok r') ↔
      HasRoom r cpu net := by
    intro usage
    simp only [billBlock, ok_iff]
    constructor
    · rintro ⟨_, hcpu, hnet, _⟩
      exact ⟨hcpu, hnet⟩
    · rintro ⟨hcpu, hnet⟩
      exact ⟨_, hcpu, hnet, rfl⟩
  have haccounts : (∃ usage, r.usage.modifyAll accounts.names "unknown key"
      (r.billUsage cpu net slot) = .ok usage) ↔ _ := Table.exists_modifyAll accounts.nodup
  have hall : (∀ a ∈ accounts.names, ∃ usage usage', r.usage.find a = some usage ∧
        r.billUsage cpu net slot a usage = .ok usage') ↔
      ∀ a ∈ accounts.names, ∃ usage limits, r.usage.find a = some usage ∧
        r.getAccountLimits a = .ok limits ∧ Bears r limits usage cpu net := by
    refine forall₂_congr fun a ha => exists_congr fun usage => ?_
    simp only [exists_and_left]
    refine and_congr_right fun husage => ?_
    obtain ⟨hnet, hcpu⟩ := hcurrent a ha usage husage
    exact exists_billUsage hnet hcpu
  rw [← hall, ← haccounts]
  simp only [addTransactionUsage, bind_eq_ok]
  constructor
  · rintro ⟨r', usage, husage, hbill⟩
    exact ⟨⟨usage, husage⟩, (hblock usage).mp ⟨r', hbill⟩⟩
  · rintro ⟨⟨usage, husage⟩, hroom⟩
    obtain ⟨r', hbill⟩ := (hblock usage).mpr hroom
    exact ⟨r', usage, husage, hbill⟩

/-! ## 4. Reports -/

variable {elastic : Bool} {available : Int}

theorem getAccountCpuLimit_ok (h : r.getAccountCpuLimit a elastic = .ok available) :
    ∃ usage limits, r.usage.find a = some usage ∧ r.getAccountLimits a = .ok limits ∧
      (Limited limits.cpuWeight r.state.totalCpuWeight → available =
        ((maxUserUseInWindow
          (if elastic then r.state.virtualCpuLimit else r.config.cpuLimitParameters.max)
          accountCpuUsageAverageWindow limits.cpuWeight r.state.totalCpuWeight -
            usedInWindow usage.cpuUsage accountCpuUsageAverageWindow : Nat) : Int)) := by
  simp only [getAccountCpuLimit, getAccountCpuLimitEx, ok_iff] at h
  obtain ⟨l, ⟨usage, husage, limits, hlimits, hl⟩, rfl⟩ := h
  exact ⟨usage, limits, husage, hlimits, fun hlimited => accountLimitEx_of_limited hlimited hl⟩

theorem getAccountNetLimit_ok (h : r.getAccountNetLimit a elastic = .ok available) :
    ∃ usage limits, r.usage.find a = some usage ∧ r.getAccountLimits a = .ok limits ∧
      (Limited limits.netWeight r.state.totalNetWeight → available =
        ((maxUserUseInWindow
          (if elastic then r.state.virtualNetLimit else r.config.netLimitParameters.max)
          accountNetUsageAverageWindow limits.netWeight r.state.totalNetWeight -
            usedInWindow usage.netUsage accountNetUsageAverageWindow : Nat) : Int)) := by
  simp only [getAccountNetLimit, getAccountNetLimitEx, ok_iff] at h
  obtain ⟨l, ⟨usage, husage, limits, hlimits, hl⟩, rfl⟩ := h
  exact ⟨usage, limits, husage, hlimits, fun hlimited => accountLimitEx_of_limited hlimited hl⟩

variable {b b' : Bandwidth}

/-- The account has its rows, and what is reported of it fits its type. -/
def Reports (r : Manager) (a : Name) : Prop :=
  ∃ usage limits, r.usage.find a = some usage ∧ r.getAccountLimits a = .ok limits ∧
    Reported limits.cpuWeight r.state.totalCpuWeight r.state.virtualCpuLimit
      accountCpuUsageAverageWindow usage.cpuUsage ∧
    Reported limits.netWeight r.state.totalNetWeight r.state.virtualNetLimit
      accountNetUsageAverageWindow usage.netUsage

theorem exists_canPay : (∃ b', r.canPay (fun _ => true) b a = .ok b') ↔ Reports r a := by
  have hrows : (∃ b', r.canPay (fun _ => true) b a = .ok b') ↔
      (∃ available, r.getAccountNetLimit a true = .ok available) ∧
        ∃ available, r.getAccountCpuLimit a true = .ok available := by
    simp only [canPay, ok_iff]
    exact ⟨fun ⟨_, net, hnet, cpu, hcpu, _⟩ => ⟨⟨net, hnet⟩, cpu, hcpu⟩,
      fun ⟨⟨net, hnet⟩, cpu, hcpu⟩ => ⟨_, net, hnet, cpu, hcpu, rfl⟩⟩
  rw [hrows]
  simp only [getAccountNetLimit, getAccountNetLimitEx, getAccountCpuLimit, getAccountCpuLimitEx,
    ok_iff, if_true]
  constructor
  · rintro ⟨⟨_, l, ⟨usage, husage, limits, hlimits, hnet⟩, _⟩, _, l', ⟨_, husage', _, hlimits', hcpu⟩, _⟩
    obtain rfl := Option.some.inj (husage.symm.trans husage')
    obtain rfl := Except.ok.inj (hlimits.symm.trans hlimits')
    exact ⟨usage, limits, husage, hlimits, exists_accountLimitEx.mp ⟨l', hcpu⟩,
      exists_accountLimitEx.mp ⟨l, hnet⟩⟩
  · rintro ⟨usage, limits, husage, hlimits, hcpu, hnet⟩
    obtain ⟨l, hl⟩ := exists_accountLimitEx.mpr hnet
    obtain ⟨l', hl'⟩ := exists_accountLimitEx.mpr hcpu
    exact ⟨⟨_, l, ⟨usage, husage, limits, hlimits, hl⟩, rfl⟩, _, l', ⟨usage, husage, limits, hlimits,
      hl'⟩, rfl⟩

theorem exists_bandwidth {names : List Name} :
    (∃ b', names.foldlM (r.canPay fun _ => true) b = .ok b') ↔ ∀ a ∈ names, Reports r a := by
  induction names generalizing b with
  | nil => exact iff_of_true ⟨b, rfl⟩ fun a ha => absurd ha not_mem_nil
  | cons a names ih =>
    rw [forall_mem_cons, ← exists_canPay (b := b)]
    simp only [foldlM_cons, bind_eq_ok]
    constructor
    · rintro ⟨b', b1, hfirst, hrest⟩
      exact ⟨⟨b1, hfirst⟩, ih.mp ⟨b', hrest⟩⟩
    · rintro ⟨⟨b1, hfirst⟩, hall⟩
      obtain ⟨b', hrest⟩ := ih.mpr hall
      exact ⟨b', b1, hfirst, hrest⟩

theorem canPay_ok {elastic : Name → Bool} (h : r.canPay elastic b a = .ok b') :
    (0 ≤ b.accountCpuLimit → 0 ≤ b'.accountCpuLimit) ∧ b'.accountCpuLimit ≤ b.accountCpuLimit ∧
      ∃ available, r.getAccountCpuLimit a (elastic a) = .ok available ∧
        (0 ≤ available → b'.accountCpuLimit ≤ available) := by
  simp only [canPay, ok_iff] at h
  obtain ⟨netLimit, _, available, havailable, rfl⟩ := h
  have hsame : (if netLimit ≥ 0 then { b with
      accountNetLimit := min b.accountNetLimit netLimit
      greylistedNet := b.greylistedNet || !elastic a }
    else b).accountCpuLimit = b.accountCpuLimit := by
    split
    · rfl
    · rfl
  split
  · rename_i hpos
    simp only [hsame]
    exact ⟨fun hb => Int.le_min.mpr ⟨hb, hpos⟩, Int.min_le_left _ _, available, havailable,
      fun _ => Int.min_le_right _ _⟩
  · rename_i hneg
    exact ⟨fun hb => hsame.symm ▸ hb, hsame.le, available, havailable, fun h => absurd h hneg⟩

/-- No account is billed for more than it reports. -/
theorem bandwidth_le {elastic : Name → Bool} {names : List Name}
    (h : names.foldlM (r.canPay elastic) b = .ok b') :
    (0 ≤ b.accountCpuLimit → 0 ≤ b'.accountCpuLimit) ∧ b'.accountCpuLimit ≤ b.accountCpuLimit ∧
      ∀ a ∈ names, ∃ available, r.getAccountCpuLimit a (elastic a) = .ok available ∧
        (0 ≤ available → b'.accountCpuLimit ≤ available) := by
  induction names generalizing b with
  | nil =>
    cases h
    exact ⟨id, Int.le_refl _, fun _ ha => absurd ha not_mem_nil⟩
  | cons _ _ ih =>
    rw [foldlM_cons, bind_eq_ok] at h
    obtain ⟨b1, hfirst, hrest⟩ := h
    obtain ⟨hpos1, hle1, available, havailable, hl⟩ := canPay_ok hfirst
    obtain ⟨hpos, hle, hall⟩ := ih hrest
    refine ⟨fun hb => hpos (hpos1 hb), hle.trans hle1, forall_mem_cons.mpr ⟨?_, hall⟩⟩
    exact ⟨available, havailable, fun hpos => hle.trans (hl hpos)⟩

/-! ## 5. A failed deferred transaction -/

/-- What is left of the account before anything is billed: it has not used more than its
    share of either resource, and the counters do not overflow. -/
structure Solvent (r : Manager) (limits : AccountLimits) (usage : AccountUsage) (cpu : UInt64) :
    Prop where
  cpuShare : Limited limits.cpuWeight r.state.totalCpuWeight →
    usage.cpuUsage.valueEx.toNat * accountCpuUsageAverageWindow.toNat / rateLimitingPrecision ≤
      maxUserUseInWindow r.state.virtualCpuLimit accountCpuUsageAverageWindow limits.cpuWeight
        r.state.totalCpuWeight
  netShare : Limited limits.netWeight r.state.totalNetWeight →
    usage.netUsage.valueEx.toNat * accountNetUsageAverageWindow.toNat / rateLimitingPrecision ≤
      maxUserUseInWindow r.state.virtualNetLimit accountNetUsageAverageWindow limits.netWeight
        r.state.totalNetWeight
  consumed : usage.cpuUsage.consumed.toNat + cpu.toNat ≤ uint64Max
  value : usage.cpuUsage.valueEx.toNat + contrib cpu accountCpuUsageAverageWindow ≤ uint64Max

/-- An amount capped by what the account reports is borne exactly if the account is solvent. -/
theorem bears_iff_solvent {limits : AccountLimits} {usage : AccountUsage}
    (hraw : cpu.toNat < 2 ^ 32)
    (hcap : Limited limits.cpuWeight r.state.totalCpuWeight → cpu.toNat ≤
      maxUserUseInWindow r.state.virtualCpuLimit accountCpuUsageAverageWindow limits.cpuWeight
        r.state.totalCpuWeight - usedInWindow usage.cpuUsage accountCpuUsageAverageWindow) :
    Bears r limits usage cpu 0 ↔ Solvent r limits usage cpu := by
  have hunits : cpu.toNat ≤ uint64Max / rateLimitingPrecision := by
    unfold uint64Max rateLimitingPrecision
    omega
  have hpos : 0 < accountCpuUsageAverageWindow.toNat := by decide
  have hwindow : accountCpuUsageAverageWindow.toNat ≤ 172800 := by decide
  have hshare := fun hlimited => share_iff_of_capped hpos hwindow (hcap hlimited)
  constructor
  · rintro ⟨hcpu, hnet⟩
    refine ⟨fun hlimited => (hshare hlimited).mp (hcpu.share hlimited), fun hlimited => ?_,
      hcpu.consumed, hcpu.value⟩
    have hnetShare := hnet.share hlimited
    rw [contrib_zero, Nat.add_zero] at hnetShare
    exact hnetShare
  · intro h
    refine ⟨⟨hunits, h.consumed, h.value,
      fun hlimited => (hshare hlimited).mpr (h.cpuShare hlimited)⟩, Nat.zero_le _, ?_, ?_, ?_⟩
    · exact toNat_le_uint64Max _
    · rw [contrib_zero]
      exact toNat_le_uint64Max _
    · intro hlimited
      rw [contrib_zero, Nat.add_zero]
      exact h.netShare hlimited

/-- An account with the weight 1 of 1000000, in a block with the given usage of CPU. -/
def sampleManager (valueEx : UInt64) : Manager where
  limits := (∅ : Table (Bool × Name) AccountLimits).put (false, 7) ⟨1, 1, -1⟩
  usage := (∅ : Table Name AccountUsage).put 7 ⟨⟨90, 0, 0⟩, ⟨90, valueEx, 0⟩, 0⟩
  config :=
    { cpuLimitParameters := ⟨20000, 200000, 120, 1000, ⟨99, 100⟩, ⟨1000, 999⟩⟩
      netLimitParameters := ⟨104857, 1048576, 120, 1000, ⟨99, 100⟩, ⟨1000, 999⟩⟩ }
  state :=
    { averageBlockNetUsage := ⟨0, 0, 0⟩
      averageBlockCpuUsage := ⟨0, 0, 0⟩
      pendingNetUsage := 0
      pendingCpuUsage := 0
      totalNetWeight := 1000000
      totalCpuWeight := 1000000
      totalRamBytes := 0
      virtualNetLimit := 1048576
      virtualCpuLimit := 200000 }

def sampleAccounts : AccountSet := ⟨[7], pairwise_singleton _ _⟩

def sampleBill (valueEx : UInt64) (cpu : UInt64) : Checked (Manager × Bandwidth × Bool) := do
  let r ← (sampleManager valueEx).updateAccountUsage sampleAccounts 100
  let bandwidth ← r.maxBandwidthBilledAccountsCanPay sampleAccounts fun _ => true
  pure (r, bandwidth, (r.addTransactionUsage sampleAccounts cpu 0 100).isOk)

theorem sampleBill_ok {valueEx cpu : UInt64} {cpuLimit : Int} {billed : Bool}
    (h : (sampleBill valueEx cpu).map (fun x => (x.2.1.accountCpuLimit, x.2.2)) =
      .ok (cpuLimit, billed)) :
    ∃ r bandwidth, (sampleManager valueEx).updateAccountUsage sampleAccounts 100 = .ok r ∧
      r.maxBandwidthBilledAccountsCanPay sampleAccounts (fun _ => true) = .ok bandwidth ∧
      bandwidth.accountCpuLimit = cpuLimit ∧
      (r.addTransactionUsage sampleAccounts cpu 0 100).isOk = billed := by
  obtain ⟨⟨r, bandwidth, b⟩, hx, heq⟩ := exists_of_map_eq_ok h
  simp only [sampleBill, ok_iff] at hx
  obtain ⟨r', hr', bandwidth', hbandwidth', rfl, rfl, rfl⟩ := hx
  cases heq
  exact ⟨r', bandwidth', hr', hbandwidth', rfl, rfl⟩

theorem cappedCpuTime_toNat (measured : UInt32) {limit initial : Int} (hlimit : 0 ≤ limit)
    (hinitial : 0 ≤ initial) : ((cappedCpuTime measured limit initial).toUInt64.toNat : Int) =
      min (min (measured.toNat : Int) limit) initial := by
  have hmeasured := measured.toNat_lt
  have hpos : 0 ≤ min (min (measured.toNat : Int) limit) initial :=
    le_min (le_min (Int.natCast_nonneg _) hlimit) hinitial
  have hle : min (min (measured.toNat : Int) limit) initial ≤ measured.toNat :=
    (min_le_left _ _).trans (min_le_left _ _)
  have hlt : min (min (measured.toNat : Int) limit) initial < 2 ^ 32 := by omega
  rw [cappedCpuTime, UInt32.toNat_toUInt64, Int.emod_eq_of_lt hpos hlt,
    UInt32.toNat_ofNat_of_lt' (by rw [UInt32.size]; omega), Int.toNat_of_nonneg hpos]

/-- Every billed account has used no more than its share of either resource, and the block has
    room. -/
def AllSolvent (r : Manager) (accounts : AccountSet) (cpu : UInt64) : Prop :=
  (∀ a ∈ accounts.names, ∀ usage limits, r.usage.find a = some usage →
    r.getAccountLimits a = .ok limits → Solvent r limits usage cpu) ∧ HasRoom r cpu 0

/-- With an amount that is capped by the reports, only what was used before matters. -/
theorem exists_addTransactionUsage_capped
    (hupdate : r₀.updateAccountUsage accounts slot = .ok r) {bandwidth : Bandwidth}
    (hbandwidth : r.maxBandwidthBilledAccountsCanPay accounts (fun _ => true) = .ok bandwidth)
    (measured : UInt32) {initial : Int}
    (hcpu : (cpu.toNat : Int) = min (min (measured.toNat : Int) bandwidth.accountCpuLimit) initial) :
    (∃ r', r.addTransactionUsage accounts cpu 0 slot = .ok r') ↔ AllSolvent r accounts cpu := by
  rw [exists_addTransactionUsage (current_of_update hupdate)]
  refine and_congr_left fun _ => forall₂_congr fun a ha => ?_
  obtain ⟨available, havailable, hle⟩ := (bandwidth_le hbandwidth).2.2 a ha
  obtain ⟨usage, limits, husage, hlimits, hreport⟩ := getAccountCpuLimit_ok havailable
  have hmeasured := measured.toNat_lt
  have hcap : Limited limits.cpuWeight r.state.totalCpuWeight → cpu.toNat ≤
      maxUserUseInWindow r.state.virtualCpuLimit accountCpuUsageAverageWindow limits.cpuWeight
        r.state.totalCpuWeight - usedInWindow usage.cpuUsage accountCpuUsageAverageWindow := by
    intro hlimited
    have hreport := hreport hlimited
    rw [if_pos rfl] at hreport
    have hpay := hle (by omega)
    omega
  have hbears := bears_iff_solvent (by omega) hcap
  simp only [husage, hlimits, Option.some.injEq, ok_eq_ok, exists_and_left, exists_eq_left']
  refine hbears.trans ⟨?_, fun h => h usage limits rfl rfl⟩
  rintro h _ _ rfl rfl
  exact h

/-- **Billing a failed deferred transaction.**  What `push_scheduled_transaction` does for a hard
    failure does not throw exactly if what is reported of each billed account fits its type, and
    with the amount that results no billed account has used more than its share of either
    resource, the counters do not overflow and the block has room. -/
theorem failed_transaction_can_be_billed_iff
    (hupdate : r₀.updateAccountUsage accounts slot = .ok r) (measured : UInt32) {initial : Int}
    (hinitial : 0 ≤ initial) :
    (∃ r', r.billFailed accounts slot measured initial = .ok r') ↔
      (∀ a ∈ accounts.names, Reports r a) ∧
      ∀ bandwidth, r.maxBandwidthBilledAccountsCanPay accounts (fun _ => true) = .ok bandwidth →
        AllSolvent r accounts
          (cappedCpuTime measured bandwidth.accountCpuLimit initial).toUInt64 := by
  have hreports : (∃ bandwidth, r.maxBandwidthBilledAccountsCanPay accounts (fun _ => true) =
      .ok bandwidth) ↔ ∀ a ∈ accounts.names, Reports r a := exists_bandwidth
  have hcapped := fun bandwidth (h : r.maxBandwidthBilledAccountsCanPay accounts (fun _ => true) =
      .ok bandwidth) => exists_addTransactionUsage_capped hupdate h measured
    (cappedCpuTime_toNat measured ((bandwidth_le h).1 (by decide)) hinitial)
  rw [← hreports]
  simp only [billFailed, bind_eq_ok]
  constructor
  · rintro ⟨r', bandwidth, hbandwidth, hbilled⟩
    refine ⟨⟨bandwidth, hbandwidth⟩, fun bandwidth' hbandwidth' => ?_⟩
    obtain rfl := Except.ok.inj (hbandwidth.symm.trans hbandwidth')
    exact (hcapped bandwidth hbandwidth).mp ⟨r', hbilled⟩
  · rintro ⟨⟨bandwidth, hbandwidth⟩, hall⟩
    obtain ⟨r', hbilled⟩ := (hcapped bandwidth hbandwidth).mpr (hall bandwidth hbandwidth)
    exact ⟨r', bandwidth, hbandwidth, hbilled⟩

end Accounts

theorem failed_transaction_can_be_billed_iff_sample :
    ∃ r bandwidth, (sampleManager 1000).updateAccountUsage sampleAccounts 100 = .ok r ∧
      r.maxBandwidthBilledAccountsCanPay sampleAccounts (fun _ => true) = .ok bandwidth ∧
      Reports r 7 ∧ AllSolvent r sampleAccounts 500 := by
  have hbill : (sampleBill 1000 500).map (fun x => (x.2.1.accountCpuLimit, x.2.2)) =
      .ok (34387, true) := by
    decide +kernel
  obtain ⟨r, bandwidth, hupdate, hbandwidth, hlimit, hok⟩ := sampleBill_ok hbill
  have hcpu : (cappedCpuTime 500 bandwidth.accountCpuLimit 150000).toUInt64 = 500 := by
    rw [hlimit]
    decide
  have hbilled : ∃ r', r.billFailed sampleAccounts 100 500 150000 = .ok r' := by
    simp only [billFailed, bind_eq_ok, hbandwidth, ok_eq_ok, exists_eq_left', hcpu]
    cases h : r.addTransactionUsage sampleAccounts 500 0 100 with
    | error =>
      rw [h] at hok
      cases hok
    | ok r' => exact ⟨r', rfl⟩
  obtain ⟨hreports, hall⟩ := (failed_transaction_can_be_billed_iff hupdate 500 (by decide)).mp hbilled
  have hbears := hall bandwidth hbandwidth
  rw [hcpu] at hbears
  exact ⟨r, bandwidth, hupdate, hbandwidth, hreports 7 (mem_singleton.mpr rfl), hbears⟩

/-- The account has used more than the share that is left to it: it reports zero, and a bill of
    zero is refused. -/
theorem overdrawn_account_can_not_be_billed :
    ∃ r bandwidth, (sampleManager 1000000000).updateAccountUsage sampleAccounts 100 = .ok r ∧
      r.maxBandwidthBilledAccountsCanPay sampleAccounts (fun _ => true) = .ok bandwidth ∧
      ((0 : UInt64).toNat : Int) =
        min (min ((500 : UInt32).toNat : Int) bandwidth.accountCpuLimit) 150000 ∧
      ¬ ∃ r', r.addTransactionUsage sampleAccounts 0 0 100 = .ok r' := by
  have hbill : (sampleBill 1000000000 0).map (fun x => (x.2.1.accountCpuLimit, x.2.2)) =
      .ok (0, false) := by
    decide +kernel
  obtain ⟨r, bandwidth, hupdate, hbandwidth, hlimit, hok⟩ := sampleBill_ok hbill
  refine ⟨r, bandwidth, hupdate, hbandwidth, ?_, ?_⟩
  · rw [hlimit]
    decide
  · rintro ⟨r', h⟩
    rw [h] at hok
    cases hok

/-! ## 6. Spending what is reported -/

def Moderate (usage : Accumulator) : Prop :=
  usage.valueEx.toNat < 2 ^ 63 ∧ usage.consumed.toNat < 2 ^ 63

theorem Moderate.update {usage usage' : Accumulator} {slot windowSize : UInt32}
    (h : Moderate usage) (hadd : usage.add 0 slot windowSize = .ok usage') : Moderate usage' := by
  obtain ⟨hvalue, hconsumed⟩ := add_zero_le hadd
  obtain ⟨hvalueBelow, hconsumedBelow⟩ := h
  refine ⟨Nat.lt_of_le_of_lt hvalue hvalueBelow, Nat.lt_of_le_of_lt hconsumed ?_⟩
  refine Nat.max_lt.mpr ⟨hconsumedBelow, ?_⟩
  unfold rateLimitingPrecision
  omega

section Spending

variable {weight : Int64} {totalWeight limit reported : UInt64} {windowSize : UInt32}
  {usage : Accumulator} {units : UInt64} {available : Int}

theorem maxUserUseInWindow_mono (hle : reported ≤ limit)
    (hproduct : limit.toNat * windowSize.toNat * weight.toInt.toNat < 2 ^ 128) :
    maxUserUseInWindow reported windowSize weight totalWeight ≤
      maxUserUseInWindow limit windowSize weight totalWeight := by
  have hproducts : reported.toNat * windowSize.toNat * weight.toInt.toNat ≤
      limit.toNat * windowSize.toNat * weight.toInt.toNat :=
    Nat.mul_le_mul_right _ (Nat.mul_le_mul_right _ (UInt64.le_iff_toNat_le.mp hle))
  unfold maxUserUseInWindow
  rw [Nat.mod_eq_of_lt hproduct, Nat.mod_eq_of_lt (Nat.lt_of_le_of_lt hproducts hproduct)]
  exact Nat.div_le_div_right hproducts

theorem contrib_le (hunits : units.toNat < 2 ^ 32) : contrib units 172800 < 2 ^ 62 := by
  refine Nat.lt_of_le_of_lt (integerDivideCeil_le _ (by decide)) ?_
  unfold rateLimitingPrecision
  have hwindow : (172800 : UInt32).toNat = 172800 := rfl
  rw [hwindow]
  omega

theorem fits_of_report (hmoderate : Moderate usage) (hle : reported ≤ limit)
    (hproduct : limit.toNat * (172800 : UInt32).toNat * weight.toInt.toNat < 2 ^ 128)
    (hreport : Limited weight totalWeight → available =
      ((maxUserUseInWindow reported 172800 weight totalWeight - usedInWindow usage 172800 : Nat) :
        Int))
    (hpos : 0 < units.toNat) (hunits : units.toNat < 2 ^ 32)
    (hspend : available = -1 ∨ (units.toNat : Int) ≤ available) :
    Fits weight totalWeight limit 172800 usage units := by
  have hcontrib := contrib_le hunits
  obtain ⟨hvalue, hconsumed⟩ := hmoderate
  refine ⟨?_, ?_, ?_, fun hlimited => ?_⟩
  · unfold uint64Max rateLimitingPrecision
    omega
  · unfold uint64Max
    omega
  · unfold uint64Max
    omega
  · have hshare : maxUserUseInWindow reported 172800 weight totalWeight ≤
        maxUserUseInWindow limit 172800 weight totalWeight :=
      maxUserUseInWindow_mono hle hproduct
    have hreport := hreport hlimited
    exact share_of_le (by decide) (by decide) (by omega)

end Spending

def Representable (r : Manager) (limits : AccountLimits) : Prop :=
  r.state.virtualCpuLimit.toNat * accountCpuUsageAverageWindow.toNat *
      limits.cpuWeight.toInt.toNat < 2 ^ 128 ∧
    r.state.virtualNetLimit.toNat * accountNetUsageAverageWindow.toNat *
      limits.netWeight.toInt.toNat < 2 ^ 128

theorem room_of_le {pending units max : UInt64} (hpending : pending ≤ max)
    (hunits : units ≤ max - pending) : pending + units ≤ max := by
  have hle := UInt64.le_iff_toNat_le.mp hpending
  have hroom := UInt64.le_iff_toNat_le.mp hunits
  have hmax := toNat_le_uint64Max max
  rw [FixedWidth.toNat_sub_of_le hle] at hroom
  rw [UInt64.le_iff_toNat_le, FixedWidth.toNat_add_of_lt]
  · omega
  · unfold uint64Max at hmax
    omega

def sampleReport : Checked (Manager × Int × Int × UInt64 × UInt64) := do
  let r ← (sampleManager 1000).updateAccountUsage sampleAccounts 100
  let cpu ← r.getAccountCpuLimit 7 false
  let net ← r.getAccountNetLimit 7 false
  pure (r, cpu, net, r.getBlockCpuLimit, r.getBlockNetLimit)

/-- **The reported limits can be spent in full**, those that are elastic and those that are
    not. -/
theorem reported_limits_can_be_spent {r₀ r : Manager} {accounts : AccountSet} {slot : UInt32}
    (hupdate : r₀.updateAccountUsage accounts slot = .ok r)
    (hmoderate : ∀ a ∈ accounts.names, ∀ usage, r₀.usage.find a = some usage →
      Moderate usage.cpuUsage ∧ Moderate usage.netUsage)
    (helasticCpu : r₀.config.cpuLimitParameters.max ≤ r₀.state.virtualCpuLimit)
    (helasticNet : r₀.config.netLimitParameters.max ≤ r₀.state.virtualNetLimit)
    (hpendingCpu : r₀.state.pendingCpuUsage ≤ r₀.config.cpuLimitParameters.max)
    (hpendingNet : r₀.state.pendingNetUsage ≤ r₀.config.netLimitParameters.max)
    (hproducts : ∀ a ∈ accounts.names, ∀ limits, r₀.getAccountLimits a = .ok limits →
      Representable r₀ limits)
    (elastic : Name → Bool) {cpu net : UInt64} (hcpu : 0 < cpu.toNat ∧ cpu.toNat < 2 ^ 32)
    (hnet : 0 < net.toNat ∧ net.toNat < 2 ^ 32)
    (hcpuLimit : ∀ a ∈ accounts.names, ∃ available, r.getAccountCpuLimit a (elastic a) =
      .ok available ∧ (available = -1 ∨ (cpu.toNat : Int) ≤ available))
    (hnetLimit : ∀ a ∈ accounts.names, ∃ available, r.getAccountNetLimit a (elastic a) =
      .ok available ∧ (available = -1 ∨ (net.toNat : Int) ≤ available))
    (hblockCpu : cpu ≤ r.getBlockCpuLimit) (hblockNet : net ≤ r.getBlockNetLimit) :
    ∃ r', r.addTransactionUsage accounts cpu net slot = .ok r' := by
  rw [exists_addTransactionUsage (current_of_update hupdate)]
  obtain ⟨⟨table, rfl⟩, hrows⟩ := updateAccountUsage_ok hupdate
  refine ⟨fun a ha => ?_, room_of_le hpendingCpu hblockCpu, room_of_le hpendingNet hblockNet⟩
  obtain ⟨u₀, u, hu₀, hu, hnetAdd, hcpuAdd⟩ := hrows a ha
  obtain ⟨hcpuModerate, hnetModerate⟩ := hmoderate a ha u₀ hu₀
  obtain ⟨cpuAvailable, hcpuOk, hcpuSpend⟩ := hcpuLimit a ha
  obtain ⟨netAvailable, hnetOk, hnetSpend⟩ := hnetLimit a ha
  obtain ⟨_, limits, husage, hlimits, hcpuReport⟩ := getAccountCpuLimit_ok hcpuOk
  obtain rfl := Option.some.inj (hu.symm.trans husage)
  obtain ⟨_, _, husage', hlimits', hnetReport⟩ := getAccountNetLimit_ok hnetOk
  obtain rfl := Option.some.inj (hu.symm.trans husage')
  obtain rfl := Except.ok.inj (hlimits.symm.trans hlimits')
  obtain ⟨hcpuProduct, hnetProduct⟩ := hproducts a ha limits hlimits
  have hcpuLe : (if elastic a then r₀.state.virtualCpuLimit
      else r₀.config.cpuLimitParameters.max) ≤ r₀.state.virtualCpuLimit := by
    split
    · exact UInt64.le_refl _
    · exact helasticCpu
  have hnetLe : (if elastic a then r₀.state.virtualNetLimit
      else r₀.config.netLimitParameters.max) ≤ r₀.state.virtualNetLimit := by
    split
    · exact UInt64.le_refl _
    · exact helasticNet
  refine ⟨u, limits, hu, hlimits, ?_, ?_⟩
  · exact fits_of_report (hcpuModerate.update hcpuAdd) hcpuLe hcpuProduct hcpuReport hcpu.1 hcpu.2
      hcpuSpend
  · exact fits_of_report (hnetModerate.update hnetAdd) hnetLe hnetProduct hnetReport hnet.1 hnet.2
      hnetSpend

theorem reported_limits_can_be_spent_sample :
    ∃ r, (sampleManager 1000).updateAccountUsage sampleAccounts 100 = .ok r ∧
      r.getAccountCpuLimit 7 false = .ok 34387 ∧ r.getAccountNetLimit 7 false = .ok 181193 ∧
      ∃ r', r.addTransactionUsage sampleAccounts 34387 181193 100 = .ok r' := by
  have hreport : sampleReport.map (fun x => x.2) = .ok (34387, 181193, 200000, 1048576) := by
    decide +kernel
  obtain ⟨⟨r, cpu, net, blockCpu, blockNet⟩, hok, heq⟩ := exists_of_map_eq_ok hreport
  simp only [sampleReport, ok_iff] at hok
  obtain ⟨r', hupdate, cpu', hcpu, net', hnet, rfl, rfl, rfl, rfl, rfl⟩ := hok
  simp only [Prod.mk.injEq] at heq
  obtain ⟨rfl, rfl, hblockCpu, hblockNet⟩ := heq
  have hmoderate : ∀ a ∈ sampleAccounts.names, ∀ usage,
      (sampleManager 1000).usage.find a = some usage →
        Moderate usage.cpuUsage ∧ Moderate usage.netUsage := by
    intro a ha usage husage
    obtain rfl := mem_singleton.mp ha
    cases (Table.find_put_self _ _ _).symm.trans husage
    exact ⟨⟨by decide, by decide⟩, by decide, by decide⟩
  have hproducts : ∀ a ∈ sampleAccounts.names, ∀ limits,
      (sampleManager 1000).getAccountLimits a = .ok limits →
        Representable (sampleManager 1000) limits := by
    intro a ha limits hlimits
    obtain rfl := mem_singleton.mp ha
    have hrow : (sampleManager 1000).getAccountLimits 7 = .ok ⟨1, 1, -1⟩ := by decide +kernel
    cases hrow.symm.trans hlimits
    exact ⟨by decide, by decide⟩
  refine ⟨r', hupdate, hcpu, hnet, ?_⟩
  refine reported_limits_can_be_spent hupdate hmoderate (by decide) (by decide) (by decide)
    (by decide) hproducts (fun _ => false) (by decide) (by decide) ?_ ?_ ?_ ?_
  · intro a ha
    obtain rfl := mem_singleton.mp ha
    exact ⟨_, hcpu, .inr (by decide)⟩
  · intro a ha
    obtain rfl := mem_singleton.mp ha
    exact ⟨_, hnet, .inr (by decide)⟩
  · rw [hblockCpu]
    decide
  · rw [hblockNet]
    decide

end YottaChain.Resources
