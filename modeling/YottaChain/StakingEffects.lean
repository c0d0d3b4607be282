/-
  **What a change of the stake does to each table.**

  The functions of `changebw` in terms of amounts as integers: a delegation and the
  totals of its receiver change by the change of the stake, and a refund changes by
  what is not transferred.  The last holds in every branch: with `net` the change and
  `rest` the part that is to be transferred, the pending amount becomes what it was
  less `net` plus `rest` (`nextRefund_ok`).
-/
import Mathlib.Tactic.Linarith
import YottaChain.RamEffects
import YottaChain.VotingEffects

namespace YottaChain.System

open Checked FixedWidth Table

variable {c : Ctx} {env : Env} {s s' : Staking} {t t' : Tables} {net cpu a b : Asset}
  {source owner receiver : Name} {transfer : Bool} {now : UInt32} {sent : List Sent}

/-! ## 1. Tests of amounts -/

theorem ensureNonneg_eq_ok {msg : String} {x : Unit} :
    ensureNonneg a msg = .ok x ↔ coreSymbol = a.symbol ∧ 0 ≤ a.value := by
  have hle : 0 ≤ a.amount ↔ 0 ≤ a.value := by
    rw [Int64.le_iff_toInt_le]
    exact Iff.rfl
  simp only [ensureNonneg, ok_iff, Asset.le_eq_ok]
  constructor
  · rintro ⟨_, ⟨hsym, rfl⟩, hpos⟩
    exact ⟨hsym, hle.mp (decide_eq_true_eq.mp hpos)⟩
  · rintro ⟨hsym, hpos⟩
    exact ⟨_, ⟨hsym, rfl⟩, decide_eq_true (hle.mpr hpos)⟩

theorem amount_eq_zero_iff : a.amount = 0 ↔ a.value = 0 := by
  rw [← Int64.toInt_inj]
  exact Iff.rfl

theorem amount_neg_iff : a.amount < 0 ↔ a.value < 0 := by
  rw [Int64.lt_iff_toInt_lt]
  exact Iff.rfl

variable {r : Bool}

theorem bothZero_ok (h : bothZero a b = .ok r) : r = true ↔ a.value = 0 ∧ b.value = 0 := by
  simp only [bothZero, bind_eq_ok, Asset.eq_eq_ok] at h
  obtain ⟨_, ⟨_, rfl⟩, h⟩ := h
  rw [← amount_eq_zero_iff, ← amount_eq_zero_iff]
  split at h
  · rename_i hzero
    have ha : a.amount = 0 := decide_eq_true_eq.mp hzero
    obtain ⟨_, rfl⟩ := Asset.eq_eq_ok.mp h
    rw [decide_eq_true_eq]
    exact ⟨fun hb => ⟨ha, hb⟩, fun hab => hab.2⟩
  · rename_i hzero
    have ha : ¬ a.amount = 0 := fun ha => hzero (decide_eq_true ha)
    cases pure_eq_ok.mp h
    simp [ha]

theorem eitherNegative_ok (h : eitherNegative a b = .ok r) :
    r = true ↔ a.value < 0 ∨ b.value < 0 := by
  simp only [eitherNegative, bind_eq_ok, Asset.lt_eq_ok] at h
  obtain ⟨_, ⟨_, rfl⟩, h⟩ := h
  rw [← amount_neg_iff, ← amount_neg_iff]
  split at h
  · rename_i hneg
    have ha : a.amount < 0 := decide_eq_true_eq.mp hneg
    cases pure_eq_ok.mp h
    simp [ha]
  · rename_i hneg
    have ha : ¬ a.amount < 0 := fun ha => hneg (decide_eq_true ha)
    obtain ⟨_, rfl⟩ := Asset.lt_eq_ok.mp h
    rw [decide_eq_true_eq]
    exact ⟨fun hb => .inr hb, fun hab => hab.resolve_left ha⟩

/-! ## 2. Amounts that are held -/

structure Held (net cpu : Asset) : Prop where
  net : InWindow net.amount ∧ 0 ≤ net.value ∧ net.symbol = coreSymbol
  cpu : InWindow cpu.amount ∧ 0 ≤ cpu.value ∧ cpu.symbol = coreSymbol

theorem core_zero_spec : InWindow (Asset.core 0).amount ∧ 0 ≤ (Asset.core 0).value ∧
    (Asset.core 0).symbol = coreSymbol := ⟨by decide, le_refl 0, rfl⟩

theorem held_zero : Held (.core 0) (.core 0) := ⟨core_zero_spec, core_zero_spec⟩

theorem StakeChange.inWindow (h : StakeChange net cpu) :
    InWindow net.amount ∧ InWindow cpu.amount := by
  have hsign := h.sameSign
  have hbound := h.bounded
  unfold Asset.value at *
  unfold InWindow
  omega

theorem symbol_of_add {r : Asset} (h : a.add b = .ok r) : r.symbol = a.symbol := by
  simp only [Asset.add, ok_iff] at h
  obtain ⟨_, _, _, rfl⟩ := h
  rfl

theorem symbol_of_sub {r : Asset} (h : a.sub b = .ok r) : r.symbol = a.symbol := by
  simp only [Asset.sub, ok_iff] at h
  obtain ⟨_, _, _, rfl⟩ := h
  rfl

/-- Two held amounts after a change by `net` and `cpu`: they are held as well unless one of them
    has become negative, which the caller checks. -/
structure Grown (oldNet oldCpu : ℤ) (net cpu net' cpu' : Asset) : Prop where
  net : net'.value = oldNet + net.value
  cpu : cpu'.value = oldCpu + cpu.value
  held : 0 ≤ net'.value → 0 ≤ cpu'.value → Held net' cpu'

theorem StakeChange.grown (h : StakeChange net cpu) : Grown 0 0 net cpu net cpu where
  net := (zero_add _).symm
  cpu := (zero_add _).symm
  held hnet hcpu := ⟨⟨h.inWindow.1, hnet, h.netSymbol⟩, ⟨h.inWindow.2, hcpu, h.cpuSymbol⟩⟩

theorem Held.add {net' cpu' dnet dcpu : Asset} (h : Held net cpu) (hnet : net.add dnet = .ok net')
    (hcpu : cpu.add dcpu = .ok cpu') : Grown net.value cpu.value dnet dcpu net' cpu' := by
  obtain ⟨hnetv, hnetw⟩ := Asset.add_ok hnet h.net.1
  obtain ⟨hcpuv, hcpuw⟩ := Asset.add_ok hcpu h.cpu.1
  refine ⟨hnetv, hcpuv, fun hn hc => ⟨⟨hnetw, hn, ?_⟩, ⟨hcpuw, hc, ?_⟩⟩⟩
  · exact (symbol_of_add hnet).trans h.net.2.2
  · exact (symbol_of_add hcpu).trans h.cpu.2.2

/-! ## 3. Delegations and totals -/

def bandNet (s : Staking) (k : Name × Name) : ℤ := s.delband.valueAt (fun _ d => d.netWeight.value) k

def bandCpu (s : Staking) (k : Name × Name) : ℤ := s.delband.valueAt (fun _ d => d.cpuWeight.value) k

def BandsHeld (s : Staking) : Prop := ∀ k d, s.delband.find k = some d → Held d.netWeight d.cpuWeight

def TotalsHeld (s : Staking) : Prop := ∀ u r, s.userres.find u = some r → Held r.netWeight r.cpuWeight

def RefundsHeld (s : Staking) : Prop := ∀ u r, s.refunds.find u = some r → Held r.netAmount r.cpuAmount

theorem delegated_ok {row : DelegatedBandwidth} (hchange : StakeChange net cpu) (hheld : BandsHeld s)
    (h : delegated s owner receiver net cpu = .ok row) :
    Grown (bandNet s (owner, receiver)) (bandCpu s (owner, receiver)) net cpu
      row.netWeight row.cpuWeight := by
  unfold delegated at h
  unfold bandNet bandCpu Table.valueAt
  rcases hrow : s.delband.find (owner, receiver) with _ | dbo
  · simp only [hrow, pure_eq_ok] at h
    subst h
    exact hchange.grown
  · simp only [hrow, ok_iff] at h
    obtain ⟨net', hnet, cpu', hcpu, rfl⟩ := h
    exact (hheld _ _ hrow).add hnet hcpu

theorem updateDelegation_frame (h : updateDelegation s owner receiver net cpu = .ok s') :
    s' = { s with delband := s'.delband } := by
  simp only [updateDelegation, ok_iff] at h
  obtain ⟨_, _, _, _, _, _, _, _, rfl⟩ := h
  rfl

/-- A delegation changes by the change of the stake. -/
theorem updateDelegation_ok (hchange : StakeChange net cpu) (hheld : BandsHeld s)
    (h : updateDelegation s owner receiver net cpu = .ok s') :
    BandsHeld s' ∧
      ∀ x y : Name × Name → ℤ,
        s'.delband.total (fun k d => x k * d.netWeight.value + y k * d.cpuWeight.value) =
          s.delband.total (fun k d => x k * d.netWeight.value + y k * d.cpuWeight.value) +
            (x (owner, receiver) * net.value + y (owner, receiver) * cpu.value) := by
  simp only [updateDelegation, ok_iff, ensureNonneg_eq_ok] at h
  obtain ⟨row, hrow, ⟨_, hnet0⟩, ⟨_, hcpu0⟩, zero, hzero, rfl⟩ := h
  obtain ⟨hnetv, hcpuv, hgrown⟩ := delegated_ok hchange hheld hrow
  have hiff := bothZero_ok hzero
  have hold : ∀ x y : Name × Name → ℤ,
      s.delband.valueAt (fun k d => x k * d.netWeight.value + y k * d.cpuWeight.value)
        (owner, receiver) = x (owner, receiver) * bandNet s (owner, receiver) +
          y (owner, receiver) * bandCpu s (owner, receiver) := by
    intro x y
    unfold bandNet bandCpu Table.valueAt
    rcases s.delband.find (owner, receiver) with _ | d
    · simp
    · rfl
  refine ⟨?_, fun x y => ?_⟩
  · exact forall_putOrErase hheld (hgrown hnet0 hcpu0)
  · have hzeroed : zero = true → x (owner, receiver) * row.netWeight.value +
        y (owner, receiver) * row.cpuWeight.value = 0 := by
      intro hz
      obtain ⟨hn, hc⟩ := hiff.mp hz
      rw [hn, hc, mul_zero, mul_zero, add_zero]
    have htotal := total_putOrErase (t := s.delband) (k := (owner, receiver)) (a := row)
      (f := fun k d => x k * d.netWeight.value + y k * d.cpuWeight.value) hzeroed
    rw [hold x y, hnetv, hcpuv] at htotal
    linarith

def netTotal (s : Staking) (u : Name) : ℤ := s.userres.valueAt (fun _ r => r.netWeight.value) u

def cpuTotal (s : Staking) (u : Name) : ℤ := s.userres.valueAt (fun _ r => r.cpuWeight.value) u

theorem totalled_ok {row : UserResources} (hchange : StakeChange net cpu) (hheld : TotalsHeld s)
    (h : totalled s receiver net cpu = .ok row) :
    Grown (netTotal s receiver) (cpuTotal s receiver) net cpu row.netWeight row.cpuWeight := by
  unfold totalled at h
  unfold netTotal cpuTotal Table.valueAt
  rcases hrow : s.userres.find receiver with _ | tot
  · simp only [hrow, pure_eq_ok] at h
    subst h
    exact hchange.grown
  · simp only [hrow, ok_iff] at h
    obtain ⟨net', hnet, cpu', hcpu, rfl⟩ := h
    exact (hheld _ _ hrow).add hnet hcpu

theorem updateTotals_frame (h : updateTotals s receiver net cpu = .ok s') :
    s' = { s with userres := s'.userres } := by
  simp only [updateTotals, ok_iff] at h
  obtain ⟨_, _, _, _, _, _, _, _, rfl⟩ := h
  rfl

/-- The totals of the receiver change by the change of the stake. -/
theorem updateTotals_ok (hchange : StakeChange net cpu) (hheld : TotalsHeld s)
    (h : updateTotals s receiver net cpu = .ok s') :
    TotalsHeld s' ∧
      (∀ u, netTotal s' u = netTotal s u + if u = receiver then net.value else 0) ∧
      (∀ u, cpuTotal s' u = cpuTotal s u + if u = receiver then cpu.value else 0) := by
  simp only [updateTotals, ok_iff, ensureNonneg_eq_ok] at h
  obtain ⟨row, hrow, ⟨_, hnet0⟩, ⟨_, hcpu0⟩, zero, hzero, rfl⟩ := h
  obtain ⟨hnetv, hcpuv, hgrown⟩ := totalled_ok hchange hheld hrow
  have hiff := bothZero_ok hzero
  have hmoved : ∀ (f : UserResources → ℤ) (d : ℤ), (zero = true → f row = 0) →
      f row = s.userres.valueAt (fun _ r => f r) receiver + d → ∀ u,
      (if zero = true ∧ row.ramBytes = 0 then s.userres.erase receiver
        else s.userres.put receiver row).valueAt (fun _ r => f r) u =
        s.userres.valueAt (fun _ r => f r) u + if u = receiver then d else 0 := by
    intro f d hnone hrow u
    rw [valueAt_putOrErase fun hz => hnone hz.1]
    by_cases hu : u = receiver
    · rw [if_pos hu, if_pos hu, hu, hrow]
    · rw [if_neg hu, if_neg hu, add_zero]
  refine ⟨?_, ?_, ?_⟩
  · exact forall_putOrErase hheld (hgrown hnet0 hcpu0)
  · exact hmoved (fun r => r.netWeight.value) net.value (fun hz => (hiff.mp hz).1) hnetv
  · exact hmoved (fun r => r.cpuWeight.value) cpu.value (fun hz => (hiff.mp hz).2) hcpuv

/-! ## 4. Refunds -/

/-- One part of a change netted against a pending amount: what is pending afterwards and
    the rest are not negative and make up the difference. -/
structure Netted (amount balance pending rest : Asset) : Prop where
  value : pending.value = amount.value - balance.value + rest.value
  covered : balance.value ≤ amount.value → rest.value = 0
  pending : InWindow pending.amount ∧ 0 ≤ pending.value ∧ pending.symbol = coreSymbol
  rest : InWindow rest.amount ∧ 0 ≤ rest.value ∧ rest.symbol = coreSymbol

theorem inWindow_neg (h : InWindow a.amount) : InWindow a.neg.amount := by
  have hneg := Asset.value_neg h
  unfold Asset.value at hneg
  unfold InWindow at *
  omega

theorem drawRefund_ok {pending rest : Asset} (ha : InWindow a.amount) (hsym : a.symbol = coreSymbol)
    (h : drawRefund a b = .ok (pending, rest)) : Netted a b pending rest := by
  simp only [drawRefund, bind_eq_ok, Asset.lt_eq_ok] at h
  obtain ⟨left, hleft, _, ⟨_, rfl⟩, h⟩ := h
  obtain ⟨hvalue, hwindow⟩ := Asset.sub_ok hleft ha
  have hleftsym : left.symbol = coreSymbol := (symbol_of_sub hleft).trans hsym
  split at h
  · rename_i hneg
    simp only [ok_iff] at h
    obtain ⟨rfl, rfl⟩ := h
    have hlt : left.value < 0 := amount_neg_iff.mp (decide_eq_true_eq.mp hneg)
    have hnegv := Asset.value_neg hwindow
    have hzero : (Asset.core 0).value = 0 := rfl
    exact ⟨by omega, by omega, core_zero_spec, inWindow_neg hwindow, by omega, hleftsym⟩
  · rename_i hneg
    simp only [ok_iff] at h
    obtain ⟨rfl, rfl⟩ := h
    have hge : ¬ left.value < 0 := fun hlt => hneg (decide_eq_true (amount_neg_iff.mpr hlt))
    have hzero : (Asset.core 0).value = 0 := rfl
    exact ⟨by omega, fun _ => rfl, ⟨hwindow, by omega, hleftsym⟩, core_zero_spec⟩

theorem splitNegative_ok {pending rest : Asset} (hb : InWindow b.amount) (hsym : b.symbol = coreSymbol)
    (h : splitNegative b = .ok (pending, rest)) : Netted (.core 0) b pending rest := by
  simp only [splitNegative, bind_eq_ok, Asset.lt_eq_ok] at h
  obtain ⟨_, ⟨_, rfl⟩, h⟩ := h
  have hzero : (Asset.core 0).value = 0 := rfl
  split at h
  · rename_i hneg
    simp only [ok_iff] at h
    obtain ⟨rfl, rfl⟩ := h
    have hlt : b.value < 0 := amount_neg_iff.mp (decide_eq_true_eq.mp hneg)
    have hnegv := Asset.value_neg hb
    exact ⟨by omega, fun _ => rfl, ⟨inWindow_neg hb, by omega, hsym⟩, core_zero_spec⟩
  · rename_i hneg
    simp only [ok_iff] at h
    obtain ⟨rfl, rfl⟩ := h
    have hge : ¬ b.value < 0 := fun hlt => hneg (decide_eq_true (amount_neg_iff.mpr hlt))
    exact ⟨by omega, by omega, core_zero_spec, hb, by omega, hsym⟩

def RefundRequest.value (r : RefundRequest) : ℤ := r.netAmount.value + r.cpuAmount.value

def pendingValue (req : Option RefundRequest) : ℤ := req.elim 0 RefundRequest.value

structure Refunded (before after : Option RefundRequest) (net cpu restNet restCpu : Asset) :
    Prop where
  value : pendingValue after =
    pendingValue before - (net.value + cpu.value) + (restNet.value + restCpu.value)
  held : ∀ r, after = some r → Held r.netAmount r.cpuAmount
  rest : Held restNet restCpu
  covered : net.value ≤ 0 → cpu.value ≤ 0 → restNet.value + restCpu.value = 0

variable {restCpu restNet : Asset} {after : Option RefundRequest}

theorem updateRefund_ok {req : RefundRequest} (hreq : Held req.netAmount req.cpuAmount)
    (h : updateRefund now req net cpu = .ok (after, restNet, restCpu)) :
    Refunded (some req) after net cpu restNet restCpu := by
  simp only [updateRefund, bind_eq_ok, ensureNonneg_eq_ok] at h
  obtain ⟨_, _, ⟨netAmount, restNet1⟩, hnet, ⟨cpuAmount, restCpu1⟩, hcpu, _, _, _, _, zero, hzero,
    h⟩ := h
  have hn := drawRefund_ok hreq.net.1 hreq.net.2.2 hnet
  have hc := drawRefund_ok hreq.cpu.1 hreq.cpu.2.2 hcpu
  have hnv := hn.value
  have hcv := hc.value
  have hcovered : net.value ≤ 0 → cpu.value ≤ 0 → restNet1.value + restCpu1.value = 0 := by
    intro hnet hcpu
    rw [hn.covered (le_trans hnet hreq.net.2.1), hc.covered (le_trans hcpu hreq.cpu.2.1), add_zero]
  split at h
  · rename_i hz
    simp only [ok_iff] at h
    obtain ⟨rfl, rfl, rfl⟩ := h
    obtain ⟨hn0, hc0⟩ := (bothZero_ok hzero).mp hz
    refine ⟨?_, ?_, ⟨hn.rest, hc.rest⟩, hcovered⟩
    · simp only [pendingValue, Option.elim_none, Option.elim_some, RefundRequest.value]
      dsimp only at hn0 hc0
      omega
    · intro r hr
      cases hr
  · simp only [ok_iff] at h
    obtain ⟨rfl, rfl, rfl⟩ := h
    refine ⟨?_, ?_, ⟨hn.rest, hc.rest⟩, hcovered⟩
    · simp only [pendingValue, Option.elim_some, RefundRequest.value]
      omega
    · intro r hr
      cases hr
      exact ⟨hn.pending, hc.pending⟩

theorem createRefund_ok (hchange : StakeChange net cpu)
    (h : createRefund now net cpu = .ok (after, restNet, restCpu)) :
    Refunded none after net cpu restNet restCpu := by
  simp only [createRefund, bind_eq_ok] at h
  obtain ⟨negative, hnegative, h⟩ := h
  obtain ⟨hnetw, hcpuw⟩ := hchange.inWindow
  split at h
  · simp only [ok_iff] at h
    obtain ⟨⟨netAmount, restNet1⟩, hnet, ⟨cpuAmount, restCpu1⟩, hcpu, rfl, rfl, rfl⟩ := h
    have hn := splitNegative_ok hnetw hchange.netSymbol hnet
    have hc := splitNegative_ok hcpuw hchange.cpuSymbol hcpu
    have hnv := hn.value
    have hcv := hc.value
    have hzero : (Asset.core 0).value = 0 := rfl
    refine ⟨?_, ?_, ⟨hn.rest, hc.rest⟩, fun hnet hcpu => ?_⟩
    · simp only [pendingValue, Option.elim_none, Option.elim_some, RefundRequest.value]
      omega
    · intro r hr
      cases hr
      exact ⟨hn.pending, hc.pending⟩
    · rw [hn.covered hnet, hc.covered hcpu, add_zero]
  · rename_i hnot
    simp only [ok_iff] at h
    obtain ⟨rfl, rfl, rfl⟩ := h
    rw [eitherNegative_ok hnegative] at hnot
    refine ⟨?_, ?_, ⟨⟨hnetw, by omega, hchange.netSymbol⟩, ⟨hcpuw, by omega, hchange.cpuSymbol⟩⟩,
      by omega⟩
    · simp only [pendingValue, Option.elim_none]
      omega
    · intro r hr
      cases hr

theorem nextRefund_ok {need : Bool} (hchange : StakeChange net cpu) (hheld : RefundsHeld s)
    (h : nextRefund now s owner net cpu = .ok (s', need, restNet, restCpu)) :
    ∃ after, s' = storeRefund s owner after ∧ need = after.isSome ∧
      Refunded (s.refunds.find owner) after net cpu restNet restCpu := by
  simp only [nextRefund, ok_iff] at h
  obtain ⟨⟨after, restNet1, restCpu1⟩, hafter, rfl, rfl, rfl, rfl⟩ := h
  refine ⟨after, rfl, rfl, ?_⟩
  rcases hreq : s.refunds.find owner with _ | req
  · simp only [hreq] at hafter
    exact createRefund_ok hchange hafter
  · simp only [hreq] at hafter
    exact updateRefund_ok (hheld owner req hreq) hafter

def touchesRefund (owner receiver : Name) (net cpu : Asset) (transfer : Bool) : Bool :=
  (!transfer && decide (owner = receiver)) || decide (net.amount + cpu.amount < 0)

theorem touchesRefund_of_neg (hchange : StakeChange net cpu) (hneg : net.value + cpu.value < 0) :
    touchesRefund owner receiver net cpu transfer = true := by
  have hbound := hchange.bounded
  have hsum : (net.amount + cpu.amount).toInt = net.value + cpu.value := by
    unfold Asset.value at *
    exact toInt_add_of_bounds (by omega) (by omega)
  have hlt : net.amount + cpu.amount < 0 := by
    rw [Int64.lt_iff_toInt_lt, hsum, Int64.toInt_zero]
    exact hneg
  simp [touchesRefund, hlt]

/-- The transfer of a rest to `eosio.stake`, if there is one. -/
def stakeTransfer (source : Name) (rest : Asset) : List Sent :=
  if 0 < rest.amount then
    [⟨source, .transfer source stakeAccount rest "stake bandwidth".toList⟩] else []

theorem settleRefund_ok (hchange : StakeChange net cpu) (hheld : RefundsHeld s)
    (h : settleRefund now s source owner receiver net cpu transfer = .ok (s', sent)) :
    ∃ after restNet restCpu rest, restNet.add restCpu = .ok rest ∧
      sent = stakeTransfer source rest ∧
      ((touchesRefund owner receiver net cpu transfer = true ∧
          Refunded (s.refunds.find owner) after net cpu restNet restCpu ∧
          s' = schedule (storeRefund s owner after) now owner after.isSome) ∨
        (touchesRefund owner receiver net cpu transfer = false ∧ restNet = net ∧ restCpu = cpu ∧
          s' = schedule s now owner false)) := by
  simp only [settleRefund, bind_eq_ok] at h
  obtain ⟨⟨s1, need, restNet, restCpu⟩, hs1, rest, hrest, positive, hpositive, h⟩ := h
  have hsent : s' = schedule s1 now owner need ∧ sent = stakeTransfer source rest := by
    obtain ⟨_, rfl⟩ := Asset.lt_eq_ok.mp hpositive
    unfold stakeTransfer
    split at h
    · rename_i hpos
      simp only [ok_iff] at h
      obtain ⟨rfl, rfl⟩ := h
      have hlt : 0 < rest.amount := decide_eq_true_eq.mp hpos
      exact ⟨rfl, (if_pos hlt).symm⟩
    · rename_i hpos
      simp only [ok_iff] at h
      obtain ⟨rfl, rfl⟩ := h
      have hnot : ¬ 0 < rest.amount := fun hlt => hpos (decide_eq_true hlt)
      exact ⟨rfl, (if_neg hnot).symm⟩
  obtain ⟨rfl, rfl⟩ := hsent
  by_cases htouch : touchesRefund owner receiver net cpu transfer = true
  · have hcond := htouch
    unfold touchesRefund at hcond
    rw [if_pos hcond] at hs1
    obtain ⟨after, rfl, rfl, hrefunded⟩ := nextRefund_ok hchange hheld hs1
    exact ⟨after, restNet, restCpu, rest, hrest, rfl, .inl ⟨htouch, hrefunded, rfl⟩⟩
  · have hcond := htouch
    unfold touchesRefund at hcond
    rw [if_neg hcond, pure_eq_ok, Prod.mk.injEq, Prod.mk.injEq, Prod.mk.injEq] at hs1
    obtain ⟨rfl, rfl, rfl, rfl⟩ := hs1
    exact ⟨none, net, cpu, rest, hrest, rfl, .inr ⟨Bool.eq_false_iff.mpr htouch, rfl, rfl, rfl⟩⟩

theorem find_storeRefund (s : Staking) (owner u : Name) (after : Option RefundRequest) :
    (storeRefund s owner after).refunds.find u = if u = owner then after else s.refunds.find u := by
  unfold storeRefund
  cases after with
  | none => exact find_erase _ _ _
  | some => exact find_put _ _ _ _

theorem find_schedule (now : UInt32) (s : Staking) (owner u : Name) (need : Bool) :
    (schedule s now owner need).deferred.find u =
      if u = owner then (if need then some (now + refundDelay) else none) else s.deferred.find u := by
  unfold schedule
  cases need with
  | false => exact find_erase _ _ _
  | true => exact find_put _ _ _ _

section

variable (hchange : StakeChange net cpu) (hheld : RefundsHeld s)
  (h : settle now s source owner receiver net cpu transfer = .ok (s', sent))

include hchange hheld h

theorem settle_frame : s' = { s with refunds := s'.refunds, deferred := s'.deferred } := by
  unfold settle at h
  split at h
  · obtain ⟨_, _, _, _, _, _, ⟨_, _, rfl⟩ | ⟨_, _, _, rfl⟩⟩ := settleRefund_ok hchange hheld h
    · rfl
    · rfl
  · simp only [ok_iff] at h
    rw [← h.1]

theorem settle_sent :
    ∃ rest, sent = stakeTransfer source rest ∧ (net.value ≤ 0 → cpu.value ≤ 0 → sent = []) := by
  unfold settle at h
  split at h
  · obtain ⟨after, restNet, restCpu, rest, hrest, rfl,
      ⟨_, hrefunded, rfl⟩ | ⟨hnot, rfl, rfl, rfl⟩⟩ := settleRefund_ok hchange hheld h
    · refine ⟨rest, rfl, fun hnet hcpu => if_neg ?_⟩
      have hsum := (Asset.add_ok hrest hrefunded.rest.net.1).1
      rw [hrefunded.covered hnet hcpu] at hsum
      rw [amount_eq_zero_iff.mpr hsum]
      exact Int64.lt_irrefl
    · refine ⟨rest, rfl, fun hnet hcpu => if_neg ?_⟩
      have hsum := (Asset.add_ok hrest hchange.inWindow.1).1
      rw [Int64.lt_iff_toInt_lt, Int64.toInt_zero]
      unfold Asset.value at *
      omega
  · simp only [ok_iff] at h
    refine ⟨.core 0, h.2.symm, fun _ _ => h.2.symm⟩

theorem settle_held : RefundsHeld s' := by
  unfold settle at h
  split at h
  · obtain ⟨after, _, _, _, _, _, ⟨_, hrefunded, rfl⟩ | ⟨_, _, _, rfl⟩⟩ :=
      settleRefund_ok hchange hheld h
    · intro u r hr
      have hfind : (storeRefund s owner after).refunds.find u = some r := hr
      rw [find_storeRefund] at hfind
      split at hfind
      · exact hrefunded.held r hfind
      · exact hheld u r hfind
    · exact hheld
  · simp only [ok_iff] at h
    exact h.1 ▸ hheld

end

theorem refund_ok (h : refund c s owner = .ok (s', sent)) :
    c.hasAuth owner = true ∧ ∃ req quantity, s.refunds.find owner = some req ∧
      req.netAmount.add req.cpuAmount = .ok quantity ∧
      s' = { s with refunds := s.refunds.erase owner } ∧
      sent = [⟨stakeAccount, .transfer stakeAccount owner quantity "unstake".toList⟩] := by
  simp only [refund, ok_iff] at h
  obtain ⟨hauth, req, hreq, _, quantity, hsum, rfl, rfl⟩ := h
  exact ⟨hauth, req, quantity, hreq, hsum, rfl, rfl⟩

theorem deferredRefund_ok (h : deferredRefund c s owner = .ok (s', sent)) :
    ∃ s1, refund { c with hasAuth := fun u => u == owner } s owner = .ok (s1, sent) ∧
      s' = { s1 with deferred := s1.deferred.erase owner } := by
  simp only [deferredRefund, ok_iff] at h
  obtain ⟨_, _, _, ⟨s1, sent1⟩, hrefund, rfl, rfl⟩ := h
  exact ⟨s1, hrefund, rfl⟩

theorem held_erase (h : RefundsHeld s) : RefundsHeld { s with refunds := s.refunds.erase owner } :=
  forall_erase h

/-! ## 5. The other actions -/

def movesStake : Action → Bool
  | .delegatebw .. | .undelegatebw .. | .refund _ | .deferredRefund _ => true
  | _ => false

/-- The totals are as they were; rows may have been added, and memory booked. -/
structure SameWeights (u u' : Table Name UserResources) : Prop where
  net : ∀ k, u'.valueAt (fun _ r => r.netWeight.value) k = u.valueAt (fun _ r => r.netWeight.value) k
  cpu : ∀ k, u'.valueAt (fun _ r => r.cpuWeight.value) k = u.valueAt (fun _ r => r.cpuWeight.value) k
  held : (∀ k r, u.find k = some r → Held r.netWeight r.cpuWeight) →
    ∀ k r, u'.find k = some r → Held r.netWeight r.cpuWeight

structure SameStaking (s s' : Staking) : Prop where
  weights : SameWeights s.userres s'.userres
  delband : s'.delband = s.delband
  refunds : s'.refunds = s.refunds
  deferred : s'.deferred = s.deferred

theorem SameWeights.refl (u : Table Name UserResources) : SameWeights u u :=
  ⟨fun _ => rfl, fun _ => rfl, fun h => h⟩

theorem SameStaking.refl (s : Staking) : SameStaking s s := ⟨.refl _, rfl, rfl, rfl⟩

def rowOf (u : Table Name UserResources) (k : Name) : UserResources := (u.find k).getD {}

theorem valueAt_eq_rowOf (u : Table Name UserResources) (k : Name) {f : UserResources → ℤ}
    (hzero : f {} = 0) : u.valueAt (fun _ r => f r) k = f (rowOf u k) := by
  unfold Table.valueAt rowOf
  rcases u.find k with _ | r
  · exact hzero.symm
  · rfl

theorem sameWeights_put (u : Table Name UserResources) (k : Name) (bytes : Int64) :
    SameWeights u (u.put k { rowOf u k with ramBytes := bytes }) := by
  have hsame : ∀ f : UserResources → ℤ, f {} = 0 →
      f { rowOf u k with ramBytes := bytes } = f (rowOf u k) → ∀ l,
      (u.put k { rowOf u k with ramBytes := bytes }).valueAt (fun _ r => f r) l =
        u.valueAt (fun _ r => f r) l := by
    intro f hzero hrow l
    rw [valueAt_put]
    split
    · rename_i hl
      rw [hl, valueAt_eq_rowOf u k hzero, hrow]
    · rfl
  refine ⟨?_, ?_, fun hheld => forall_put hheld ?_⟩
  · exact hsame (fun r => r.netWeight.value) rfl rfl
  · exact hsame (fun r => r.cpuWeight.value) rfl rfl
  · unfold rowOf
    rcases hold : u.find k with _ | old
    · exact held_zero
    · exact hheld k old hold

theorem sameWeights_grantRam (u : Table Name UserResources) (k : Name) (bytes : Int64) :
    SameWeights u (grantRam u k bytes) := by
  unfold grantRam
  rcases hrow : u.find k with _ | res
  · have hput := sameWeights_put u k bytes
    unfold rowOf at hput
    rw [hrow] at hput
    exact hput
  · have hput := sameWeights_put u k (res.ramBytes + bytes)
    unfold rowOf at hput
    rw [hrow] at hput
    exact hput

theorem withMemory_sameStaking {r : Checked (Memory × List Sent)}
    (h : t.withMemory r = .ok (t', sent))
    (hsame : ∀ m, r = .ok (m, sent) → SameWeights t.staking.userres m.userres) :
    SameStaking t.staking t'.staking := by
  obtain ⟨hr, ht'⟩ := withMemory_ok h
  have hweights := hsame _ hr
  rw [ht']
  exact ⟨hweights, rfl, rfl, rfl⟩

theorem sameWeights_buyram {m m' : Memory} {payer : Name} {quant : Asset}
    (h : buyram env m payer receiver quant = .ok (m', sent)) :
    SameWeights m.userres m'.userres := by
  obtain ⟨_, _, _, _, _, _, _, _, rfl, _⟩ := buyram_ok h
  exact sameWeights_grantRam _ _ _

/-- An action that does not move a stake leaves all but memory alone. -/
theorem dispatch_sameStaking {a : Action} (hmoves : movesStake a = false)
    (h : dispatch env t a = .ok (t', sent)) : SameStaking t.staking t'.staking := by
  cases a with
  | delegatebw _ _ _ _ _ | undelegatebw _ _ _ _ | refund _ | deferredRefund _ => cases hmoves
  | newaccount _ newact =>
    simp only [dispatch, newaccount, ok_iff] at h
    obtain ⟨_, _, _, ⟨hnone, rfl⟩, rfl, _⟩ := h
    have hput := sameWeights_put t.staking.userres newact 0
    unfold rowOf at hput
    rw [hnone] at hput
    exact ⟨hput, rfl, rfl, rfl⟩
  | bidname _ _ _ | setram _ | rewardprods | startreward =>
    simp only [dispatch, ok_iff] at h
    obtain ⟨_, _, rfl, _⟩ := h
    exact .refl _
  | onblock =>
    rcases onblock_ok h with ⟨rfl, _⟩ | ⟨rfl, _⟩
    · exact .refl _
    · exact .refl _
  | unregprod _ | regproxy _ _ | claimrewards _ => cases h
  | rmvproducer _ | regproducer _ _ _ _ | voteproducer _ _ _ | changevotes _ | seqproducer _ _ _ _
  | reprodlevel | setautosche _ _ _ =>
    rw [(withElection_ok h).2.1]
    exact .refl _
  | buyrambytes =>
    apply withMemory_sameStaking h
    intro m hm
    obtain ⟨_, _, _, _, _, _, _, hbuy⟩ := buyrambytes_ok hm
    exact sameWeights_buyram hbuy
  | buyram =>
    apply withMemory_sameStaking h
    intro m hm
    exact sameWeights_buyram hm
  | sellram account bytes =>
    apply withMemory_sameStaking h
    intro m hm
    obtain ⟨_, _, res, _, _, _, _, _, hres, _, _, _, _, _, _, _, rfl, _⟩ := sellram_ok hm
    have hput := sameWeights_put t.staking.userres account (res.ramBytes - bytes)
    unfold rowOf at hput
    have hfind : t.staking.userres.find account = some res := hres
    rw [hfind] at hput
    exact hput

end YottaChain.System
