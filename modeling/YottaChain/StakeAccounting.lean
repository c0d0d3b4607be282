/-
  **Stakes are booked twice and backed by tokens.**

  A delegation is a row of `delband`.  The totals of the receiver in `userres` and the
  `staked` of the owner in `voters` are sums over these rows (`StakeLaw`), and what
  `eosio.stake` holds is the sum of all delegations and all pending refunds
  (`heldIn`).  A change of the stake is netted against the pending refund of the owner,
  and only the rest is transferred (`settle_total`).

  The check that `staked` is not negative is also what keeps it from overflowing.
-/
import YottaChain.EconomyEffects
import YottaChain.StakingEffects

namespace YottaChain.System

open Checked

variable {c : Ctx} {env : Env} {deposit : HddDeposit.Tables} {s s' : Staking} {e e' e1 : Election}
  {net cpu : Asset} {source owner receiver : Name} {transfer : Bool} {now : UInt32}
  {sent : List Sent}

/-! ## 1. Sums -/

def bandSum (s : Staking) (x y : Name × Name → ℤ) : ℤ :=
  s.delband.total fun k d => x k * d.netWeight.value + y k * d.cpuWeight.value

def ofOwner (u : Name) (k : Name × Name) : ℤ := if k.1 = u then 1 else 0

def toReceiver (u : Name) (k : Name × Name) : ℤ := if k.2 = u then 1 else 0

def refundsTotal (s : Staking) : ℤ := s.refunds.total fun _ r => r.value

def heldIn (s : Staking) : ℤ := bandSum s 1 1 + refundsTotal s

/-- The stake of an account as its row of `voters` has it. -/
def stakedOf (e : Election) (u : Name) : ℤ := e.voters.valueAt (fun _ v => v.staked.toInt) u

structure StakeLaw (s : Staking) (e : Election) : Prop where
  noProxies : NoProxies e
  bands : BandsHeld s
  totals : TotalsHeld s
  refunds : RefundsHeld s
  net : ∀ u, netTotal s u = bandSum s (toReceiver u) 0
  cpu : ∀ u, cpuTotal s u = bandSum s 0 (toReceiver u)
  staked : ∀ u, stakedOf e u = bandSum s (ofOwner u) (ofOwner u)

theorem bandSum_toReceiver_net (s : Staking) (u : Name) : bandSum s (toReceiver u) 0 =
    s.delband.total fun k d => if k.2 = u then d.netWeight.value else 0 := by
  refine congrArg s.delband.total (funext fun k => funext fun d => ?_)
  simp [toReceiver]

theorem bandSum_toReceiver_cpu (s : Staking) (u : Name) : bandSum s 0 (toReceiver u) =
    s.delband.total fun k d => if k.2 = u then d.cpuWeight.value else 0 := by
  refine congrArg s.delband.total (funext fun k => funext fun d => ?_)
  simp [toReceiver]

theorem bandSum_ofOwner (s : Staking) (u : Name) : bandSum s (ofOwner u) (ofOwner u) =
    s.delband.total fun k d => if k.1 = u then d.netWeight.value + d.cpuWeight.value else 0 := by
  refine congrArg s.delband.total (funext fun k => funext fun d => ?_)
  unfold ofOwner
  split
  · rw [one_mul, one_mul]
  · rw [zero_mul, zero_mul, add_zero]

theorem bandSum_all (s : Staking) : bandSum s 1 1 =
    s.delband.total fun _ d => d.netWeight.value + d.cpuWeight.value := by
  refine congrArg s.delband.total (funext fun k => funext fun d => ?_)
  simp

theorem stakeLaw_empty : StakeLaw {} {} := by
  refine ⟨fun u v hv => ?_, fun k d hd => ?_, fun u r hr => ?_, fun u r hr => ?_, fun u => rfl,
    fun u => rfl, fun u => rfl⟩
  · cases hv
  · cases hd
  · cases hr
  · cases hr

theorem StakeLaw.of_same (h : StakeLaw s e) (hsame : SameStaking s s') : StakeLaw s' e := by
  have hsum : ∀ x y, bandSum s' x y = bandSum s x y := by
    intro x y
    rw [bandSum, bandSum, hsame.delband]
  refine ⟨h.noProxies, ?_, hsame.weights.held h.totals, ?_, fun u => ?_, fun u => ?_, fun u => ?_⟩
  · unfold BandsHeld
    rw [hsame.delband]
    exact h.bands
  · unfold RefundsHeld
    rw [hsame.refunds]
    exact h.refunds
  · rw [hsum]
    exact (hsame.weights.net u).trans (h.net u)
  · rw [hsum]
    exact (hsame.weights.cpu u).trans (h.cpu u)
  · rw [hsum]
    exact h.staked u

theorem heldIn_of_same (hsame : SameStaking s s') : heldIn s' = heldIn s := by
  unfold heldIn bandSum refundsTotal
  rw [hsame.delband, hsame.refunds]

/-! ## 2. Refunds -/

theorem refundsTotal_storeRefund (s : Staking) (owner : Name) (after : Option RefundRequest) :
    refundsTotal (storeRefund s owner after) =
      refundsTotal s - pendingValue (s.refunds.find owner) + pendingValue after := by
  have hold : s.refunds.valueAt (fun _ r => r.value) owner = pendingValue (s.refunds.find owner) := rfl
  unfold refundsTotal storeRefund
  cases after with
  | none =>
    have htotal := s.refunds.total_erase owner fun _ r => r.value
    have hnone : pendingValue none = 0 := rfl
    dsimp only
    omega
  | some r =>
    have htotal := s.refunds.total_put owner r fun _ r => r.value
    have hsome : pendingValue (some r) = r.value := rfl
    dsimp only
    omega

/-- What is not netted against the refund of the owner is transferred. -/
theorem settle_total (hchange : StakeChange net cpu) (hheld : RefundsHeld s)
    (hsource : source ≠ stakeAccount)
    (h : settle now s source owner receiver net cpu transfer = .ok (s', sent)) :
    ∃ rest, sent = stakeTransfer source rest ∧ rest.symbol = coreSymbol ∧ 0 ≤ rest.value ∧
      refundsTotal s' = refundsTotal s - (net.value + cpu.value) + rest.value := by
  unfold settle at h
  rw [if_pos hsource] at h
  obtain ⟨after, restNet, restCpu, rest, hrest, rfl,
    ⟨_, hrefunded, rfl⟩ | ⟨hnot, rfl, rfl, rfl⟩⟩ := settleRefund_ok hchange hheld h
  · have hschedule : refundsTotal (schedule (storeRefund s owner after) now owner after.isSome) =
        refundsTotal (storeRefund s owner after) := rfl
    have htotal := refundsTotal_storeRefund s owner after
    have hvalue := hrefunded.value
    have hsum := (Asset.add_ok hrest hrefunded.rest.net.1).1
    have hnet := hrefunded.rest.net.2.1
    have hcpu := hrefunded.rest.cpu.2.1
    refine ⟨rest, rfl, ?_, by omega, by omega⟩
    exact (symbol_of_add hrest).trans hrefunded.rest.net.2.2
  · have hsum := (Asset.add_ok hrest hchange.inWindow.1).1
    have hnonneg : 0 ≤ restNet.value + restCpu.value := by
      by_contra hneg
      rw [touchesRefund_of_neg hchange (by omega)] at hnot
      cases hnot
    have hschedule : refundsTotal (schedule s now owner false) = refundsTotal s := rfl
    refine ⟨rest, rfl, (symbol_of_add hrest).trans hchange.netSymbol, by omega, by omega⟩

/-! ## 3. The rows of the owners -/

theorem Voted.stakedOf {user : Name} {producers : List Name} {voter : VoterInfo} {weight : ℤ}
    {missing : Name} {voting : Bool}
    (h : Voted c deposit e user producers voter weight missing e1 e' voting) (u : Name) :
    stakedOf e' u = stakedOf e u := by
  have hvoters : e1.voters = e.voters := (voters_applyDeltas h.loop).trans (voters_activate _ _ _)
  rw [h.written]
  unfold System.stakedOf Table.valueAt
  dsimp only
  rw [Table.find_adjust, hvoters]
  by_cases hu : u = user
  · rw [if_pos hu, hu, h.row]
    rfl
  · rw [if_neg hu]

theorem restaked_staked {amount : Int64} {moved : ℤ} (hmoved : amount.toInt = moved)
    (hbound : -(2 ^ 62 - 1) ≤ moved ∧ moved ≤ 2 ^ 62 - 1) (hnonneg : 0 ≤ stakedOf e owner)
    (hstaked : 0 ≤ (restaked e owner amount).staked) :
    (restaked e owner amount).staked.toInt = stakedOf e owner + moved := by
  rw [Int64.le_iff_toInt_le, Int64.toInt_zero] at hstaked
  unfold restaked stakedOf Table.valueAt at *
  rcases hrow : e.voters.find owner with _ | v
  · simpa using hmoved
  · rw [hrow] at hstaked hnonneg
    dsimp only [Option.elim_some] at *
    -- A sum that is too large would come out negative.
    have hlt := Int64.toInt_lt v.staked
    rw [Int64.toInt_add, hmoved, Int.bmod_def] at hstaked ⊢
    omega

theorem updateStake_staked (hno : NoProxies e) (hchange : StakeChange net cpu)
    (hnonneg : 0 ≤ stakedOf e owner) (h : updateStake c deposit e owner net cpu = .ok e') :
    NoProxies e' ∧ ∀ u, stakedOf e' u =
      stakedOf e u + if u = owner then net.value + cpu.value else 0 := by
  obtain ⟨sum, hsum, hstaked, hrenew⟩ := updateStake_ok h
  have hvalue := (Asset.add_ok hsum hchange.inWindow.1).1
  have hrow := restaked_staked hvalue hchange.bounded hnonneg hstaked
  have hrestake : ∀ u, stakedOf (restake e owner sum.amount) u =
      stakedOf e u + if u = owner then net.value + cpu.value else 0 := by
    intro u
    by_cases hu : u = owner
    · rw [if_pos hu, hu, ← hrow]
      unfold stakedOf Table.valueAt restake
      rw [Table.find_put_self]
      rfl
    · rw [if_neg hu, add_zero]
      unfold stakedOf Table.valueAt restake
      rw [Table.find_put_ne _ _ hu]
  rcases renewVotes_ok (hno.restake _ _) (restaked_proxy hno _ _).1 hrenew with
    ⟨_, rfl⟩ | ⟨row, weight, missing, e1, hvoted⟩
  · exact ⟨hno.restake _ _, hrestake⟩
  · exact ⟨hvoted.noProxies (hno.restake _ _), fun u => (hvoted.stakedOf u).trans (hrestake u)⟩

/-! ## 4. A change of the stake -/

theorem bandSum_nonneg (h : BandsHeld s) (u : Name) : 0 ≤ bandSum s (ofOwner u) (ofOwner u) := by
  apply Table.total_nonneg
  intro k d hd
  have hnet := (h k d hd).net.2.1
  have hcpu := (h k d hd).cpu.2.1
  unfold ofOwner
  split
  · omega
  · omega

theorem changebw_law {a a' : Stakes} (hlaw : StakeLaw a.staking a.election)
    (hchange : StakeChange net cpu) (hsource : source ≠ stakeAccount)
    (hcall : changebw c deposit a source receiver net cpu transfer = .ok (a', sent)) :
    StakeLaw a'.staking a'.election ∧
      ∃ rest, sent = stakeTransfer source rest ∧ rest.symbol = coreSymbol ∧ 0 ≤ rest.value ∧
        heldIn a'.staking = heldIn a.staking + rest.value := by
  obtain ⟨_, _, s1, s2, hs1, hs2, hsettle, hstake⟩ := changebw_ok hcall
  have hframe1 := updateDelegation_frame hs1
  have hframe2 := updateTotals_frame hs2
  obtain ⟨hbands, hsum⟩ := updateDelegation_ok hchange hlaw.bands hs1
  have htotals1 : TotalsHeld s1 := by
    rw [hframe1]
    exact hlaw.totals
  obtain ⟨htotals, hnet, hcpu⟩ := updateTotals_ok hchange htotals1 hs2
  have hrefunds2 : RefundsHeld s2 := by
    rw [hframe2, hframe1]
    exact hlaw.refunds
  have hframe3 := settle_frame hchange hrefunds2 hsettle
  obtain ⟨rest, hsent, hsymbol, hpos, hrest⟩ := settle_total hchange hrefunds2 hsource hsettle
  have hnonneg : 0 ≤ stakedOf a.election (if transfer then receiver else source) := by
    rw [hlaw.staked]
    exact bandSum_nonneg hlaw.bands _
  obtain ⟨hno, hstaked⟩ := updateStake_staked hlaw.noProxies hchange hnonneg hstake
  have hband : a'.staking.delband = s1.delband := by
    rw [hframe3, hframe2]
  have hres : a'.staking.userres = s2.userres := by
    rw [hframe3]
  have hsums : ∀ x y, bandSum a'.staking x y = bandSum a.staking x y +
      (x (if transfer then receiver else source, receiver) * net.value +
        y (if transfer then receiver else source, receiver) * cpu.value) := by
    intro x y
    unfold bandSum
    rw [hband]
    exact hsum x y
  have htotal : ∀ u, netTotal a'.staking u = netTotal s2 u ∧ cpuTotal a'.staking u = cpuTotal s2 u := by
    intro u
    unfold netTotal cpuTotal
    rw [hres]
    exact ⟨rfl, rfl⟩
  have hbefore : ∀ u, netTotal s1 u = netTotal a.staking u ∧ cpuTotal s1 u = cpuTotal a.staking u := by
    intro u
    unfold netTotal cpuTotal
    rw [hframe1]
    exact ⟨rfl, rfl⟩
  refine ⟨⟨hno, ?_, ?_, settle_held hchange hrefunds2 hsettle, fun u => ?_, fun u => ?_, fun u => ?_⟩,
    rest, hsent, hsymbol, hpos, ?_⟩
  · unfold BandsHeld
    rw [hband]
    exact hbands
  · unfold TotalsHeld
    rw [hres]
    exact htotals
  · rw [(htotal u).1, hnet u, (hbefore u).1, hlaw.net u, hsums]
    simp [toReceiver, eq_comm]
  · rw [(htotal u).2, hcpu u, (hbefore u).2, hlaw.cpu u, hsums]
    simp [toReceiver, eq_comm]
  · rw [hstaked u, hlaw.staked u, hsums]
    by_cases hu : u = if transfer then receiver else source
    · simp [ofOwner, hu]
    · have hu' : ¬ (if transfer then receiver else source) = u := fun heq => hu heq.symm
      simp only [ofOwner, hu, hu', if_false]
      omega
  · have hrefunds : refundsTotal s2 = refundsTotal a.staking := by
      unfold refundsTotal
      rw [hframe2, hframe1]
    have hall := hsums 1 1
    simp only [Pi.one_apply, one_mul] at hall
    unfold heldIn
    omega

/-- The refund that is paid is taken out of what is held. -/
theorem refund_law (hlaw : StakeLaw s e) (h : refund c s owner = .ok (s', sent)) :
    StakeLaw s' e ∧ ∃ quantity, quantity.symbol = coreSymbol ∧
      sent = [⟨stakeAccount, .transfer stakeAccount owner quantity "unstake".toList⟩] ∧
      heldIn s' = heldIn s - quantity.value := by
  obtain ⟨_, req, quantity, hreq, hsum, rfl, hsent⟩ := refund_ok h
  have hheld := hlaw.refunds owner req hreq
  have hvalue := (Asset.add_ok hsum hheld.net.1).1
  have htotal := Table.total_erase_add (fun _ (r : RefundRequest) => r.value) hreq
  refine ⟨⟨hlaw.noProxies, hlaw.bands, hlaw.totals, held_erase hlaw.refunds, hlaw.net, hlaw.cpu,
    hlaw.staked⟩, quantity, (symbol_of_add hsum).trans hheld.net.2.2, hsent, ?_⟩
  have hreqv : req.value = req.netAmount.value + req.cpuAmount.value := rfl
  unfold heldIn bandSum refundsTotal
  dsimp only
  omega

end YottaChain.System

namespace YottaChain.Economy

open Checked YottaChain.System

variable {env : System.Env} {st st' : State} {m : Message} {t t' : Tables} {out : List Sent}
  {source : Name} {rest : Asset}

/-! ## 5. Transactions -/

def stakingAction : Action → Bool
  | .delegatebw .. | .undelegatebw .. | .refund _ | .deferredRefund _ | .newaccount ..
  | .buyram .. | .sellram .. => true
  | _ => false

/-- One of these actions, not issued by `eosio.stake`. -/
def StakingRequest (_ : State) (m : Message) : Prop :=
  stakeAccount ∉ m.auths ∧ ∃ a, m.request = .system a ∧ stakingAction a = true

theorem plain_stakeTransfer : ∀ x ∈ stakeTransfer source rest, Plain (.ofSent x) := by
  intro x hx
  unfold stakeTransfer at hx
  split at hx
  · rw [List.mem_singleton.mp hx]
    exact plain_of_memo _ _ _ _ (by decide)
  · cases hx

theorem due_stakeTransfer (hsource : source ≠ stakeAccount) (hsymbol : rest.symbol = coreSymbol)
    (hnonneg : 0 ≤ rest.value) :
    due stakeAccount ((stakeTransfer source rest).map .ofSent) = rest.value := by
  unfold stakeTransfer
  split_ifs with hnot
  · rw [List.map_singleton, due_cons, due_nil, add_zero]
    exact incoming_receiver _ _ hsymbol hsource.symm
  · have hle : ¬ 0 < rest.value := fun hlt => hnot (by
      rw [Int64.lt_iff_toInt_lt, Int64.toInt_zero]
      exact hlt)
    rw [List.map_nil, due_nil]
    omega

/-- What a staking action leaves: the law, and the tokens it has sent for. -/
structure Booked (t t' : Tables) (out : List Sent) : Prop where
  law : StakeLaw t'.staking t'.election
  held : (∀ x ∈ out, Executable (.ofSent x)) →
    heldIn t'.staking = heldIn t.staking + due stakeAccount (out.map .ofSent)
  plain : ∀ x ∈ out, Plain (.ofSent x)

variable {c : Ctx}

theorem booked_changebw {a : Stakes} {net cpu : Asset} {receiver : Name} {transfer : Bool}
    {deposit : HddDeposit.Tables} (hlaw : StakeLaw t.staking t.election)
    (hchange : StakeChange net cpu) (hauth : c.hasAuth stakeAccount = false)
    (hcall : changebw c deposit t.stakes source receiver net cpu transfer = .ok (a, out))
    (ht' : t' = { t with staking := a.staking, election := a.election }) : Booked t t' out := by
  have hsource : source ≠ stakeAccount := by
    rintro rfl
    rw [(changebw_ok hcall).1] at hauth
    cases hauth
  obtain ⟨hlaw', rest, rfl, hsymbol, hnonneg, hheld⟩ :=
    changebw_law (a := t.stakes) hlaw hchange hsource hcall
  subst ht'
  refine ⟨hlaw', fun _ => ?_, plain_stakeTransfer⟩
  rw [due_stakeTransfer hsource hsymbol hnonneg]
  exact hheld

theorem booked_refund {s : Staking} {owner : Name} {deferred : Table Name UInt32}
    (hlaw : StakeLaw t.staking t.election) (hcall : refund c t.staking owner = .ok (s, out))
    (ht' : t' = { t with staking := { s with deferred := deferred } }) : Booked t t' out := by
  obtain ⟨hlaw', quantity, hsymbol, rfl, hheld⟩ := refund_law hlaw hcall
  subst ht'
  refine ⟨?_, fun hexecutable => ?_, fun x hx => ?_⟩
  · exact ⟨hlaw'.noProxies, hlaw'.bands, hlaw'.totals, hlaw'.refunds, hlaw'.net, hlaw'.cpu,
      hlaw'.staked⟩
  · have hne : stakeAccount ≠ owner := (hexecutable _ List.mem_cons_self).1
    rw [List.map_singleton, due_cons, due_nil, add_zero, incoming_sender _ _ hsymbol hne]
    exact hheld
  · rw [List.mem_singleton.mp hx]
    exact plain_of_memo _ _ _ _ (by decide)

theorem booked_aside (hlaw : StakeLaw t.staking t.election) (hsame : SameStaking t.staking t'.staking)
    (helection : t'.election = t.election)
    (hout : ∀ x ∈ out, ∃ actor sender receiver quantity memo,
      x = ⟨actor, .transfer sender receiver quantity memo⟩ ∧ stakeAccount ≠ sender ∧
        stakeAccount ≠ receiver ∧ memo ∈ systemMemos) : Booked t t' out := by
  refine ⟨?_, fun _ => ?_, fun x hx => ?_⟩
  · rw [helection]
    exact hlaw.of_same hsame
  · rw [heldIn_of_same hsame, due_eq_zero, add_zero]
    intro y hy
    obtain ⟨x, hx, rfl⟩ := List.mem_map.mp hy
    obtain ⟨actor, sender, receiver, quantity, memo, rfl, hsender, hreceiver, _⟩ := hout x hx
    exact incoming_other _ _ _ hsender hreceiver
  · obtain ⟨actor, sender, receiver, quantity, memo, rfl, _, _, hmemo⟩ := hout x hx
    exact plain_of_memo _ _ _ _ hmemo

theorem ne_of_hasAuth {u : Name} (hauth : c.hasAuth stakeAccount = false) (hu : c.hasAuth u = true)
    :
    stakeAccount ≠ u := by
  rintro rfl
  rw [hauth] at hu
  cases hu

theorem dispatch_booked {a : Action} (ha : stakingAction a = true)
    (hauth : env.ctx.hasAuth stakeAccount = false) (hlaw : StakeLaw t.staking t.election)
    (hcall : dispatch env t a = .ok (t', out)) : Booked t t' out := by
  cases a with
  | delegatebw =>
    obtain ⟨hbw, ht'⟩ := withStakes_ok hcall
    obtain ⟨hchange, _, _, hchangebw⟩ := delegatebw_ok hbw
    exact booked_changebw hlaw hchange hauth hchangebw ht'
  | undelegatebw =>
    obtain ⟨hbw, ht'⟩ := withStakes_ok hcall
    obtain ⟨hchange, _, hchangebw⟩ := undelegatebw_ok hbw
    exact booked_changebw hlaw hchange hauth hchangebw ht'
  | refund =>
    obtain ⟨hrefund, ht'⟩ := withStaking_ok hcall
    exact booked_refund hlaw hrefund ht'
  | deferredRefund =>
    obtain ⟨hrefund, ht'⟩ := withStaking_ok hcall
    obtain ⟨s, hrefund, hs⟩ := deferredRefund_ok hrefund
    rw [hs] at ht'
    exact booked_refund hlaw hrefund ht'
  | newaccount =>
    have hsame := dispatch_sameStaking rfl hcall
    simp only [dispatch, newaccount, ok_iff] at hcall
    obtain ⟨_, _, _, _, rfl, rfl⟩ := hcall
    refine booked_aside hlaw hsame rfl fun x hx => ?_
    cases hx
  | buyram =>
    have hsame := dispatch_sameStaking rfl hcall
    obtain ⟨hbuy, ht'⟩ := withMemory_ok hcall
    obtain ⟨hpayer, _, _, _, _, _, _, _, _, rfl⟩ := buyram_ok hbuy
    have helection : t'.election = t.election := by
      rw [ht']
    have hne := ne_of_hasAuth hauth hpayer
    refine booked_aside hlaw hsame helection fun x hx => ?_
    rcases mem_buyTransfers hx with rfl | rfl
    · exact ⟨_, _, _, _, _, rfl, hne, by decide, by decide⟩
    · exact ⟨_, _, _, _, _, rfl, hne, by decide, by decide⟩
  | sellram =>
    have hsame := dispatch_sameStaking rfl hcall
    obtain ⟨hsell, ht'⟩ := withMemory_ok hcall
    obtain ⟨haccount, _, _, _, _, _, _, _, _, _, _, _, _, _, _, _, _, _, rfl⟩ := sellram_ok hsell
    have helection : t'.election = t.election := by
      rw [ht']
    have hne := ne_of_hasAuth hauth haccount
    refine booked_aside hlaw hsame helection fun x hx => ?_
    rcases mem_sellTransfers hx with rfl | rfl
    · exact ⟨_, _, _, _, _, rfl, by decide, hne, by decide⟩
    · exact ⟨_, _, _, _, _, rfl, hne, by decide, by decide⟩
  | _ => cases ha

/-- The law holds and `eosio.stake` has, besides what it had, what it owes. -/
structure StakesBacked (before : ℤ) (st : State) : Prop where
  inRange : Token.InRange st.ledger.token
  law : StakeLaw st.system.staking st.system.election
  backed : Token.balanceOf st.ledger.token stakeAccount = before + heldIn st.system.staking

theorem StakesBacked.step {before : ℤ} (h : StakesBacked before st)
    (hstep : TxStep StakingRequest st st') : StakesBacked before st' := by
  obtain ⟨env, depth, m, ⟨hauths, a, hrequest, ha⟩, hrun⟩ := hstep
  have hauth : (acting env st m.auths).ctx.hasAuth stakeAccount = false := by
    simpa [acting] using hauths
  have hbooked : ∀ t out, System.apply (acting env st m.auths) st.system a = .ok (t, out) →
      Booked st.system t out := by
    intro t out hcall
    simp only [System.apply, bind_eq_ok] at hcall
    obtain ⟨ram, _, hcall⟩ := hcall
    have hdone := dispatch_booked (t := { st.system with ram := ram }) ha hauth h.law hcall
    exact ⟨hdone.law, hdone.held, hdone.plain⟩
  obtain ⟨out, hcall, hexecutable, hrange, hbalance⟩ :=
    exec_system hrequest h.inRange (fun t out hcall => (hbooked t out hcall).plain) hrun
  have hdone := hbooked st'.system out hcall
  refine ⟨hrange, hdone.law, ?_⟩
  have hheld := hdone.held hexecutable
  have hbacked := h.backed
  rw [hbalance stakeAccount]
  omega

/-- **Double entry of stakes.**  Whatever transactions have left in the ledger, when the
    system contract starts with empty tables and executes the actions about stakes, none of
    them issued by `eosio.stake`: the totals of every receiver and the stake of every owner
    are the sums of the delegations, no amount is negative, and `eosio.stake` has received
    what is delegated or about to be refunded. -/
theorem stakes_double_entry {fp : Doubles} {w : Ledger.World}
    (hledger : Run.Steps (Ledger.TxStep fp fun _ _ _ => True) .empty w)
    (hrun : Run.Steps (TxStep StakingRequest) ⟨w, {}⟩ st) :
    (∀ u, netTotal st.system.staking u =
      st.system.staking.delband.total fun k d => if k.2 = u then d.netWeight.value else 0) ∧
    (∀ u, cpuTotal st.system.staking u =
      st.system.staking.delband.total fun k d => if k.2 = u then d.cpuWeight.value else 0) ∧
    (∀ u, stakedOf st.system.election u = st.system.staking.delband.total fun k d =>
      if k.1 = u then d.netWeight.value + d.cpuWeight.value else 0) ∧
    (∀ k d, st.system.staking.delband.find k = some d →
      0 ≤ d.netWeight.value ∧ 0 ≤ d.cpuWeight.value) ∧
    (∀ u r, st.system.staking.refunds.find u = some r →
      0 ≤ r.netAmount.value ∧ 0 ≤ r.cpuAmount.value) ∧
    Token.balanceOf st.ledger.token stakeAccount - Token.balanceOf w.token stakeAccount =
      st.system.staking.delband.total (fun _ d => d.netWeight.value + d.cpuWeight.value) +
        st.system.staking.refunds.total fun _ r => r.netAmount.value + r.cpuAmount.value := by
  have hstart : StakesBacked (Token.balanceOf w.token stakeAccount) ⟨w, {}⟩ :=
    ⟨Ledger.inRange_run hledger, stakeLaw_empty, (add_zero _).symm⟩
  have hend : StakesBacked (Token.balanceOf w.token stakeAccount) st :=
    Run.invariant (P := StakesBacked (Token.balanceOf w.token stakeAccount))
      (fun _ _ h hstep => h.step hstep) hstart hrun
  have hlaw := hend.law
  refine ⟨fun u => ?_, fun u => ?_, fun u => ?_, fun k d hd => ?_, fun u r hr => ?_, ?_⟩
  · rw [hlaw.net, bandSum_toReceiver_net]
  · rw [hlaw.cpu, bandSum_toReceiver_cpu]
  · rw [hlaw.staked, bandSum_ofOwner]
  · exact ⟨(hlaw.bands k d hd).net.2.1, (hlaw.bands k d hd).cpu.2.1⟩
  · exact ⟨(hlaw.refunds u r hr).net.2.1, (hlaw.refunds u r hr).cpu.2.1⟩
  · have hbacked := hend.backed
    have hall := bandSum_all st.system.staking
    have hrefunds : refundsTotal st.system.staking =
        st.system.staking.refunds.total fun _ r => r.netAmount.value + r.cpuAmount.value := rfl
    unfold heldIn at hbacked
    omega

def stakingSample : List Message :=
  [⟨[N "alice"], .system (.delegatebw (N "alice") (N "bob") (.core 30) (.core 40) false)⟩,
    ⟨[N "alice"], .system (.undelegatebw (N "alice") (N "bob") (.core 10) (.core 15))⟩,
    ⟨[N "alice"], .system (.delegatebw (N "alice") (N "alice") (.core 12) (.core 5) false)⟩]

theorem stakes_double_entry_sample : ∃ (w : Ledger.World) (st : State),
    netTotal st.system.staking (N "bob") = 20 ∧ stakedOf st.system.election (N "alice") = 62 ∧
    Token.balanceOf st.ledger.token stakeAccount - Token.balanceOf w.token stakeAccount = 72 ∧
    Token.balanceOf st.ledger.token stakeAccount - Token.balanceOf w.token stakeAccount =
      st.system.staking.delband.total (fun _ d => d.netWeight.value + d.cpuWeight.value) +
        st.system.staking.refunds.total fun _ r => r.netAmount.value + r.cpuAmount.value := by
  have hrun : (do
      let w ← Ledger.execs .whole .plain 4 .empty
        [⟨[Token.self], .create (N "issuer") (.core 1000000000)⟩,
          ⟨[N "issuer"], .issue (N "alice") (.core 800000) []⟩]
      let st ← execs (.plain 5 0) 4 ⟨w, {}⟩ stakingSample
      pure (netTotal st.system.staking (N "bob"), stakedOf st.system.election (N "alice"),
        Token.balanceOf st.ledger.token stakeAccount - Token.balanceOf w.token stakeAccount)) =
      (.ok (20, 62, 72) : Checked (ℤ × ℤ × ℤ)) := by
    decide +kernel
  simp only [ok_iff] at hrun
  obtain ⟨w, hw, st, hst, hbob, halice, hbalance⟩ := hrun
  have hledger : Run.Steps (Ledger.TxStep .whole fun _ _ _ => True) .empty w :=
    Ledger.execs_steps (fun _ _ _ => trivial) hw
  have hsteps : Run.Steps (TxStep StakingRequest) ⟨w, {}⟩ st := by
    refine execs_steps ?_ hst
    have hne : stakeAccount ≠ N "alice" := by decide
    simp [stakingSample, StakingRequest, stakingAction, hne]
  exact ⟨w, st, hbob, halice, hbalance, (stakes_double_entry hledger hsteps).2.2.2.2.2⟩

end YottaChain.Economy
