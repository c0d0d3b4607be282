/-
  **A change of an owner's profit rate settles the time before it.**

  `chg_owner_space` is the only code that changes a rate.  Its flag `is_calc`
  asks for the settlement, and `delminer` is the one caller that leaves it out:
  the time since the last settlement is then paid at the new rate.  Everywhere
  else the profit so far is computed at the old rate, nine tenths of it stay with
  the owner and the rest goes to the eco fund.

  The split is stated on the integers.  For that the balances have to lie in the
  window of the range check and the rates must not be negative, which every run
  keeps (`Sound`).  Of the floating-point expressions `FairSplit` is used.
-/
import YottaChain.MinerRegistry

namespace YottaChain.HddPool

open Checked FixedWidth Table Int64

/-! ## 1. Changes of a rate -/

/-- The share of the eco fund in a settlement of `u` at the time `now`. -/
def ecoShare (fp : Doubles) (now : UInt64) (t : Table Name UserHdd) (u : Name) : Int :=
  if u = ecologyfoundAcc then 0
  else
    match t.find u with
    | none => 0
    | some row => (accruedBalance fp row now).toInt - (keptBalance fp row now).toInt

def minerBalance (t : Table Name UserHdd) (u : Name) : Int :=
  match t.find u with
  | none => 0
  | some row => row.hddMinerhdd.toInt

/-- The account of `o` is settled and may get a new rate. -/
inductive Rerates (fp : Doubles) (now : UInt64) (o : Name) (t t' : Table Name UserHdd) : Prop
  | exempt (ho : o = ecologyfoundAcc) (ht : t' = t)
  | settled (ho : o ≠ ecologyfoundAcc) (row row' : UserHdd) (hrow : t.find o = some row)
      (hwin : InWindow (accruedBalance fp row now))
      (hkept : row'.hddMinerhdd = keptBalance fp row now)
      (hlast : row'.lastHddprofitTime = now) (hrate : 0 ≤ row'.hddPerCycleProfit)
      (hcredit : creditEco (t.put o row')
        (accruedBalance fp row now - keptBalance fp row now) = .ok t')

section Rerates

variable {fp : Doubles} {now : UInt64} {o : Name} {t t' : Table Name UserHdd}

theorem chgOwnerSpace_rerates (hfp : FairSplit fp) {delta dl : UInt64} {inc : Bool}
    (hdl : profitDeadline dl = profitDeadline 0)
    (h : chgOwnerSpace fp t o delta inc true now dl = .ok t') : Rerates fp now o t t' := by
  unfold chgOwnerSpace at h
  split_ifs at h with ho
  · cases h
    exact .exempt ho rfl
  · simp only [settleOwner, if_true, ok_iff] at h
    obtain ⟨row, hrow, _, ⟨⟨kept, share⟩, hsettle, rfl⟩, _, hcredit⟩ := h
    obtain ⟨hwin, hkept, hshare⟩ := settle_ok hdl hsettle
    dsimp only at hkept hshare hcredit
    rw [hshare] at hcredit
    exact .settled ho row _ hrow hwin hkept rfl (hfp.rate _) hcredit

theorem Rerates.sound (hfp : FairSplit fp) (hs : Sound t) (h : Rerates fp now o t t') :
    Sound t' := by
  cases h with
  | exempt _ ht =>
    rw [ht]
    exact hs
  | settled _ row _ hrow hwin hkept _ hrate hcredit =>
    have hsplit := keptBalance_split hfp (hs o row hrow) hwin
    apply (creditEco_rows fp hcredit).1.sound hfp
    exact hs.put o ⟨hkept ▸ hsplit.1, hrate⟩

theorem Rerates.other (h : Rerates fp now o t t') {u : Name} (hu : u ≠ o)
    (heco : u ≠ ecologyfoundAcc) : t'.find u = t.find u := by
  cases h with
  | exempt _ ht => rw [ht]
  | settled _ _ _ _ _ _ _ _ hcredit =>
    rw [(creditEco_rows fp hcredit).2.1 u heco]
    exact find_put_ne _ _ hu

/-- What the owner gets and the share of the eco fund are the profit up to `now`. -/
theorem Rerates.paid (h : Rerates fp now o t t') (ho : o ≠ ecologyfoundAcc) {row : UserHdd}
    (hrow : t.find o = some row) :
    ∃ row', t'.find o = some row' ∧ row'.lastHddprofitTime = now ∧
      (row'.hddMinerhdd.toInt - row.hddMinerhdd.toInt) + ecoShare fp now t o =
        (accruedBalance fp row now).toInt - row.hddMinerhdd.toInt := by
  cases h with
  | exempt heq => exact absurd heq ho
  | settled _ row0 row' hrow0 _ hkept hlast _ hcredit =>
    obtain rfl : row0 = row := Option.some.inj (hrow0.symm.trans hrow)
    refine ⟨row', ?_, hlast, ?_⟩
    · rw [(creditEco_rows fp hcredit).2.1 o ho]
      exact find_put_self _ _ _
    · simp only [ecoShare, if_neg ho, hrow, hkept]
      omega

/-- The eco fund gets its share, and what it has is the sum on the integers. -/
theorem Rerates.eco (hfp : FairSplit fp) (hs : Sound t) (h : Rerates fp now o t t') :
    minerBalance t' ecologyfoundAcc = minerBalance t ecologyfoundAcc + ecoShare fp now t o := by
  cases h with
  | exempt ho ht => rw [ht, ecoShare, if_pos ho, Int.add_zero]
  | settled ho row row' hrow hwin _ _ _ hcredit =>
    obtain ⟨_, hsub, hle⟩ := keptBalance_split hfp (hs o row hrow) hwin
    have hshare : ecoShare fp now t o =
        (accruedBalance fp row now - keptBalance fp row now).toInt := by
      simp only [ecoShare, if_neg ho, hrow, hsub]
    have hsame : (t.put o row').find ecologyfoundAcc = t.find ecologyfoundAcc :=
      find_put_ne _ _ (Ne.symm ho)
    rw [hshare]
    rcases (creditEco_rows fp hcredit).2.2 with ⟨hzero, ht⟩ | ⟨_, eco, heco, hrange, ht⟩
    · rw [lt_iff_toInt_lt, toInt_zero] at hzero
      rw [ht, minerBalance, minerBalance, hsame]
      omega
    · rw [ht, minerBalance, find_put_self, minerBalance, ← hsame, heco]
      rw [hsame] at heco
      exact checked_add (hs _ eco heco).window hrange

end Rerates

/-! ## 2. What a call does to the accounts -/

def Action.settledOwners (s : Tables) : Action → List Name
  | .addmprofit m _ _ | .submprofit m _ _ | .mdeactive m _ | .mactive m _ =>
      ((s.minerinfo.find m).map MinerInfo.owner).toList
  | .mchgowneracc m n => ((s.minerinfo.find m).map MinerInfo.owner).toList ++ [n]
  | _ => []

def Action.IsDelminer : Action → Prop
  | .delminer _ _ _ => True
  | _ => False

inductive OnAccounts (fp : Doubles) (now : UInt64) (s : Tables) : Action → Table Name UserHdd → Prop
  | plain {a t} (h : Plain fp s.userhdd t) : OnAccounts fp now s a t
  | settles {a t} (o : Name) (howners : a.settledOwners s = [o]) (hdel : ¬ a.IsDelminer)
      (h : Rerates fp now o s.userhdd t) : OnAccounts fp now s a t
  | deletes {m accType caller} (o : Name) (row row' : UserHdd)
      (hrow : s.userhdd.find o = some row) (hsame : row'.hddMinerhdd = row.hddMinerhdd)
      (hlast : row'.lastHddprofitTime = row.lastHddprofitTime)
      (hrate : 0 ≤ row'.hddPerCycleProfit) :
      OnAccounts fp now s (.delminer m accType caller) (s.userhdd.put o row')
  | changes {m n} (o : Name) (howners : (Action.mchgowneracc m n).settledOwners s = [o, n])
      (hne : n ≠ o) (t₁ t₂ t₃ : Table Name UserHdd) (hleave : Rerates fp now o s.userhdd t₁)
      (hopen : OpensAccount now n t₁ t₂) (henter : Rerates fp now n t₂ t₃) :
      OnAccounts fp now s (.mchgowneracc m n) t₃

section Calls

variable {fp : Doubles} {c : Ctx} {v : Views} {s s' : Tables} {sent : List Sent} {a : Action}
  {owner : Name}

theorem OnAccounts.same (h : s'.userhdd = s.userhdd) :
    OnAccounts fp c.currentTime s a s'.userhdd := by
  rw [h]
  exact .plain (.refl _ _)

variable {m : UInt64}

theorem settledOwners_of_info {info : MinerInfo} (hinfo : s.minerinfo.find m = some info) :
    ((s.minerinfo.find m).map MinerInfo.owner).toList = [info.owner] := by
  rw [hinfo]
  rfl

variable {caller : Name} {space : UInt64}

section

variable (hfp : FairSplit fp)

include hfp

theorem addmprofit_accounts (h : addmprofit fp c s m space caller = .ok (s', sent)) :
    OnAccounts fp c.currentTime s (.addmprofit m space caller) s'.userhdd := by
  simp only [addmprofit, ok_iff] at h
  obtain ⟨_, _, _, ⟨info, acc⟩, hrows, _, _, _, _, _, users, husers, rfl, rfl⟩ := h
  exact .settles info.owner (settledOwners_of_info (minerRows_ok hrows).1) id
    (chgOwnerSpace_rerates hfp (by decide) husers)

theorem submprofit_accounts (h : submprofit fp c s m space caller = .ok (s', sent)) :
    OnAccounts fp c.currentTime s (.submprofit m space caller) s'.userhdd := by
  simp only [submprofit, ok_iff] at h
  obtain ⟨_, _, _, ⟨info, acc⟩, hrows, _, _, _, _, users, husers, rfl, rfl⟩ := h
  unfold chgOwnerSpaceIf at husers
  split at husers
  · -- the flag of the settlement is the condition itself
    rename_i hactive
    rw [hactive] at husers
    exact .settles info.owner (settledOwners_of_info (minerRows_ok hrows).1) id
      (chgOwnerSpace_rerates hfp (by decide) husers)
  · cases husers
    exact .same rfl

theorem mdeactive_accounts (h : mdeactive fp c s m caller = .ok (s', sent)) :
    OnAccounts fp c.currentTime s (.mdeactive m caller) s'.userhdd := by
  simp only [mdeactive, ok_iff] at h
  obtain ⟨_, _, ⟨info, acc⟩, hrows, _, _, _, users, husers, rfl, rfl⟩ := h
  exact .settles info.owner (settledOwners_of_info (minerRows_ok hrows).1) id
    (chgOwnerSpace_rerates hfp (by decide) husers)

theorem mactive_accounts (h : mactive fp c s m caller = .ok (s', sent)) :
    OnAccounts fp c.currentTime s (.mactive m caller) s'.userhdd := by
  simp only [mactive, ok_iff] at h
  obtain ⟨_, _, ⟨info, acc⟩, hrows, _, users, husers, rfl, rfl⟩ := h
  exact .settles info.owner (settledOwners_of_info (minerRows_ok hrows).1) id
    (chgOwnerSpace_rerates hfp rfl husers)

theorem unbindOwner_accounts {accType : UInt8} (h : unbindOwner fp c s m owner = .ok s') :
    OnAccounts fp c.currentTime s (.delminer m accType caller) s'.userhdd := by
  unfold unbindOwner at h
  split at h
  · cases h
    exact .same rfl
  · split at h
    · cases h
      exact .same rfl
    · simp only [ok_iff] at h
      obtain ⟨users, husers, rfl⟩ := h
      unfold chgOwnerSpaceIf at husers
      split at husers
      · unfold chgOwnerSpace at husers
        split at husers
        · cases husers
          exact .same rfl
        · simp only [settleOwner, Bool.false_eq_true, if_false, ok_iff, ok_eq_ok] at husers
          obtain ⟨row, hrow, _, rfl, _, hcredit⟩ := husers
          -- without a settlement there is nothing for the eco fund
          cases hcredit
          exact .deletes owner row _ hrow rfl rfl (hfp.rate _)
      · cases husers
        exact .same rfl

theorem mchgowneracc_accounts {n : Name} (h : mchgowneracc fp c s m n = .ok (s', sent)) :
    OnAccounts fp c.currentTime s (.mchgowneracc m n) s'.userhdd := by
  simp only [mchgowneracc, ok_iff, decide_eq_true_eq] at h
  obtain ⟨info, hinfo, _, _, _, _, acc, hacc, t₁, hleave, s1, hopen, t₃, henter, hfree,
    _, ⟨_, rfl⟩, rfl, rfl⟩ := h
  obtain ⟨t₂, total, rfl, hopens⟩ := openOwner_ok hopen
  have hne : n ≠ info.owner := by
    rintro rfl
    exact absurd (hacc.symm.trans hfree) (by simp)
  have howners : (Action.mchgowneracc m n).settledOwners s = [info.owner, n] := by
    rw [Action.settledOwners, hinfo]
    rfl
  by_cases hearns : 0 < acc.hddPerCycleProfit
  · rw [chgOwnerSpaceIf, if_pos hearns] at hleave henter
    exact .changes info.owner howners hne t₁ t₂ t₃ (chgOwnerSpace_rerates hfp rfl hleave) hopens
      (chgOwnerSpace_rerates hfp rfl henter)
  · rw [chgOwnerSpaceIf, if_neg hearns] at hleave henter
    cases hleave
    cases henter
    exact .plain hopens.plain

/-- **What a call does to the accounts**: only the actions on a miner's space settle an owner, and
    only `delminer` changes a rate without it. -/
theorem apply_accounts (h : apply fp c v s a = .ok (s', sent)) :
    OnAccounts fp c.currentTime s a s'.userhdd := by
  cases a with
  | addmprofit => exact addmprofit_accounts hfp h
  | submprofit => exact submprofit_accounts hfp h
  | mdeactive => exact mdeactive_accounts hfp h
  | mactive => exact mactive_accounts hfp h
  | delminer minerid accType caller =>
    simp only [apply, delminer, ok_iff, returnPoolSpace_eq] at h
    obtain ⟨info, _, _, _, s1, hunbind, s2, hdrop, rfl, rfl⟩ := h
    obtain ⟨slots, rfl, _⟩ := dropMiner_ok hdrop
    have haccounts : OnAccounts fp c.currentTime s (.delminer minerid accType caller)
        s1.userhdd := unbindOwner_accounts hfp hunbind
    exact haccounts
  | regminer =>
    simp only [apply, regminer, ok_iff] at h
    obtain ⟨_, _, _, _, _, pool, _, _, _, _, _, _, _, s1, hbind, s2, hopen,
      _, ⟨_, rfl⟩, _, ⟨s3, id⟩, hins, _, ⟨_, rfl⟩, _, _, rfl, rfl⟩ := h
    obtain ⟨_, macc, rfl⟩ := bindOwner_ok hbind
    obtain ⟨users, total, rfl, hopens⟩ := openOwner_ok hopen
    obtain ⟨slots, k, rfl, rfl, _⟩ := insertMiner2_ok hins
    exact .plain hopens.plain
  | mchgowneracc => exact mchgowneracc_accounts hfp h
  | _ => exact .plain ((apply_effect h).plain rfl)

end

end Calls

/-! ## 3. Settlements over a run -/

section Settlement

variable {fp : Doubles} {now : UInt64} {n : Name} {t t' : Table Name UserHdd} {u : Name}

theorem OpensAccount.other (h : OpensAccount now n t t') (hu : u ≠ n) : t'.find u = t.find u := by
  cases h with
  | known => rfl
  | opened => exact find_put_ne _ _ hu

theorem OpensAccount.balance (h : OpensAccount now n t t') (u : Name) :
    minerBalance t' u = minerBalance t u := by
  by_cases hu : u = n
  · subst hu
    cases h with
    | known => rfl
    | opened hnone =>
      rw [minerBalance, find_put_self, minerBalance, hnone]
      rfl
  · rw [minerBalance, h.other hu, minerBalance]

theorem ecoShare_new (hfp : FairSplit fp) (t : Table Name UserHdd) (n : Name) :
    ecoShare fp now (t.put n (newUserHddRow now 0)) n = 0 := by
  have haccrued : accruedBalance fp (newUserHddRow now 0) now = 0 := by
    unfold accruedBalance calculateProfitBalance
    refine if_pos ?_
    show (if profitDeadline 0 < now then profitDeadline 0 else now) ≤ now
    split_ifs with hlt
    · exact UInt64.le_of_lt hlt
    · exact UInt64.le_refl now
  have hkept : keptBalance fp (newUserHddRow now 0) now = 0 := by
    obtain ⟨hlo, hhi⟩ := hfp.part 0 (by decide)
    unfold keptBalance
    rw [haccrued]
    show fp.tenths 9 (0 - 0) + 0 = 0
    rw [Int64.sub_self, Int64.le_antisymm hhi hlo]
    rfl
  unfold ecoShare
  split
  · rfl
  · rw [find_put_self]
    show (accruedBalance fp (newUserHddRow now 0) now).toInt -
      (keptBalance fp (newUserHddRow now 0) now).toInt = 0
    rw [haccrued, hkept]
    rfl

theorem ecoShare_congr (h : t'.find u = t.find u) : ecoShare fp now t' u = ecoShare fp now t u := by
  unfold ecoShare
  rw [h]

/-- An account that is opened for its settlement has no profit to share. -/
theorem OpensAccount.share (hfp : FairSplit fp) {t₁ t₂ : Table Name UserHdd}
    (hsame : n ≠ ecologyfoundAcc → t₁.find n = t.find n) (h : OpensAccount now n t₁ t₂) :
    ecoShare fp now t₂ n = ecoShare fp now t n := by
  by_cases heco : n = ecologyfoundAcc
  · rw [ecoShare, if_pos heco, ecoShare, if_pos heco]
  · cases h with
    | known => exact ecoShare_congr (hsame heco)
    | opened hnone =>
      rw [hsame heco] at hnone
      rw [ecoShare_new hfp, ecoShare, if_neg heco, hnone]

variable {s : Tables} {a : Action}

theorem OnAccounts.sound (hfp : FairSplit fp) (hs : Sound s.userhdd) (h : OnAccounts fp now s a t) :
    Sound t := by
  cases h with
  | plain h => exact h.sound hfp hs
  | settles _ _ _ h => exact h.sound hfp hs
  | deletes o row _ hrow hsame _ hrate =>
    exact hs.put o ⟨hsame ▸ (hs o row hrow).window, hrate⟩
  | changes _ _ _ _ _ _ hleave hopen henter =>
    exact henter.sound hfp (hopen.plain.sound hfp (hleave.sound hfp hs))

theorem Sound.run (hfp : FairSplit fp) {s0 : Tables} (hs : Sound s0.userhdd)
    (hrun : Run.Steps (AnyStep fp) s0 s) : Sound s.userhdd := by
  refine Run.invariant (P := fun t => Sound t.userhdd) ?_ hs hrun
  rintro t t' ht ⟨a, _, c, v, sent, hcall⟩
  exact (apply_accounts hfp hcall).sound hfp ht

/-- The profit of `o` up to `now`, at the rate of its row before the call, has been
    paid out: the time of the settlement is recorded, what the owner got and the
    share of the eco fund add up to the computed profit, and the eco fund got the
    shares of the owners and nothing else. -/
structure Settled (fp : Doubles) (now : UInt64) (owners : List Name) (o : Name) (row : UserHdd)
    (t t' : Table Name UserHdd) : Prop where
  paid : ∃ row', t'.find o = some row' ∧ row'.lastHddprofitTime = now ∧
    (row'.hddMinerhdd.toInt - row.hddMinerhdd.toInt) + ecoShare fp now t o =
      (accruedBalance fp row now).toInt - row.hddMinerhdd.toInt
  mem : o ∈ owners
  eco : minerBalance t' ecologyfoundAcc =
    minerBalance t ecologyfoundAcc + (owners.map (ecoShare fp now t)).sum

variable {o : Name} {row row' : UserHdd}

/-- A call whose account has another rate afterwards has settled it: no plain change does that,
    and of the owners that are settled it has to be one.  The owner that `mchgowneracc` enters may
    be opened by the call, but then it had no rate to change. -/
theorem OnAccounts.settled (hfp : FairSplit fp) (hs : Sound s.userhdd) (h : OnAccounts fp now s a t)
    (ho : o ≠ ecologyfoundAcc) (hrow : s.userhdd.find o = some row) (hrow' : t.find o = some row')
    (hne : row'.hddPerCycleProfit ≠ row.hddPerCycleProfit) (hdel : ¬ a.IsDelminer) :
    Settled fp now (a.settledOwners s) o row s.userhdd t := by
  have hchanged : t.find o ≠ s.userhdd.find o := by
    rw [hrow, hrow']
    intro heq
    cases heq
    exact hne rfl
  cases h with
  | plain h =>
    obtain ⟨r, hr, hrate⟩ := h.rate o row hrow
    rw [hrow'] at hr
    cases hr
    exact absurd hrate hne
  | settles p howners _ h =>
    have hp : o = p := by
      by_contra hp
      exact hchanged (h.other hp ho)
    subst hp
    refine ⟨h.paid ho hrow, ?_, ?_⟩
    · rw [howners]
      exact List.mem_singleton_self o
    · rw [howners, h.eco hfp hs]
      simp
  | deletes => exact absurd trivial hdel
  | @changes m n p howners hpn t₁ t₂ t₃ hleave hopen henter =>
    have hs1 := hleave.sound hfp hs
    have hs2 := hopen.plain.sound hfp hs1
    have hsame : n ≠ ecologyfoundAcc → t₁.find n = s.userhdd.find n := hleave.other hpn
    have heco : minerBalance t ecologyfoundAcc = minerBalance s.userhdd ecologyfoundAcc +
        ([p, n].map (ecoShare fp now s.userhdd)).sum := by
      rw [henter.eco hfp hs2, hopen.balance, hleave.eco hfp hs, hopen.share hfp hsame]
      simp [Int.add_assoc]
    by_cases hn : o = n
    · subst hn
      have hr2 : t₂.find o = some row := by
        cases hopen with
        | known => rw [hsame ho, hrow]
        | opened hnone =>
          rw [hsame ho, hrow] at hnone
          cases hnone
      have hpaid := henter.paid ho hr2
      rw [ecoShare_congr (hr2.trans hrow.symm)] at hpaid
      refine ⟨hpaid, ?_, howners ▸ heco⟩
      rw [howners]
      simp
    · have hlater : t.find o = t₁.find o := by
        rw [henter.other hn ho, hopen.other hn]
      have hp : o = p := by
        by_contra hp
        exact hchanged (hlater.trans (hleave.other hp ho))
      subst hp
      have hpaid := hleave.paid ho hrow
      rw [← hlater] at hpaid
      refine ⟨hpaid, ?_, howners ▸ heco⟩
      rw [howners]
      simp

/-- A deletion leaves the time of the last settlement as it was. -/
theorem OnAccounts.unsettled (h : OnAccounts fp now s a t) (hdel : a.IsDelminer)
    (hrow : s.userhdd.find o = some row) (hrow' : t.find o = some row')
    (hne : row'.hddPerCycleProfit ≠ row.hddPerCycleProfit) :
    row'.lastHddprofitTime = row.lastHddprofitTime := by
  cases h with
  | plain h =>
    obtain ⟨r, hr, hrate⟩ := h.rate o row hrow
    rw [hrow'] at hr
    cases hr
    exact absurd hrate hne
  | settles _ _ hdel' => exact absurd hdel hdel'
  | deletes _ _ _ hr0 _ hkeep =>
    rw [find_put] at hrow'
    split at hrow'
    · rename_i heq
      subst heq
      rw [hrow] at hr0
      cases hr0
      cases hrow'
      exact hkeep
    · rw [hrow] at hrow'
      cases hrow'
      rfl
  | changes => exact absurd hdel id

end Settlement

/-- In every run, a call that changes the profit rate of an owner settles the time
    since the last settlement at the old rate, if and only if it is not a deletion
    of a miner. -/
theorem rate_change_settles {fp : Doubles} (hfp : FairSplit fp) {s₀ s s' : Tables} {c : Ctx}
    {v : Views} {a : Action} {sent : List Sent} (husers : s₀.userhdd = ∅)
    (hrun : Run.Steps (AnyStep fp) s₀ s) (hcall : apply fp c v s a = .ok (s', sent))
    {o : Name} (ho : o ≠ ecologyfoundAcc) {row row' : UserHdd}
    (hrow : s.userhdd.find o = some row) (hrow' : s'.userhdd.find o = some row')
    (hne : row'.hddPerCycleProfit ≠ row.hddPerCycleProfit)
    (hlast : row.lastHddprofitTime < c.currentTime) :
    Settled fp c.currentTime (a.settledOwners s) o row s.userhdd s'.userhdd ↔ ¬ a.IsDelminer := by
  have hstart : Sound s₀.userhdd := by
    rw [husers]
    intro u r hr
    rw [find_empty] at hr
    cases hr
  have hs := hstart.run hfp hrun
  have haccounts := apply_accounts hfp hcall
  constructor
  · intro hsettled hdel
    obtain ⟨r, hr, htime, _⟩ := hsettled.paid
    rw [hrow'] at hr
    cases hr
    rw [← haccounts.unsettled hdel hrow hrow' hne, htime] at hlast
    exact UInt64.lt_irrefl _ hlast
  · intro hdel
    exact haccounts.settled hfp hs ho hrow hrow' hne hdel

/-- The expressions in whole-number arithmetic, with profits cut at the largest
    signed number. -/
def saturating : Doubles :=
  { Doubles.whole with
    tickProfit := fun slot profit =>
      Int64.ofNat (min (slot.toNat * profit.toInt.toNat / 86400000) (2 ^ 63 - 1)) }

theorem ofNat_min_nonneg (n : Nat) : 0 ≤ Int64.ofNat (min n (2 ^ 63 - 1)) := by
  rw [nonneg_iff, toInt_ofNat_of_lt (by omega)]
  exact Int.natCast_nonneg _

theorem fairSplit_saturating : FairSplit saturating where
  rate := fun space => ofNat_min_nonneg _
  accrued := fun slot profit _ => ofNat_min_nonneg _
  part := by
    intro x hx
    rw [nonneg_iff] at hx
    have hlt := toInt_lt x
    have htenths : (saturating.tenths 9 x).toInt = x.toInt * 9 / 10 := by
      show (Int64.ofInt ((x.toInt * (9 : Nat)).tdiv 10)).toInt = _
      rw [Int.tdiv_eq_ediv_of_nonneg (by omega), toInt_ofInt]
      exact bmod_eq_of_bounds (by omega) (by omega)
    rw [nonneg_iff, le_iff_toInt_le, htenths]
    omega

/-- An owner with one earning miner, at the time 5, and one more call a day later. -/
def accrualRun (last : Action) : Checked (Tables × Tables × List Sent) := do
  let s ← runActions saturating (.permissive 5) .empty .empty
    [.buyhdd 1 ecologyfoundAcc 200000000 [], .regstrpool 9 1,
      .regminer 7 2 3 9 4 6553600 ⟨1000000, coreSymbol⟩ false, .addmprofit 7 131072 5]
  let (s', sent) ← apply saturating (.permissive 86400000005) .empty s last
  pure (s, s', sent)

variable {s s' : Tables} {sent : List Sent}

theorem accrualRun_ok {last : Action} (h : accrualRun last = .ok (s, s', sent)) :
    Run.Steps (AnyStep saturating) Tables.empty s ∧
      apply saturating (.permissive 86400000005) .empty s last = .ok (s', sent) := by
  simp only [accrualRun, ok_iff] at h
  obtain ⟨t, hsetup, ⟨t', sent'⟩, hlast, rfl, rfl, rfl⟩ := h
  exact ⟨runActions_steps (fun _ _ => trivial) hsetup, hlast⟩

/-- What the two runs below read off: rate, time and balance of owner 4 before and
    after the last call. -/
def readOwner (r : Tables × Tables × List Sent) :
    Option (Int64 × UInt64 × Int64) × Option (Int64 × UInt64 × Int64) :=
  let read := fun row : UserHdd => (row.hddPerCycleProfit, row.lastHddprofitTime, row.hddMinerhdd)
  ((r.1.userhdd.find 4).map read, (r.2.1.userhdd.find 4).map read)

theorem readOwner_ok {x y : Int64 × UInt64 × Int64} (h : readOwner (s, s', sent) = (some x, some y))
    :
    ∃ row row', s.userhdd.find 4 = some row ∧ s'.userhdd.find 4 = some row' ∧
      (row.hddPerCycleProfit, row.lastHddprofitTime, row.hddMinerhdd) = x ∧
      (row'.hddPerCycleProfit, row'.lastHddprofitTime, row'.hddMinerhdd) = y := by
  obtain ⟨hbefore, hafter⟩ := Prod.mk.inj h
  obtain ⟨row, hrow, hx⟩ := Option.map_eq_some_iff.mp hbefore
  obtain ⟨row', hrow', hy⟩ := Option.map_eq_some_iff.mp hafter
  exact ⟨row, row', hrow, hrow', hx, hy⟩

theorem rate_change_settles_sample :
    FairSplit saturating ∧ ∃ s s' sent row row',
      Run.Steps (AnyStep saturating) Tables.empty s ∧
      apply saturating (.permissive 86400000005) .empty s (.addmprofit 7 65536 5) = .ok (s', sent) ∧
      s.userhdd.find 4 = some row ∧ s'.userhdd.find 4 = some row' ∧
      row'.hddPerCycleProfit ≠ row.hddPerCycleProfit ∧
      Settled saturating 86400000005 ((Action.addmprofit 7 65536 5).settledOwners s) 4 row
        s.userhdd s'.userhdd := by
  obtain ⟨⟨s, s', sent⟩, hok, hread⟩ := exists_of_map_eq_ok
    (x := accrualRun (.addmprofit 7 65536 5)) (f := readOwner)
    (b := (some (547945, 5, 0), some (821917, 86400000005, 493150))) (by decide +kernel)
  obtain ⟨hrun, hcall⟩ := accrualRun_ok hok
  obtain ⟨row, row', hrow, hrow', hx, hy⟩ := readOwner_ok hread
  have hne : row'.hddPerCycleProfit ≠ row.hddPerCycleProfit := by
    rw [(Prod.mk.inj hx).1, (Prod.mk.inj hy).1]
    decide
  have hlast : row.lastHddprofitTime < (Ctx.permissive 86400000005).currentTime := by
    rw [(Prod.mk.inj (Prod.mk.inj hx).2).1]
    decide
  refine ⟨fairSplit_saturating, s, s', sent, row, row', hrun, hcall, hrow, hrow', hne, ?_⟩
  exact (rate_change_settles fairSplit_saturating rfl hrun hcall (by decide) hrow hrow' hne
    hlast).mpr id

/-- Deleting the miner a day later ends the rate of its owner and pays nothing for
    that day, which lies before the stop time. -/
theorem deletion_drops_profit :
    ∃ s s' sent row row', Run.Steps (AnyStep saturating) Tables.empty s ∧
      apply saturating (.permissive 86400000005) .empty s (.delminer 7 0 5) = .ok (s', sent) ∧
      s.userhdd.find 4 = some row ∧ s'.userhdd.find 4 = some row' ∧
      row'.hddPerCycleProfit ≠ row.hddPerCycleProfit ∧
      row.lastHddprofitTime < 86400000005 ∧ (86400000005 : UInt64) < getNewmodelStartTime ∧
      accruedBalance saturating row 86400000005 = 547945 ∧ row'.hddMinerhdd = 0 ∧
      row'.lastHddprofitTime = row.lastHddprofitTime := by
  obtain ⟨⟨s, s', sent⟩, hok, hread⟩ := exists_of_map_eq_ok
    (x := accrualRun (.delminer 7 0 5)) (f := readOwner)
    (b := (some (547945, 5, 0), some (0, 5, 0))) (by decide +kernel)
  obtain ⟨hrun, hcall⟩ := accrualRun_ok hok
  obtain ⟨row, row', hrow, hrow', hx, hy⟩ := readOwner_ok hread
  obtain ⟨hrate, hrest⟩ := Prod.mk.inj hx
  obtain ⟨htime, hbal⟩ := Prod.mk.inj hrest
  obtain ⟨hrate', hrest'⟩ := Prod.mk.inj hy
  obtain ⟨htime', hbal'⟩ := Prod.mk.inj hrest'
  refine ⟨s, s', sent, row, row', hrun, hcall, hrow, hrow', ?_, ?_, by decide, ?_, hbal', ?_⟩
  · rw [hrate, hrate']
    decide
  · rw [htime]
    decide
  · rw [accruedBalance, hrate, htime, hbal]
    decide +kernel
  · rw [htime, htime']

end YottaChain.HddPool
