/-
  **The accounts of the owners** (`userhdd`): production space, profit rate and balance.

  A row keeps the space an owner produces with, the rate that follows from it and the
  profit so far.  Only `chg_owner_space` moves space, and with it the rate (`Moves`).  All
  other code opens accounts and changes balances, and leaves both as they are (`Plain`).

  A settlement computes the profit since the last one at the rate of the row; nine tenths
  of it stay with the owner and the rest goes to the eco fund.  That this is a split of the
  integers needs balances in the window of the range check and rates that are not negative
  (`Sound`), and of the floating-point expressions what `FairSplit` says.
-/
import YottaChain.HddPoolMiners

namespace YottaChain.HddPool

open Checked FixedWidth

/-! ## 1. Production space -/

def spaceOf (t : Table Name UserHdd) (u : Name) : Option UInt64 :=
  (t.find u).map UserHdd.hddSpaceProfit

def Opens (t t' : Table Name UserHdd) : Prop :=
  ∀ u, spaceOf t' u = spaceOf t u ∨ spaceOf t u = none ∧ spaceOf t' u = some 0

/-- The account of `owner` exists afterwards. -/
def OpensFor (owner : Name) (t t' : Table Name UserHdd) : Prop :=
  spaceOf t' = Function.update (spaceOf t) owner (some ((spaceOf t owner).getD 0))

/-- The production space of `owner` moves by `delta`; that of the eco fund is
    not kept. -/
inductive Moves (owner : Name) (delta : UInt64) (inc : Bool) (t t' : Table Name UserHdd) : Prop
  | exempt (howner : owner = ecologyfoundAcc) (ht : t' = t)
  | moved (howner : owner ≠ ecologyfoundAcc) (old : UInt64) (hold : spaceOf t owner = some old)
      (hle : newOwnerSpace old delta inc ≤ maxProfitSpace)
      (ht : spaceOf t' = Function.update (spaceOf t) owner (some (newOwnerSpace old delta inc)))

def MovesIf (cond : Prop) (owner : Name) (delta : UInt64) (inc : Bool)
    (t t' : Table Name UserHdd) : Prop :=
  (cond → Moves owner delta inc t t') ∧ (¬ cond → t' = t)

theorem spaceOf_put (t : Table Name UserHdd) (u : Name) (row : UserHdd) :
    spaceOf (t.put u row) = Function.update (spaceOf t) u (some row.hddSpaceProfit) := by
  funext w
  unfold spaceOf
  by_cases h : w = u
  · subst h
    simp
  · rw [Table.find_put_ne _ _ h, Function.update_of_ne h]

variable {t t' t₁ t₂ : Table Name UserHdd} {u owner : Name} {row row' : UserHdd}

theorem spaceOf_put_same (hrow : t.find u = some row)
    (hsame : row'.hddSpaceProfit = row.hddSpaceProfit) : spaceOf (t.put u row') = spaceOf t := by
  rw [spaceOf_put, hsame, Function.update_eq_self_iff]
  simp [spaceOf, hrow]

theorem OpensFor.opens (h : OpensFor owner t t') : Opens t t' := by
  intro u
  rw [OpensFor] at h
  by_cases hu : u = owner
  · subst hu
    rw [h, Function.update_self]
    cases hs : spaceOf t u with
    | none => exact .inr ⟨rfl, rfl⟩
    | some => exact .inl rfl
  · left
    rw [h, Function.update_of_ne hu]

theorem Opens.trans (h : Opens t t₁) (h' : Opens t₁ t₂) : Opens t t₂ := by
  intro u
  rcases h' u with hsame | ⟨hnone, hzero⟩
  · rw [hsame]
    exact h u
  · rcases h u with hsame' | ⟨_, hzero'⟩
    · exact .inr ⟨hsame' ▸ hnone, hzero⟩
    · rw [hzero'] at hnone
      cases hnone

/-! ## 2. The split of a profit -/

/-- What the settlement relies on: rates and profits are not negative, and nine
    tenths of a profit lie between zero and the profit. -/
structure FairSplit (fp : Doubles) : Prop where
  rate : ∀ space, 0 ≤ fp.cycleProfit space
  accrued : ∀ slot profit, 0 ≤ profit → 0 ≤ fp.tickProfit slot profit
  part : ∀ x, 0 ≤ x → 0 ≤ fp.tenths 9 x ∧ fp.tenths 9 x ≤ x

/-- The balance with the profit up to `t`, at the rate of the row. -/
def accruedBalance (fp : Doubles) (row : UserHdd) (t : UInt64) : Int64 :=
  calculateProfitBalance fp row.hddMinerhdd row.hddPerCycleProfit row.lastHddprofitTime t 0

def keptBalance (fp : Doubles) (row : UserHdd) (t : UInt64) : Int64 :=
  fp.tenths 9 (accruedBalance fp row t - row.hddMinerhdd) + row.hddMinerhdd

structure SoundRow (row : UserHdd) : Prop where
  window : InWindow row.hddMinerhdd
  rate : 0 ≤ row.hddPerCycleProfit

variable {x : Int64} {fp : Doubles}

theorem inWindow_of_range (h : isHddAmountWithinRange x = true) : InWindow x := by
  unfold isHddAmountWithinRange at h
  have hle := of_decide_eq_true h
  rw [Int64.le_iff_toInt_le, Int64.le_iff_toInt_le] at hle
  exact hle

theorem nonneg_iff : 0 ≤ x ↔ 0 ≤ x.toInt := by
  rw [Int64.le_iff_toInt_le, Int64.toInt_zero]

theorem accruedBalance_eq (hfp : FairSplit fp) (hrow : SoundRow row) (t : UInt64) :
    ∃ d : Int64, 0 ≤ d ∧ accruedBalance fp row t = row.hddMinerhdd + d := by
  unfold accruedBalance calculateProfitBalance
  dsimp only
  generalize (if profitDeadline 0 < t then profitDeadline 0 else t) = now
  split
  · exact ⟨0, by decide, (Int64.add_zero _).symm⟩
  · exact ⟨_, hfp.accrued _ _ hrow.rate, rfl⟩

/-- Nothing wraps around in a settlement that passes its range check: what is kept lies between
    the old and the new balance, and the difference to the new one is the share of the fund. -/
theorem keptBalance_split (hfp : FairSplit fp) (hrow : SoundRow row) {t : UInt64}
    (hnew : InWindow (accruedBalance fp row t)) :
    InWindow (keptBalance fp row t) ∧
    (accruedBalance fp row t - keptBalance fp row t).toInt =
      (accruedBalance fp row t).toInt - (keptBalance fp row t).toInt ∧
    (keptBalance fp row t).toInt ≤ (accruedBalance fp row t).toInt := by
  obtain ⟨d, hd, heq⟩ := accruedBalance_eq hfp hrow t
  have hw := hrow.window
  rw [heq] at hnew
  have hsum := checked_add hw hnew
  have hprofit : accruedBalance fp row t - row.hddMinerhdd = d := by
    rw [heq, Int64.add_comm, Int64.add_sub_cancel]
  obtain ⟨hlo, hhi⟩ := hfp.part d hd
  rw [nonneg_iff] at hlo hd
  rw [Int64.le_iff_toInt_le] at hhi
  unfold keptBalance
  rw [hprofit, heq]
  unfold InWindow at hw hnew ⊢
  have hkept : (fp.tenths 9 d + row.hddMinerhdd).toInt =
      (fp.tenths 9 d).toInt + row.hddMinerhdd.toInt :=
    toInt_add_of_bounds (by omega) (by omega)
  rw [toInt_sub_of_bounds (by omega) (by omega)]
  omega

theorem settle_ok {msg : String} {t dl : UInt64} {r : Int64 × Int64}
    (hdl : profitDeadline dl = profitDeadline 0)
    (h : settle fp msg row.hddMinerhdd row.hddPerCycleProfit row.lastHddprofitTime t dl = .ok r) :
    InWindow (accruedBalance fp row t) ∧ r.1 = keptBalance fp row t ∧
      r.2 = accruedBalance fp row t - keptBalance fp row t := by
  have hsame : calculateProfitBalance fp row.hddMinerhdd row.hddPerCycleProfit
      row.lastHddprofitTime t dl = accruedBalance fp row t := by
    unfold accruedBalance calculateProfitBalance
    rw [hdl]
  simp only [settle, hsame, ok_iff] at h
  obtain ⟨hrange, rfl⟩ := h
  exact ⟨inWindow_of_range hrange, rfl, rfl⟩

/-! ## 3. Changes that move no space -/

def Sound (t : Table Name UserHdd) : Prop := ∀ u row, t.find u = some row → SoundRow row

theorem Sound.put (h : Sound t) (u : Name) (hrow : SoundRow row) : Sound (t.put u row) :=
  Table.forall_put h hrow

/-- A change that keeps the space and the rate of every account: rows stay sound, and a new
    account has nothing. -/
structure Plain (fp : Doubles) (t t' : Table Name UserHdd) : Prop where
  space : Opens t t'
  rate : ∀ u row, t.find u = some row →
    ∃ row', t'.find u = some row' ∧ row'.hddPerCycleProfit = row.hddPerCycleProfit
  sound : FairSplit fp → Sound t → Sound t'

/-- The rows differ in what they store only. -/
structure SameEarnings (row row' : UserHdd) : Prop where
  space : row'.hddSpaceProfit = row.hddSpaceProfit
  rate : row'.hddPerCycleProfit = row.hddPerCycleProfit
  balance : row'.hddMinerhdd = row.hddMinerhdd

namespace Plain

theorem refl (fp : Doubles) (t : Table Name UserHdd) : Plain fp t t :=
  ⟨fun _ => .inl rfl, fun _ row h => ⟨row, h, rfl⟩, fun _ hs => hs⟩

theorem trans (h : Plain fp t t₁) (h' : Plain fp t₁ t₂) : Plain fp t t₂ where
  space := h.space.trans h'.space
  rate := by
    intro u row hrow
    obtain ⟨row1, hrow1, heq1⟩ := h.rate u row hrow
    obtain ⟨row2, hrow2, heq2⟩ := h'.rate u row1 hrow1
    exact ⟨row2, hrow2, heq2.trans heq1⟩
  sound := fun hfp hs => h'.sound hfp (h.sound hfp hs)

theorem put (hrow : t.find u = some row) (hspace : row'.hddSpaceProfit = row.hddSpaceProfit)
    (hrate : row'.hddPerCycleProfit = row.hddPerCycleProfit)
    (hwin : FairSplit fp → SoundRow row → InWindow row'.hddMinerhdd) :
    Plain fp t (t.put u row') where
  space := fun w => .inl (congrFun (spaceOf_put_same hrow hspace) w)
  rate := by
    intro w r hr
    rw [Table.find_put]
    split_ifs with hw
    · subst hw
      rw [hrow] at hr
      cases hr
      exact ⟨row', rfl, hrate⟩
    · exact ⟨r, hr, rfl⟩
  sound := by
    intro hfp hs
    have hr := hs u row hrow
    exact hs.put u ⟨hwin hfp hr, hrate ▸ hr.rate⟩

theorem put_same (hrow : t.find u = some row) (h : SameEarnings row row') :
    Plain fp t (t.put u row') := by
  refine .put hrow h.space h.rate fun _ hr => ?_
  rw [h.balance]
  exact hr.window

theorem new (hnone : t.find u = none) (now : UInt64) (balance : Int64) :
    Plain fp t (t.put u (newUserHddRow now balance)) where
  space := by
    have hopens : OpensFor u t (t.put u (newUserHddRow now balance)) := by
      rw [OpensFor, spaceOf_put]
      simp [spaceOf, hnone, newUserHddRow]
    exact hopens.opens
  rate := by
    intro w r hr
    refine ⟨r, ?_, rfl⟩
    have hne : w ≠ u := by
      rintro rfl
      rw [hnone] at hr
      cases hr
    exact (Table.find_put_ne _ _ hne).trans hr
  sound := by
    refine fun _ hs => hs.put u ⟨?_, ?_⟩
    · show InWindow 0
      decide
    · show (0 : Int64) ≤ 0
      decide

end Plain

/-- `creditEco` changes at most the row of the eco fund, whose balance stays in the window. -/
theorem creditEco_rows (fp : Doubles) {share : Int64} (h : creditEco t share = .ok t') :
    Plain fp t t' ∧ (∀ u, u ≠ ecologyfoundAcc → t'.find u = t.find u) ∧
    ((¬ 0 < share ∧ t' = t) ∨ 0 < share ∧ ∃ eco, t.find ecologyfoundAcc = some eco ∧
      InWindow (eco.hddMinerhdd + share) ∧
      t' = t.put ecologyfoundAcc { eco with hddMinerhdd := eco.hddMinerhdd + share }) := by
  unfold creditEco at h
  split_ifs at h with hpos
  · simp only [ok_iff] at h
    obtain ⟨eco, heco, hrange, rfl⟩ := h
    have hwin := inWindow_of_range hrange
    refine ⟨.put heco rfl rfl fun _ _ => hwin, ?_, .inr ⟨hpos, eco, heco, hwin, rfl⟩⟩
    intro u hu
    exact Table.find_put_ne _ _ hu
  · cases h
    exact ⟨.refl fp t, fun _ _ => rfl, .inl ⟨hpos, rfl⟩⟩

theorem creditEco_space {share : Int64} (h : creditEco t share = .ok t') :
    spaceOf t' = spaceOf t := by
  rcases (creditEco_rows .whole h).2.2 with ⟨_, rfl⟩ | ⟨_, eco, heco, _, rfl⟩
  · rfl
  · exact spaceOf_put_same heco rfl

/-! ## 4. The helpers of the actions -/

theorem chgOwnerSpace_ok {delta ct dl : UInt64} {inc isCalc : Bool}
    (h : chgOwnerSpace fp t owner delta inc isCalc ct dl = .ok t') :
    Moves owner delta inc t t' := by
  unfold chgOwnerSpace at h
  split_ifs at h with howner
  · cases h
    exact .exempt howner rfl
  · simp only [ok_iff] at h
    obtain ⟨row, hrow, _, _, hle, hcredit⟩ := h
    refine .moved howner row.hddSpaceProfit (by simp [spaceOf, hrow]) hle ?_
    rw [creditEco_space hcredit, spaceOf_put]

theorem chgOwnerSpaceIf_ok {cond : Prop} [Decidable cond] {delta ct dl : UInt64} {inc isCalc : Bool}
    (h : chgOwnerSpaceIf cond t (chgOwnerSpace fp t owner delta inc isCalc ct dl) = .ok t') :
    MovesIf cond owner delta inc t t' := by
  unfold chgOwnerSpaceIf at h
  split_ifs at h with hc
  · exact ⟨fun _ => chgOwnerSpace_ok h, fun hn => absurd hc hn⟩
  · cases h
    exact ⟨fun hp => absurd hp hc, fun _ => rfl⟩

/-- The account of `n` is there, or is opened with nothing in it. -/
inductive OpensAccount (now : UInt64) (n : Name) (t : Table Name UserHdd) :
    Table Name UserHdd → Prop
  | known (row : UserHdd) (hrow : t.find n = some row) : OpensAccount now n t t
  | opened (hnone : t.find n = none) : OpensAccount now n t (t.put n (newUserHddRow now 0))

variable {now : UInt64} {n : Name}

theorem OpensAccount.plain (h : OpensAccount now n t t') : Plain fp t t' := by
  cases h with
  | known => exact .refl fp t
  | opened hnone => exact .new hnone now 0

theorem OpensAccount.opensFor (h : OpensAccount now n t t') : OpensFor n t t' := by
  cases h with
  | known row hrow =>
    have hself : spaceOf t n = some row.hddSpaceProfit := by simp [spaceOf, hrow]
    rw [OpensFor, hself, eq_comm, Function.update_eq_self_iff]
    exact hself.symm
  | opened hnone =>
    rw [OpensFor, spaceOf_put]
    simp [spaceOf, hnone, newUserHddRow]

variable {c : Ctx} {s s' : Tables}

theorem openOwner_ok (h : openOwner c s owner = .ok s') :
    ∃ t n, s' = { s with userhdd := t, hddTotalUser := n } ∧
      OpensAccount c.currentTime owner s.userhdd t := by
  unfold openOwner at h
  split at h
  · rename_i row hrow
    cases h
    exact ⟨s.userhdd, s.hddTotalUser, rfl, .known row hrow⟩
  · simp only [newUserHdd, ok_iff] at h
    obtain ⟨_, ⟨hnone, rfl⟩, rfl⟩ := h
    exact ⟨_, _, rfl, .opened hnone⟩

theorem addStore_ok (fp : Doubles) {amount : Int64} (h : addStore c s u amount = .ok s') :
    ∃ t n, s' = { s with userhdd := t, hddTotalUser := n } ∧ Plain fp s.userhdd t := by
  unfold addStore at h
  split at h
  · simp only [newUserHdd, ok_iff] at h
    obtain ⟨_, ⟨hnone, rfl⟩, rfl⟩ := h
    exact ⟨_, _, rfl, .new hnone _ _⟩
  · rename_i row hrow
    simp only [ok_iff] at h
    obtain ⟨_, rfl⟩ := h
    exact ⟨_, s.hddTotalUser, rfl, .put_same hrow ⟨rfl, rfl, rfl⟩⟩

theorem settleStore_ok (h : settleStore fp c row = .ok row') : SameEarnings row row' := by
  simp only [settleStore, ok_iff] at h
  obtain ⟨_, _, rfl⟩ := h
  exact ⟨rfl, rfl, rfl⟩

theorem storeSpaceRow_ok {caller : Name} (h : storeSpaceRow c s u caller = .ok row) :
    s.userhdd.find u = some row := by
  simp only [storeSpaceRow, ok_iff] at h
  obtain ⟨_, _, row', hrow, _, _, rfl⟩ := h
  exact hrow

end YottaChain.HddPool
