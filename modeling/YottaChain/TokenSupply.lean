/-
  **The supply of every token is what its holders have.**

  The law of `eosio.token`: for each symbol name the balances add up to the supply,
  the supply is between 0 and the maximum, and every stored balance is positive and
  carries the symbol of its token.  A debit and a credit break the sum on their own,
  so the rows (`RowsSound`) and the sum are followed separately and meet again at
  the end of an action.

  From the law it follows that the checks inside `asset` are never the reason for a
  refusal: a credit cannot overflow, because balance and credit together are at most
  the supply, and a retired quantity cannot take the supply out of range.

  Only one thing is needed for it: that what `hddlock` reports as locked is a number
  between 0 and `2 ^ 62`.  `sub_balance_yta` adds it to the deposits without a check
  and compares the balance with nothing else, so that a sum that wraps around lets an
  account pay more than it has (`overdrawn_by_locks`).
-/
import YottaChain.CoreBalances
import YottaChain.HddLock

namespace YottaChain

open Checked FixedWidth Table

/-! ## 1. Amounts that stay in range -/

namespace Asset

variable {a b : Asset}

theorem add_succeeds (hsym : b.symbol = a.symbol) (ha : 0 ≤ a.value) (hb : 0 ≤ b.value)
    (hsum : a.value + b.value ≤ 2 ^ 62 - 1) : ∃ r, a.add b = .ok r := by
  unfold value at ha hb hsum
  have hvalue : (a.amount + b.amount).toInt = a.amount.toInt + b.amount.toInt :=
    toInt_add_of_bounds (by omega) (by omega)
  have hwindow : InWindow (a.amount + b.amount) := by
    unfold InWindow
    omega
  obtain ⟨hlo, hhi⟩ := within_iff.mpr hwindow
  refine ⟨{ a with amount := a.amount + b.amount }, ?_⟩
  simp only [add, ok_iff]
  exact ⟨hsym, hlo, hhi, trivial⟩

theorem sub_succeeds (hsym : b.symbol = a.symbol) (ha : 0 ≤ a.value) (hb : 0 ≤ b.value)
    (hwa : InWindow a.amount) (hwb : InWindow b.amount) : ∃ r, a.sub b = .ok r := by
  unfold value at ha hb
  unfold InWindow at hwa hwb
  have hvalue : (a.amount - b.amount).toInt = a.amount.toInt - b.amount.toInt :=
    toInt_sub_of_bounds (by omega) (by omega)
  have hwindow : InWindow (a.amount - b.amount) := by
    unfold InWindow
    omega
  obtain ⟨hlo, hhi⟩ := within_iff.mpr hwindow
  refine ⟨{ a with amount := a.amount - b.amount }, ?_⟩
  simp only [sub, ok_iff]
  exact ⟨hsym, hlo, hhi, trivial⟩

variable {r : Asset}

theorem symbol_of_add_ok (h : a.add b = .ok r) : r.symbol = a.symbol := by
  simp only [add, ok_iff] at h
  obtain ⟨_, _, _, rfl⟩ := h
  rfl

theorem symbol_of_sub_ok (h : a.sub b = .ok r) : r.symbol = a.symbol := by
  simp only [sub, ok_iff] at h
  obtain ⟨_, _, _, rfl⟩ := h
  rfl

end Asset

namespace Token

/-! ## 2. Rows -/

def RowsSound (t : Tables) : Prop :=
  ∀ owner sym a, t.accounts.find (owner, sym) = some a →
    0 < a.value ∧ ∃ st, t.stat.find sym = some st ∧ a.symbol = st.supply.symbol

section Rows

variable {t t' : Tables} {owner : Name} {balance value : Asset} {sym : UInt64}

section

variable (h : RowsSound t)

include h

theorem RowsSound.valueIn_nonneg (sym : UInt64) (k : Name × UInt64) (a : Asset)
    (hk : t.accounts.find k = some a) : 0 ≤ valueIn sym k a := by
  have hpos := (h k.1 k.2 a hk).1
  unfold valueIn
  split
  · exact le_of_lt hpos
  · exact le_refl 0

theorem RowsSound.le_circulating
    (hrow : t.accounts.find (owner, sym) = some balance) : balance.value ≤ circulating t sym := by
  have hle := le_total (h.valueIn_nonneg sym) hrow
  rwa [valueIn, if_pos rfl] at hle

theorem RowsSound.inRange (hsum : ∀ sym, circulating t sym ≤ 2 ^ 62 - 1) : InRange t := by
  rintro ⟨owner, sym⟩ balance hrow
  have hpos := (h owner sym balance hrow).1
  have hle := h.le_circulating hrow
  have hmax := hsum sym
  unfold Asset.value at hpos hle
  unfold InWindow
  omega

variable {st : CurrencyStats}

/-- A row is replaced by one that is positive and in the same token. -/
theorem RowsSound.put {key : Name × UInt64} (hpos : 0 < value.value)
    (hst : t.stat.find key.2 = some st) (hsym : value.symbol = st.supply.symbol) :
    RowsSound { t with accounts := t.accounts.put key value } := by
  intro owner sym a hrow
  simp only [find_put] at hrow
  split_ifs at hrow with hkey
  · cases hrow
    subst hkey
    exact ⟨hpos, st, hst, hsym⟩
  · exact h owner sym a hrow

theorem RowsSound.takeBalance (hw : InWindow balance.amount)
    (hrow : t.accounts.find (owner, symbolName value.symbol) = some balance)
    (hle : value.value ≤ balance.value) (htake : takeBalance t owner balance value = .ok t') :
    RowsSound t' := by
  rcases takeBalance_ok htake with ⟨_, rfl⟩ | ⟨left, heq, hleft, rfl⟩
  · intro owner' sym a ha
    simp only [find_erase] at ha
    split at ha
    · cases ha
    · exact h owner' sym a ha
  · obtain ⟨_, st, hst, hsym⟩ := h _ _ _ hrow
    have hvalue := (Asset.sub_ok hleft hw).1
    have hne : balance.value ≠ value.value := fun hv => heq (Int64.toInt_inj.mp hv)
    apply h.put
    · omega
    · exact hst
    · rw [Asset.symbol_of_sub_ok hleft, hsym]

theorem RowsSound.addBalance (ht : InRange t) (hpos : 0 < value.value)
    (hst : t.stat.find (symbolName value.symbol) = some st) (hsym : value.symbol = st.supply.symbol)
    (hadd : addBalance t owner value = .ok t') : RowsSound t' := by
  obtain ⟨sum, rfl, ⟨_, rfl⟩ | ⟨balance, hrow, hsum⟩⟩ := addBalance_ok hadd
  · exact h.put hpos hst hsym
  · obtain ⟨hold, st', hst', hsym'⟩ := h _ _ _ hrow
    have hvalue := (Asset.add_ok hsum (ht _ _ hrow)).1
    apply h.put
    · omega
    · exact hst'
    · rw [Asset.symbol_of_add_ok hsum, hsym']

/-- A credit succeeds if all balances and the credit together are in range. -/
theorem RowsSound.credit (owner : Name) (hpos : 0 < value.value)
    (hst : t.stat.find (symbolName value.symbol) = some st) (hsym : value.symbol = st.supply.symbol)
    (hsum : circulating t (symbolName value.symbol) + value.value ≤ 2 ^ 62 - 1) :
    ∃ t', Token.addBalance t owner value = .ok t' := by
  unfold Token.addBalance
  rcases hrow : t.accounts.find (owner, symbolName value.symbol) with _ | balance
  · exact ⟨_, rfl⟩
  · obtain ⟨hold, st', hst', hsym'⟩ := h _ _ _ hrow
    have hle := h.le_circulating hrow
    rw [hst] at hst'
    cases hst'
    obtain ⟨sum, hadd⟩ := Asset.add_succeeds (hsym.trans hsym'.symm) (le_of_lt hold) (le_of_lt hpos)
      (by omega)
    refine ⟨{ t with accounts := t.accounts.put (owner, symbolName value.symbol) sum }, ?_⟩
    simp only [ok_iff]
    exact ⟨sum, hadd, rfl⟩

end

end Rows

/-! ## 3. The law -/

def supplyOf (t : Tables) (sym : UInt64) : ℤ := ((t.stat.find sym).map (·.supply.value)).getD 0

theorem supplyOf_of_some {t : Tables} {sym : UInt64} {st : CurrencyStats}
    (h : t.stat.find sym = some st) : supplyOf t sym = st.supply.value := by
  rw [supplyOf, h]
  rfl

/-- A token is on record under its own name, and its supply is between 0 and a
    maximum that is in range. -/
structure StatSound (sym : UInt64) (st : CurrencyStats) : Prop where
  name : symbolName st.supply.symbol = sym
  nonneg : 0 ≤ st.supply.value
  le_max : st.supply.value ≤ st.maxSupply.value
  max : st.maxSupply.value ≤ 2 ^ 62 - 1

theorem StatSound.inWindow {sym : UInt64} {st : CurrencyStats} (h : StatSound sym st) :
    InWindow st.supply.amount := by
  obtain ⟨_, hnonneg, hlemax, hmax⟩ := h
  unfold Asset.value at hnonneg hlemax hmax
  unfold InWindow
  omega

structure SupplyLaw (t : Tables) : Prop where
  stats : ∀ sym st, t.stat.find sym = some st → StatSound sym st
  rows : RowsSound t
  sum : ∀ sym, circulating t sym = supplyOf t sym

section Law

variable {fp : Doubles} {c : Ctx} {lock : HddLock.Tables} {deposit : HddDeposit.Tables}
  {t t' : Tables} {st : CurrencyStats} {quantity : Asset} {sym : UInt64}

theorem SupplyLaw.circulating_le (h : SupplyLaw t) (sym : UInt64) :
    circulating t sym ≤ 2 ^ 62 - 1 := by
  rw [h.sum]
  rcases hst : t.stat.find sym with _ | st
  · rw [supplyOf, hst]
    decide
  · have hsound := h.stats sym st hst
    have := hsound.le_max
    have := hsound.max
    rw [supplyOf_of_some hst]
    omega

theorem SupplyLaw.inRange (h : SupplyLaw t) : InRange t := h.rows.inRange h.circulating_le

variable {receiver sender : Name} {balance : Asset}

theorem SupplyLaw.covered (h : SupplyLaw t)
    (hrow : t.accounts.find (sender, symbolName quantity.symbol) = some balance)
    (hpaid : Paid fp c lock deposit sender receiver quantity balance) (hlock : LocksBounded fp lock)
    (hlaw : HddDeposit.DepositLaw deposit) : quantity.value ≤ balance.value :=
  (hpaid.covered hlock hlaw (le_of_lt (h.rows _ _ _ hrow).1) (h.inRange _ _ hrow)).1

/-- After the debit of a transfer the rows are sound, and the quantity is missing
    from the sum. -/
theorem SupplyLaw.debited (h : SupplyLaw t)
    (hrow : t.accounts.find (sender, symbolName quantity.symbol) = some balance)
    (hpaid : Paid fp c lock deposit sender receiver quantity balance) (hlock : LocksBounded fp lock)
    (hlaw : HddDeposit.DepositLaw deposit) (htake : takeBalance t sender balance quantity = .ok t')
    :
    RowsSound t' ∧ circulating t' (symbolName quantity.symbol) + quantity.value ≤ 2 ^ 62 - 1 := by
  have hwindow := h.inRange _ _ hrow
  refine ⟨h.rows.takeBalance hwindow hrow (h.covered hrow hpaid hlock hlaw) htake, ?_⟩
  have hmax := h.circulating_le (symbolName quantity.symbol)
  rw [takeBalance_circulating htake hwindow hrow, valueIn, if_pos rfl]
  omega

theorem SupplyLaw.transfer (h : SupplyLaw t) (hlock : LocksBounded fp lock)
    (hlaw : HddDeposit.DepositLaw deposit)
    (htransfer : Transfer fp c lock deposit t sender receiver quantity t') : SupplyLaw t' := by
  obtain ⟨st, hst, hsym⟩ := htransfer.symbol
  obtain ⟨balance, t1, hrow, hpaid, htake, hadd⟩ := htransfer.moved
  have hpos := HddDeposit.value_pos htransfer.pos
  have hwindow := h.inRange _ _ hrow
  have hrows := (h.debited hrow hpaid hlock hlaw htake).1
  have hrange := h.inRange.takeBalance hrow htake
  have hst1 : t1.stat.find (symbolName quantity.symbol) = some st := by
    rw [stat_of_takeBalance htake]
    exact hst
  refine ⟨?_, hrows.addBalance hrange hpos hst1 hsym hadd, ?_⟩
  · rw [htransfer.stat]
    exact h.stats
  · intro sym
    have hsum := h.sum sym
    rw [addBalance_circulating hrange hadd, takeBalance_circulating htake hwindow hrow, supplyOf,
      htransfer.stat]
    rw [supplyOf] at hsum
    have hsame : valueIn sym (sender, symbolName quantity.symbol) quantity =
        valueIn sym (receiver, symbolName quantity.symbol) quantity := rfl
    omega

def resupply (t : Tables) (sym : UInt64) (st : CurrencyStats) (supply : Asset) : Tables :=
  { t with stat := t.stat.put sym { st with supply := supply } }

theorem RowsSound.supply (h : RowsSound t) {supply : Asset} (hst : t.stat.find sym = some st)
    (hsym : supply.symbol = st.supply.symbol) : RowsSound (resupply t sym st supply) := by
  intro owner sym' a hrow
  obtain ⟨hpos, st', hst', hsym'⟩ := h owner sym' a hrow
  refine ⟨hpos, ?_⟩
  simp only [resupply, find_put]
  split_ifs with hs
  · rw [hs, hst] at hst'
    cases hst'
    exact ⟨{ st with supply := supply }, rfl, hsym'.trans hsym.symm⟩
  · exact ⟨st', hst', hsym'⟩

theorem StatSound.supply (h : StatSound sym st) {supply : Asset}
    (hsym : supply.symbol = st.supply.symbol) (hnonneg : 0 ≤ supply.value)
    (hmax : supply.value ≤ st.maxSupply.value) : StatSound sym { st with supply := supply } :=
  ⟨(congrArg symbolName hsym).trans h.name, hnonneg, hmax, h.max⟩

/-- The law again, after a supply and the balances of its token have changed by the
    same amount. -/
theorem SupplyLaw.resupplied (h : SupplyLaw t) {supply : Asset} {accounts : Table _ Asset}
    (hst : t.stat.find sym = some st) (hsound : StatSound sym { st with supply := supply })
    (hrows : RowsSound { resupply t sym st supply with accounts := accounts })
    (hsum : ∀ s, accounts.total (valueIn s) = circulating t s +
      if sym = s then supply.value - st.supply.value else 0) :
    SupplyLaw { resupply t sym st supply with accounts := accounts } := by
  refine ⟨?_, hrows, ?_⟩
  · exact forall_put h.stats hsound
  · intro s
    have hold := h.sum s
    show accounts.total (valueIn s) = _
    rw [hsum, hold]
    simp only [supplyOf, resupply, find_put]
    by_cases hs : s = sym
    · subst hs
      simp [hst]
    · have hs' : ¬ sym = s := fun heq => hs heq.symm
      rw [if_neg hs, if_neg hs', add_zero]

theorem SupplyLaw.create (h : SupplyLaw t) {issuer : Name} {maximumSupply : Asset}
    (hcreate : create c t issuer maximumSupply = .ok t') : SupplyLaw t' := by
  simp only [Token.create, ok_iff] at hcreate
  obtain ⟨_, _, hvalid, hpos, hnone, _, ⟨_, rfl⟩, rfl⟩ := hcreate
  have hmax := (Asset.inWindow_of_isValid hvalid).2
  have hpos' := HddDeposit.value_pos hpos
  refine ⟨?_, ?_, ?_⟩
  · exact forall_put h.stats ⟨rfl, le_refl 0, le_of_lt hpos', hmax⟩
  · intro owner sym a hrow
    obtain ⟨hrowpos, st, hst, hsym⟩ := h.rows owner sym a hrow
    refine ⟨hrowpos, st, ?_, hsym⟩
    have hne : sym ≠ symbolName maximumSupply.symbol := by
      rintro rfl
      rw [hnone] at hst
      cases hst
    exact (find_put_ne _ _ hne).trans hst
  · intro sym
    have hsum := h.sum sym
    show circulating t sym = _
    rw [hsum]
    simp only [supplyOf, find_put]
    split_ifs with hs
    · rw [hs, hnone]
      rfl
    · rfl

/-- What an issue has checked: the new supply is the old one and the quantity, and
    not above the maximum. -/
theorem SupplyLaw.issued (h : SupplyLaw t) {supply : Asset}
    (hst : t.stat.find (symbolName quantity.symbol) = some st) (hpos : 0 < quantity.value)
    (hle : quantity.amount ≤ st.maxSupply.amount - st.supply.amount)
    (hsupply : st.supply.add quantity = .ok supply) :
    supply.value = st.supply.value + quantity.value ∧
      StatSound (symbolName quantity.symbol) { st with supply := supply } := by
  have hsound := h.stats _ _ hst
  have hnonneg := hsound.nonneg
  have hlemax := hsound.le_max
  have hmax := hsound.max
  obtain ⟨hvalue, _⟩ := Asset.add_ok hsupply hsound.inWindow
  have hle' : quantity.value ≤ st.maxSupply.value - st.supply.value := by
    have hint := Int64.le_iff_toInt_le.mp hle
    unfold Asset.value at hnonneg hlemax hmax ⊢
    rwa [toInt_sub_of_bounds (by omega) (by omega)] at hint
  refine ⟨hvalue, hsound.supply (Asset.symbol_of_add_ok hsupply) ?_ ?_⟩ <;> omega

variable {memo : Text}

theorem SupplyLaw.issue (h : SupplyLaw t) {sent : List Sent}
    (hissue : issue c t receiver quantity memo = .ok (t', sent)) : SupplyLaw t' := by
  simp only [Token.issue, ok_iff] at hissue
  obtain ⟨_, _, st, hst, _, _, hpos, hsym, hle, supply, hsupply, t1, hadd, rfl, _⟩ := hissue
  have hpos' := HddDeposit.value_pos hpos
  obtain ⟨hvalue, hsound⟩ := h.issued hst hpos' hle hsupply
  have hkept := Asset.symbol_of_add_ok hsupply
  have hrows := h.rows.supply hst hkept
  have hrange : InRange (resupply t (symbolName quantity.symbol) st supply) := h.inRange
  have hstat := stat_of_addBalance hadd
  have hcirc := addBalance_circulating hrange hadd
  have hrows1 := hrows.addBalance hrange hpos' (find_put_self _ _ _) (hsym.trans hkept.symm) hadd
  obtain ⟨stat, accounts⟩ := t1
  cases hstat
  refine h.resupplied hst hsound hrows1 ?_
  intro s
  have hs := hcirc s
  simp only [circulating, valueIn, resupply] at hs ⊢
  rw [hs, hvalue, add_sub_cancel_left]

theorem SupplyLaw.retire (h : SupplyLaw t) (hretire : retire c t quantity memo = .ok t') :
    SupplyLaw t' := by
  simp only [Token.retire, subBalance, ok_iff] at hretire
  obtain ⟨_, _, st, hst, _, _, hpos, hsym, supply, hsupply, balance, hrow, hle, htake⟩ := hretire
  have hrow' : t.accounts.find (st.issuer, symbolName quantity.symbol) = some balance := hrow
  have hsound := h.stats _ _ hst
  have hnonneg := hsound.nonneg
  have hlemax := hsound.le_max
  have hmax := hsound.max
  obtain ⟨hvalue, _⟩ := Asset.sub_ok hsupply hsound.inWindow
  have hkept := Asset.symbol_of_sub_ok hsupply
  have hpos' := HddDeposit.value_pos hpos
  have hcover := HddDeposit.value_le hle
  have hrange := h.inRange _ _ hrow'
  have hrows := (h.rows.supply hst hkept).takeBalance hrange hrow hcover htake
  have hcirc := takeBalance_circulating htake hrange hrow
  have hstat := stat_of_takeBalance htake
  have hown := h.rows.le_circulating hrow'
  rw [h.sum, supplyOf_of_some hst] at hown
  obtain ⟨stat, accounts⟩ := t'
  cases hstat
  refine h.resupplied hst (hsound.supply hkept (by omega) (by omega)) hrows ?_
  intro s
  have hs := hcirc s
  simp only [circulating, valueIn] at hs ⊢
  rw [hs, hvalue]
  split <;> omega

end Law

end Token

/-! ## 4. Runs -/

namespace Ledger

open Token HddDeposit

variable {fp : Doubles} {w : World}

/-- Every message keeps the law, given that the locks are in range. -/
theorem Handled.supplyLaw {e : Env} {c : Ctx} {w' : World} {a : Act} {sent : List Message}
    (hhandled : Handled fp e c w a w' sent) (h : SupplyLaw w.token) (hlock : LocksBounded fp e.lock)
    (hlaw : DepositLaw w.deposit) : SupplyLaw w'.token := by
  cases hhandled with
  | transfer _ ht => exact h.transfer hlock hlaw ht
  | incoming ht => exact h.transfer hlock hlaw ht
  | create hc => exact h.create hc
  | issue hi => exact h.issue hi
  | retire hr => exact h.retire hr
  | _ => exact h

theorem supplyLaw_empty : SupplyLaw World.empty.token := by
  refine ⟨?_, ?_, ?_⟩
  · intro sym st hst
    rw [show World.empty.token.stat.find sym = none from find_empty _] at hst
    cases hst
  · intro owner sym a hrow
    rw [show World.empty.token.accounts.find (owner, sym) = none from find_empty _] at hrow
    cases hrow
  · intro sym
    rw [supplyOf, show World.empty.token.stat.find sym = none from find_empty _]
    rfl

theorem supplyLaw_run
    (hrun : Run.Steps (TxStep fp fun e _ _ => LocksBounded fp e.lock) World.empty w) :
    SupplyLaw w.token ∧ DepositLaw w.deposit := by
  refine Run.invariant (P := fun w => SupplyLaw w.token ∧ DepositLaw w.deposit) ?_
    ⟨supplyLaw_empty, depositLaw_empty⟩ hrun
  rintro w w' hw ⟨e, depth, m, hlock, hexec⟩
  refine exec_sound (J := fun w _ => SupplyLaw w.token ∧ DepositLaw w.deposit) ?_ hw hexec
  rintro w m rest w' sent _ hpayable ⟨hsupply, hlaw⟩ hhandled
  exact ⟨hhandled.supplyLaw hsupply hlock hlaw, hhandled.depositLaw hlaw hsupply.inRange
    fun x hx => hpayable x (List.mem_append_left _ hx)⟩

/-- In every state reached from empty tables with locks in range: the balances of
    every symbol add up to its supply, which is between 0 and the maximum, and every
    balance is positive.  For a quantity that passes the checks of an action, the
    supply can be reduced by it, and the credits of `issue` and `transfer` go
    through. -/
theorem supply_conserved {fp : Doubles} {w : World}
    (hrun : Run.Steps (TxStep fp fun e _ _ => LocksBounded fp e.lock) World.empty w) :
    (∀ sym, circulating w.token sym = supplyOf w.token sym) ∧
    (∀ sym st, w.token.stat.find sym = some st →
      0 ≤ st.supply.value ∧ st.supply.value ≤ st.maxSupply.value) ∧
    (∀ owner sym a, w.token.accounts.find (owner, sym) = some a → 0 < a.value) ∧
    ∀ quantity st, w.token.stat.find (symbolName quantity.symbol) = some st →
      quantity.isValid → 0 < quantity.amount → quantity.symbol = st.supply.symbol →
      (∃ supply, st.supply.sub quantity = .ok supply) ∧
      (∀ supply, quantity.amount ≤ st.maxSupply.amount - st.supply.amount →
        st.supply.add quantity = .ok supply →
        ∃ t, addBalance (resupply w.token (symbolName quantity.symbol) st supply) st.issuer
          quantity = .ok t) ∧
      (∀ lock c sender receiver t recipients, LocksBounded fp lock →
        debit fp c lock w.deposit w.token sender receiver quantity = .ok (t, recipients) →
        ∃ t', addBalance t receiver quantity = .ok t') := by
  obtain ⟨h, hlaw⟩ := supplyLaw_run hrun
  refine ⟨h.sum, ?_, ?_, ?_⟩
  · intro sym st hst
    exact ⟨(h.stats sym st hst).nonneg, (h.stats sym st hst).le_max⟩
  · intro owner sym a hrow
    exact (h.rows owner sym a hrow).1
  · intro quantity st hst hvalid hpos hsym
    have hpos' := value_pos hpos
    have hsound := h.stats _ _ hst
    have hnonneg := hsound.nonneg
    have hlemax := hsound.le_max
    have hmax := hsound.max
    refine ⟨?_, ?_, ?_⟩
    · exact Asset.sub_succeeds hsym hnonneg (le_of_lt hpos') hsound.inWindow
        (Asset.inWindow_of_isValid hvalid)
    · intro supply hle hsupply
      obtain ⟨hvalue, hsound'⟩ := h.issued hst hpos' hle hsupply
      have hkept := Asset.symbol_of_add_ok hsupply
      refine (h.rows.supply hst hkept).credit st.issuer hpos' (find_put_self _ _ _)
        (hsym.trans hkept.symm) ?_
      show circulating w.token (symbolName quantity.symbol) + _ ≤ _
      have hle' : supply.value ≤ st.maxSupply.value := hsound'.le_max
      rw [h.sum, supplyOf_of_some hst]
      omega
    · intro lock c sender receiver t recipients hlock hdebit
      obtain ⟨_, balance, hrow, hpaid, htake⟩ := debit_ok hdebit
      obtain ⟨hrows, hsum⟩ := h.debited hrow hpaid hlock hlaw htake
      refine hrows.credit receiver hpos' ?_ hsym hsum
      rw [stat_of_takeBalance htake]
      exact hst

def sampleSupply : List Message :=
  [⟨[Token.self], .create 1 ⟨1000000, coreSymbol⟩⟩, ⟨[1], .issue 7 ⟨1000, coreSymbol⟩ []⟩,
    ⟨[7], .transfer 7 8 ⟨500, coreSymbol⟩ []⟩]

theorem supply_conserved_sample :
    ∃ w, Run.Steps (TxStep .whole fun e _ _ => LocksBounded .whole e.lock) World.empty w ∧
      supplyOf w.token (symbolName coreSymbol) = 1000 ∧ balanceOf w.token 8 = 500 ∧
      circulating w.token (symbolName coreSymbol) = 1000 := by
  obtain ⟨w, hw, hview⟩ := Checked.exists_of_map_eq_ok
    (x := execs .whole .plain 4 .empty sampleSupply)
    (f := fun w => (supplyOf w.token (symbolName coreSymbol), balanceOf w.token 8))
    (b := (1000, 500)) (by decide +kernel)
  obtain ⟨hsupply, hbalance⟩ := Prod.mk.inj hview
  have hrun : Run.Steps (TxStep .whole fun e _ _ => LocksBounded .whole e.lock) World.empty w :=
    execs_steps (fun _ _ _ => locksBounded_plain) hw
  exact ⟨w, hrun, hsupply, hbalance, ((supply_conserved hrun).1 _).trans hsupply⟩

/-- Three rules, and three lock transfers of `4 * 10 ^ 18` to the account 7 that move
    no token. -/
def sampleLocks : List HddLock.Action :=
  let lock (id : UInt64) : List HddLock.Action :=
    [.addrule id [1900000000, 2000000000] [50, 100],
      .locktransfer id 9 7 ⟨4000000000000000000, coreSymbol⟩ ⟨0, coreSymbol⟩ []]
  .addaccbig 9 [] :: lock 1 ++ lock 2 ++ lock 3

/-- The three locks add up to a negative amount, and the account 7, to which 1000 have
    been issued, pays 1500 to 8. -/
theorem overdrawn_by_locks :
    ∃ lock w, Run.Steps HddLock.Step HddLock.State.empty lock ∧
      Run.Steps (TxStep .whole fun e _ a => e.lock = lock.tables ∧
        (a = .create 1 ⟨1000000, coreSymbol⟩ ∨ a = .issue 7 ⟨1000, coreSymbol⟩ [] ∨
          a = .transfer 7 8 ⟨1500, coreSymbol⟩ [])) World.empty w ∧
      w.token.accounts.find (7, symbolName coreSymbol) = some ⟨-500, coreSymbol⟩ := by
  obtain ⟨⟨lock, w⟩, hrun, hview⟩ := Checked.exists_of_map_eq_ok
    (x := do
      let lock ← HddLock.runActions (.permissive 5) .empty sampleLocks
      let w ← execs .whole { Env.plain with lock := lock.tables } 4 .empty
        [⟨[Token.self], .create 1 ⟨1000000, coreSymbol⟩⟩, ⟨[1], .issue 7 ⟨1000, coreSymbol⟩ []⟩,
          ⟨[7], .transfer 7 8 ⟨1500, coreSymbol⟩ []⟩]
      pure (lock, w))
    (f := fun r => r.2.token.accounts.find (7, symbolName coreSymbol))
    (b := some ⟨-500, coreSymbol⟩) (by decide +kernel)
  simp only [ok_iff] at hrun
  obtain ⟨lock', hlock, w', hw, rfl, rfl⟩ := hrun
  refine ⟨lock', w', HddLock.runActions_steps hlock, execs_steps ?_ hw, hview⟩
  intro m hm _
  simp only [List.mem_cons, List.not_mem_nil, or_false] at hm
  rcases hm with rfl | rfl | rfl
  · exact ⟨rfl, .inl rfl⟩
  · exact ⟨rfl, .inr (.inl rfl)⟩
  · exact ⟨rfl, .inr (.inr rfl)⟩

end Ledger

end YottaChain
