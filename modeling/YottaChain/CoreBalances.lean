/-
  **Balances of the core token, and what a transfer leaves behind.**

  Amounts are read as integers: `amountAt` is the balance under a key of
  `accounts`, and a transfer moves its quantity from one key to another.  An
  ordinary transfer of the core token leaves the sender what it has deposited
  (`Paid.covered`), provided that the locked amount is what it should be: a number
  between 0 and `2 ^ 62`.  `sub_balance_yta` adds it to the deposit without a check.
-/
import YottaChain.DepositLaw

namespace YottaChain.Token

open Checked FixedWidth HddDeposit Table

/-! ## 1. Amounts -/

def amountAt (t : Tables) (k : Name × UInt64) : ℤ := ((t.accounts.find k).map Asset.value).getD 0

def balanceOf (t : Tables) (user : Name) : ℤ := amountAt t (user, symbolName coreSymbol)

variable {t : Tables}

theorem amountAt_of_some {k : Name × UInt64} {balance : Asset}
    (h : t.accounts.find k = some balance) : amountAt t k = balance.value := by
  rw [amountAt, h]
  rfl

theorem balanceOf_bounds (h : InRange t) (user : Name) :
    -(2 ^ 62 - 1) ≤ balanceOf t user ∧ balanceOf t user ≤ 2 ^ 62 - 1 := by
  rcases hbalance : t.accounts.find (user, symbolName coreSymbol) with _ | balance
  · rw [balanceOf, amountAt, hbalance]
    decide
  · rw [balanceOf, amountAt_of_some hbalance]
    exact h _ balance hbalance

theorem amountAt_put (t : Tables) (k l : Name × UInt64) (value : Asset) :
    amountAt { t with accounts := t.accounts.put k value } l =
      if l = k then value.value else amountAt t l := by
  rw [amountAt, find_put]
  split <;> rfl

variable {t' : Tables} {owner : Name} {value : Asset}

theorem takeBalance_amount {balance : Asset} (h : takeBalance t owner balance value = .ok t')
    (hw : InWindow balance.amount)
    (hbalance : t.accounts.find (owner, symbolName value.symbol) = some balance)
    (k : Name × UInt64) :
    amountAt t' k = amountAt t k - if k = (owner, symbolName value.symbol) then value.value
      else 0 := by
  rcases takeBalance_ok h with ⟨heq, rfl⟩ | ⟨left, _, hleft, rfl⟩
  · have herase : amountAt { t with accounts := t.accounts.erase (owner, symbolName value.symbol) } k
        = if k = (owner, symbolName value.symbol) then 0 else amountAt t k := by
      rw [amountAt, find_erase]
      split <;> rfl
    have hvalue : balance.value = value.value := congrArg Int64.toInt heq
    rw [herase]
    split_ifs with hk
    · rw [hk, amountAt_of_some hbalance, hvalue, sub_self]
    · rw [sub_zero]
  · rw [amountAt_put]
    split_ifs with hk
    · rw [hk, amountAt_of_some hbalance, (Asset.sub_ok hleft hw).1]
    · rw [sub_zero]

theorem addBalance_amount (ht : InRange t) (h : addBalance t owner value = .ok t')
    (k : Name × UInt64) :
    amountAt t' k = amountAt t k + if k = (owner, symbolName value.symbol) then value.value
      else 0 := by
  obtain ⟨sum, rfl, hsum⟩ := addBalance_ok h
  rw [amountAt_put]
  split_ifs with hk
  · rcases hsum with ⟨hnone, rfl⟩ | ⟨balance, hbalance, hsum⟩
    · rw [hk, amountAt, hnone]
      exact (zero_add _).symm
    · rw [hk, amountAt_of_some hbalance, (Asset.add_ok hsum (ht _ _ hbalance)).1]
  · rw [add_zero]

theorem stat_of_takeBalance {balance : Asset} (h : takeBalance t owner balance value = .ok t') :
    t'.stat = t.stat := by
  rcases takeBalance_ok h with ⟨_, rfl⟩ | ⟨_, _, _, rfl⟩
  · rfl
  · rfl

theorem stat_of_addBalance (h : addBalance t owner value = .ok t') : t'.stat = t.stat := by
  obtain ⟨_, rfl, _⟩ := addBalance_ok h
  rfl

/-! ## 2. Transfers -/

structure CoreSound (t : Tables) : Prop where
  symbol : ∀ st, t.stat.find (symbolName coreSymbol) = some st → st.supply.symbol = coreSymbol
  nonneg : ∀ user, 0 ≤ balanceOf t user
  range : InRange t

section Transfers

variable {fp : Doubles} {c : Ctx} {lock : HddLock.Tables} {deposit : HddDeposit.Tables}
  {t t' : Tables} {sender receiver : Name} {quantity : Asset}

section

variable (h : Transfer fp c lock deposit t sender receiver quantity t')

include h

theorem Transfer.amount (ht : InRange t) (k : Name × UInt64) :
    amountAt t' k = amountAt t k -
      (if k = (sender, symbolName quantity.symbol) then quantity.value else 0) +
      (if k = (receiver, symbolName quantity.symbol) then quantity.value else 0) := by
  obtain ⟨balance, t1, hbalance, _, htake, hadd⟩ := h.moved
  rw [addBalance_amount (ht.takeBalance hbalance htake) hadd k,
    takeBalance_amount htake (ht _ _ hbalance) hbalance k]

theorem Transfer.stat : t'.stat = t.stat := by
  obtain ⟨balance, t1, _, _, htake, hadd⟩ := h.moved
  rw [stat_of_addBalance hadd, stat_of_takeBalance htake]

theorem Transfer.core_of_name
    (ht : CoreSound t) (hname : symbolName quantity.symbol = symbolName coreSymbol) :
    quantity.symbol = coreSymbol := by
  obtain ⟨st, hst, hsym⟩ := h.symbol
  rw [hname] at hst
  rw [hsym]
  exact ht.symbol st hst

theorem Transfer.balance (ht : CoreSound t) (user : Name) :
    balanceOf t' user = balanceOf t user -
      (if user = sender ∧ quantity.symbol = coreSymbol then quantity.value else 0) +
      (if user = receiver ∧ quantity.symbol = coreSymbol then quantity.value else 0) := by
  have hkey : ∀ v : Name, (user, symbolName coreSymbol) = (v, symbolName quantity.symbol) ↔
      user = v ∧ quantity.symbol = coreSymbol := by
    intro v
    constructor
    · intro heq
      obtain ⟨hu, hn⟩ := Prod.mk.inj heq
      exact ⟨hu, h.core_of_name ht hn.symm⟩
    · rintro ⟨rfl, hs⟩
      rw [hs]
  unfold balanceOf
  rw [h.amount ht.range]
  simp only [hkey]

theorem Transfer.coreSound (ht : CoreSound t)
    (hcover : quantity.symbol = coreSymbol → quantity.value ≤ balanceOf t sender) :
    CoreSound t' := by
  refine ⟨?_, ?_, h.inRange ht.range⟩
  · rw [h.stat]
    exact ht.symbol
  · intro user
    have hpos := value_pos h.pos
    have hold := ht.nonneg user
    have hreceived : 0 ≤ if user = receiver ∧ quantity.symbol = coreSymbol then quantity.value
        else 0 := by
      split
      · exact le_of_lt hpos
      · exact le_refl 0
    rw [h.balance ht user]
    by_cases hs : user = sender ∧ quantity.symbol = coreSymbol
    · rw [if_pos hs, hs.1]
      have := hcover hs.2
      rw [hs.1] at hreceived
      omega
    · rw [if_neg hs]
      omega

end

end Transfers

/-! ## 3. Deposits and locks -/

def reserved (deposit : HddDeposit.Tables) (user : Name) : ℤ :=
  (standing deposit.depositpool user).depositTotal.value +
    (standing deposit.depositpool2 user).depositTotal.value

def LocksBounded (fp : Doubles) (lock : HddLock.Tables) : Prop :=
  ∀ time user a, HddLock.getLockAsset fp lock time user = .ok a → 0 ≤ a.value ∧ a.value ≤ 2 ^ 62

theorem locksBounded_plain : LocksBounded .whole Ledger.Env.plain.lock := by
  intro time user a ha
  cases ha
  decide

variable {deposit : HddDeposit.Tables}

theorem reserved_nonneg (h : DepositLaw deposit) (user : Name) : 0 ≤ reserved deposit user := by
  have h1 := h.pools 0 isType_zero user
  have h2 := h.pools 1 isType_one user
  have := h1.free
  have := h1.total
  have := h2.free
  have := h2.total
  show 0 ≤ (standing (deposit.pool 0) user).depositTotal.value +
    (standing (deposit.pool 1) user).depositTotal.value
  omega

variable {r : Asset} {user : Name}

theorem addTotal_ok {pool : Table Name DepositPool} {field : DepositPool → Asset} {deposit : Asset}
    (hzero : (field (standing ∅ user)).value = 0) (h : addTotal pool user field deposit = .ok r)
    (hw : InWindow deposit.amount) :
    r.value = deposit.value + (field (standing pool user)).value ∧ InWindow r.amount := by
  unfold addTotal at h
  rcases hfind : pool.find user with _ | a
  · rw [hfind] at h
    cases h
    have hempty : standing pool user = standing ∅ user := by
      rw [standing, standing, hfind, find_empty]
    rw [hempty, hzero, add_zero]
    exact ⟨rfl, hw⟩
  · rw [hfind] at h
    rw [standing_of_some hfind]
    exact Asset.add_ok h hw

theorem getDeposit_ok (h : getDeposit deposit user = .ok r) :
    r.value = reserved deposit user ∧ InWindow r.amount := by
  simp only [getDeposit, bind_eq_ok] at h
  obtain ⟨r1, h1, h2⟩ := h
  obtain ⟨hv1, hw1⟩ := addTotal_ok rfl h1 (by decide)
  obtain ⟨hv2, hw2⟩ := addTotal_ok rfl h2 hw1
  refine ⟨?_, hw2⟩
  rw [hv2, hv1, reserved]
  show 0 + _ + _ = _
  rw [zero_add]

variable {fp : Doubles} {c : Ctx} {lock : HddLock.Tables} {receiver : Name}

/-- The check of an ordinary transfer leaves the deposits alone. -/
theorem checkReserved_ok {balance : Asset}
    (h : checkReserved fp c lock deposit owner balance value receiver = .ok ())
    (hlock : LocksBounded fp lock) (hlaw : DepositLaw deposit) (hnonneg : 0 ≤ balance.value)
    (hw : InWindow balance.amount) : value.value + reserved deposit owner ≤ balance.value := by
  have hres := reserved_nonneg hlaw owner
  unfold checkReserved at h
  unfold InWindow at hw
  unfold Asset.value at hnonneg
  split at h
  · simp only [ok_iff] at h
    obtain ⟨_, r, hr, _, hle⟩ := h
    obtain ⟨hv, hwr⟩ := getDeposit_ok hr
    unfold InWindow at hwr
    unfold Asset.value at hv ⊢
    have hle' := Int64.le_iff_toInt_le.mp hle
    rw [toInt_sub_of_bounds (by omega) (by omega)] at hle'
    omega
  · simp only [ok_iff] at h
    obtain ⟨_, r, hr, l, hl, _, _, hle⟩ := h
    obtain ⟨hv, hwr⟩ := getDeposit_ok hr
    obtain ⟨hl0, hl1⟩ := hlock _ _ _ hl
    unfold InWindow at hwr
    unfold Asset.value at hv hl0 hl1 ⊢
    have hsum : (r.amount + l.amount).toInt = r.amount.toInt + l.amount.toInt :=
      toInt_add_of_bounds (by omega) (by omega)
    have hle' := Int64.le_iff_toInt_le.mp hle
    rw [toInt_sub_of_bounds (by omega) (by omega), hsum] at hle'
    omega

variable {sender : Name} {quantity : Asset}

/-- A transfer is covered by the balance, and one that is checked leaves the deposits. -/
theorem Paid.covered {balance : Asset} (h : Paid fp c lock deposit sender receiver quantity balance)
    (hlock : LocksBounded fp lock) (hlaw : DepositLaw deposit) (hnonneg : 0 ≤ balance.value)
    (hw : InWindow balance.amount) :
    quantity.value ≤ balance.value ∧
      (quantity.symbol = coreSymbol → isFund sender = false → isForfeit receiver = false →
        quantity.value + reserved deposit sender ≤ balance.value) := by
  cases h with
  | fund h hle =>
    refine ⟨value_le hle, ?_⟩
    intro hsym hfund _
    rcases h with hne | htrue
    · exact absurd hsym hne
    · rw [hfund] at htrue
      cases htrue
  | forfeit _ _ h hle =>
    refine ⟨value_le hle, ?_⟩
    intro _ _ hfalse
    rw [hfalse] at h
    cases h
  | checked _ _ _ h =>
    have hcover := checkReserved_ok h hlock hlaw hnonneg hw
    have hres := reserved_nonneg hlaw sender
    exact ⟨by omega, fun _ _ _ => hcover⟩

theorem Transfer.covered (h : Transfer fp c lock deposit t sender receiver quantity t')
    (ht : CoreSound t) (hlock : LocksBounded fp lock) (hlaw : DepositLaw deposit)
    (hsym : quantity.symbol = coreSymbol) :
    quantity.value ≤ balanceOf t sender ∧
      (isFund sender = false → isForfeit receiver = false →
        quantity.value + reserved deposit sender ≤ balanceOf t sender) := by
  obtain ⟨balance, t1, hbalance, hpaid, _, _⟩ := h.moved
  have hvalue : balanceOf t sender = balance.value := by
    rw [hsym] at hbalance
    exact amountAt_of_some hbalance
  have hnonneg := ht.nonneg sender
  rw [hvalue] at hnonneg ⊢
  obtain ⟨hle, hcover⟩ := hpaid.covered hlock hlaw hnonneg (ht.range _ _ hbalance)
  exact ⟨hle, hcover hsym⟩

/-! ## 4. The sum of all balances -/

def valueIn (sym : UInt64) (k : Name × UInt64) (balance : Asset) : ℤ :=
  if k.2 = sym then balance.value else 0

def circulating (t : Tables) (sym : UInt64) : ℤ := t.accounts.total (valueIn sym)

def coreValue (k : Name × UInt64) (balance : Asset) : ℤ :=
  if k.2 = symbolName coreSymbol then balance.value else 0

def coreTotal (t : Tables) : ℤ := t.accounts.total coreValue

theorem coreTotal_eq (t : Tables) : coreTotal t = circulating t (symbolName coreSymbol) := rfl

theorem valueIn_sub (sym : UInt64) (k : Name × UInt64) {a b : Asset}
    (h : r.value = a.value - b.value) : valueIn sym k r = valueIn sym k a - valueIn sym k b := by
  unfold valueIn
  split
  · exact h
  · rfl

theorem takeBalance_circulating {balance : Asset} (h : takeBalance t owner balance value = .ok t')
    (hw : InWindow balance.amount)
    (hbalance : t.accounts.find (owner, symbolName value.symbol) = some balance) (sym : UInt64) :
    circulating t' sym = circulating t sym - valueIn sym (owner, symbolName value.symbol) value := by
  rcases takeBalance_ok h with ⟨heq, rfl⟩ | ⟨left, _, hleft, rfl⟩
  · have hrow : valueIn sym (owner, symbolName value.symbol) balance =
        valueIn sym (owner, symbolName value.symbol) value := by
      rw [valueIn, valueIn, Asset.value, Asset.value, heq]
    have htotal := total_erase_add (valueIn sym) hbalance
    rw [hrow] at htotal
    exact eq_sub_of_add_eq htotal
  · have htotal := total_put_add left (valueIn sym) hbalance
    rw [valueIn_sub sym _ (Asset.sub_ok hleft hw).1] at htotal
    simp only [circulating]
    omega

theorem addBalance_circulating (ht : InRange t) (h : addBalance t owner value = .ok t')
    (sym : UInt64) :
    circulating t' sym = circulating t sym + valueIn sym (owner, symbolName value.symbol) value := by
  obtain ⟨sum, rfl, ⟨hnone, rfl⟩ | ⟨balance, hbalance, hsum⟩⟩ := addBalance_ok h
  · rw [circulating, total_put_of_none sum (valueIn sym) hnone, add_comm]
    rfl
  · have htotal := total_put_add sum (valueIn sym) hbalance
    have hvalue := (Asset.add_ok hsum (ht _ _ hbalance)).1
    have hrow := valueIn_sub sym (owner, symbolName value.symbol) (eq_sub_of_add_eq' hvalue.symm)
    simp only [circulating]
    omega

theorem Transfer.total (h : Transfer fp c lock deposit t sender receiver quantity t')
    (ht : InRange t) : coreTotal t' = coreTotal t := by
  obtain ⟨balance, t1, hbalance, _, htake, hadd⟩ := h.moved
  rw [coreTotal_eq, coreTotal_eq, addBalance_circulating (ht.takeBalance hbalance htake) hadd,
    takeBalance_circulating htake (ht _ _ hbalance) hbalance]
  exact sub_add_cancel _ _

theorem CoreSound.balance_le (h : CoreSound t) (user : Name) : balanceOf t user ≤ coreTotal t := by
  have hnonneg : ∀ k balance, t.accounts.find k = some balance → 0 ≤ coreValue k balance := by
    rintro ⟨owner, name⟩ balance hk
    unfold coreValue
    split_ifs with hname
    · have howner := h.nonneg owner
      rw [show name = symbolName coreSymbol from hname] at hk
      rwa [balanceOf, amountAt_of_some hk] at howner
    · exact le_refl 0
  rcases hbalance : t.accounts.find (user, symbolName coreSymbol) with _ | balance
  · rw [balanceOf, amountAt, hbalance]
    exact total_nonneg hnonneg
  · have hle := le_total hnonneg hbalance
    rwa [coreValue, if_pos rfl, ← amountAt_of_some hbalance] at hle

def soleHolder (owner : Name) (amount : Int64) : Tables :=
  ⟨(∅ : Table UInt64 CurrencyStats).put (symbolName coreSymbol)
      ⟨⟨amount, coreSymbol⟩, ⟨amount, coreSymbol⟩, 1⟩,
    (∅ : Table (Name × UInt64) Asset).put (owner, symbolName coreSymbol) ⟨amount, coreSymbol⟩⟩

section SoleHolder

variable {owner : Name} {amount : Int64}

theorem balanceOf_soleHolder (user : Name) :
    balanceOf (soleHolder owner amount) user = if user = owner then amount.toInt else 0 := by
  rw [balanceOf, soleHolder, amountAt_put ⟨_, ∅⟩]
  simp only [Prod.mk.injEq, and_true]
  rfl

theorem coreSound_soleHolder (h : InWindow amount) (hnonneg : 0 ≤ amount.toInt) :
    CoreSound (soleHolder owner amount) := by
  refine ⟨?_, ?_, ?_⟩
  · intro st hst
    rw [show (soleHolder owner amount).stat.find (symbolName coreSymbol) = some _ from
      find_put_self _ _ _] at hst
    cases hst
    rfl
  · intro user
    rw [balanceOf_soleHolder]
    split
    · exact hnonneg
    · exact le_refl 0
  · intro k balance hk
    rw [soleHolder, find_put] at hk
    split at hk
    · cases hk
      exact h
    · rw [find_empty] at hk
      cases hk

theorem coreTotal_soleHolder : coreTotal (soleHolder owner amount) = amount.toInt := by
  rw [coreTotal, soleHolder, total_put_of_none _ _ (find_empty _), total_empty,
    add_zero, coreValue, if_pos rfl]
  rfl

end SoleHolder

end YottaChain.Token
