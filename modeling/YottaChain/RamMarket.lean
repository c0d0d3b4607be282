/-
  **The books of the memory market, whatever the prices.**

  What is sold is counted in three places: as the balance the market has left, as the
  total of the reserved memory, and in the rows of the accounts.  What is paid is
  counted as the other balance of the market, as the total stake and as the balance of
  `eosio.ram`.  All counts are kept in 64-bit arithmetic without checks, and agree in
  it (`MarketLaw`); where nothing overflows they agree as numbers.

  Two things can set them apart.  `buyram` takes any token, and one with the symbol of
  the market's own tokens is converted on another way than the books assume.  And
  `eosio.ram` is an account like others, which can stake what it holds.
-/
import YottaChain.EconomyEffects
import YottaChain.StakingEffects

namespace YottaChain.System

open Checked FixedWidth UInt64 Int64

variable {c : Ctx} {env : Env} {s s' : Staking} {t t' : Tables} {u : Table Name UserResources}
  {k receiver : Name} {net cpu : Asset} {market market' : ExchangeState}

/-! ## 1. The memory of all accounts -/

def ramSum (u : Table Name UserResources) : Int64 :=
  Int64.ofInt (u.total fun _ r => r.ramBytes.toInt)

theorem valueAt_ramBytes (u : Table Name UserResources) (k : Name) :
    u.valueAt (fun _ r => r.ramBytes.toInt) k = (rowOf u k).ramBytes.toInt :=
  valueAt_eq_rowOf u k (f := fun r => r.ramBytes.toInt) rfl

theorem ramSum_put (u : Table Name UserResources) (k : Name) (row : UserResources) :
    ramSum (u.put k row) = ramSum u - (rowOf u k).ramBytes + row.ramBytes := by
  have htotal := congrArg Int64.ofInt (u.total_put k row fun _ r => r.ramBytes.toInt)
  rw [valueAt_ramBytes, Int64.ofInt_add, Int64.ofInt_add, ofInt_toInt, ofInt_toInt]
    at htotal
  unfold ramSum
  grind

theorem ramSum_grantRam (u : Table Name UserResources) (k : Name) (bytes : Int64) :
    ramSum (grantRam u k bytes) = ramSum u + bytes := by
  unfold grantRam
  rcases hrow : u.find k with _ | res
  · dsimp only
    rw [ramSum_put, rowOf, hrow]
    dsimp only [Option.getD_none]
    grind
  · dsimp only
    rw [ramSum_put, rowOf, hrow]
    dsimp only [Option.getD_some]
    grind

/-- A change of the stake does not move memory: a row is only erased when it has none. -/
theorem updateTotals_ramSum (h : updateTotals s receiver net cpu = .ok s') :
    ramSum s'.userres = ramSum s.userres := by
  simp only [updateTotals, ok_iff] at h
  obtain ⟨row, hrow, _, _, _, _, zero, _, rfl⟩ := h
  have hbytes : row.ramBytes = (rowOf s.userres receiver).ramBytes := by
    unfold totalled at hrow
    unfold rowOf
    rcases hold : s.userres.find receiver with _ | tot
    · simp only [hold, pure_eq_ok] at hrow
      rw [← hrow]
      rfl
    · simp only [hold, ok_iff] at hrow
      obtain ⟨_, _, _, _, rfl⟩ := hrow
      rfl
  have hzeroed : zero = true ∧ row.ramBytes = 0 → row.ramBytes.toInt = 0 := by
    intro hz
    rw [hz.2, toInt_zero]
  have htotal := Table.total_putOrErase (t := s.userres) (k := receiver) (a := row)
    (f := fun _ r => r.ramBytes.toInt) hzeroed
  rw [valueAt_ramBytes, ← hbytes] at htotal
  exact congrArg Int64.ofInt (add_right_cancel htotal)

/-! ## 2. The law -/

structure MarketLaw (ram : Ram) (u : Table Name UserResources) : Prop where
  sold : ram.totalRamBytesReserved = (ramSum u).toUInt64
  bounded : ram.maxRamSize.toNat < 2 ^ 63
  untraded : ram.rammarket = none → ram.totalRamStake = 0
  symbols : ∀ market, ram.rammarket = some market → Symbols market
  free : ∀ market, ram.rammarket = some market →
    market.base.amount.toUInt64 + ram.totalRamBytesReserved = ram.maxRamSize
  quoted : ∀ market, ram.rammarket = some market →
    InWindow (market.quote.amount - ram.totalRamStake)

def QuoteKept (ram ram' : Ram) : Prop :=
  ∀ market, ram.rammarket = some market → ∃ market', ram'.rammarket = some market' ∧
    market'.quote.amount - ram'.totalRamStake = market.quote.amount - ram.totalRamStake

variable {ram ram' : Ram} {u' : Table Name UserResources}

theorem QuoteKept.refl (ram : Ram) : QuoteKept ram ram := fun market h => ⟨market, h, rfl⟩

theorem QuoteKept.trans {ram1 ram2 ram3 : Ram} (h1 : QuoteKept ram1 ram2)
    (h2 : QuoteKept ram2 ram3) : QuoteKept ram1 ram3 := by
  intro market hmarket
  obtain ⟨market2, hmarket2, hdiff2⟩ := h1 market hmarket
  obtain ⟨market3, hmarket3, hdiff3⟩ := h2 market2 hmarket2
  exact ⟨market3, hmarket3, hdiff3.trans hdiff2⟩

theorem marketLaw_empty : MarketLaw {} ∅ := by
  refine ⟨rfl, by decide, fun _ => rfl, fun market h => ?_, fun market h => ?_, fun market h => ?_⟩
  · cases h
  · cases h
  · cases h

/-- The law survives a change that books memory and stake on both sides of the market. -/
theorem MarketLaw.next (h : MarketLaw ram u) (hmarket : ram.rammarket = some market)
    (hmarket' : ram'.rammarket = some market')
    (hsold : ram'.totalRamBytesReserved = (ramSum u').toUInt64)
    (hbounded : ram'.maxRamSize.toNat < 2 ^ 63) (hsymbols : Symbols market')
    (hfree : market'.base.amount.toUInt64 + ram'.totalRamBytesReserved = ram'.maxRamSize)
    (hdiff : market'.quote.amount - ram'.totalRamStake =
      market.quote.amount - ram.totalRamStake) : MarketLaw ram' u' ∧ QuoteKept ram ram' := by
  refine ⟨⟨hsold, hbounded, fun hnone => ?_, fun x hx => ?_, fun x hx => ?_, fun x hx => ?_⟩,
    fun x hx => ?_⟩
  · rw [hmarket'] at hnone
    cases hnone
  · rw [hmarket'] at hx
    cases hx
    exact hsymbols
  · rw [hmarket'] at hx
    cases hx
    exact hfree
  · rw [hmarket'] at hx
    cases hx
    exact hdiff ▸ h.quoted market hmarket
  · rw [hmarket] at hx
    cases hx
    exact ⟨market', hmarket', hdiff⟩

theorem inWindow_div {x : Int64} (h : 0 < x) : InWindow (x / 1000) := by
  rw [lt_iff_toInt_lt, toInt_zero] at h
  have hthousand : (1000 : Int64).toInt = 1000 := rfl
  have hdiv := toInt_div_of_nonneg (le_of_lt h) (b := 1000) (by decide)
  have hlt := toInt_lt x
  rw [hthousand] at hdiv
  unfold InWindow
  omega

theorem construct_law {token : Token.Tables} (h : MarketLaw ram u)
    (hcall : construct token ram = .ok ram') :
    MarketLaw ram' u ∧ QuoteKept ram ram' ∧ ram'.totalRamStake = ram.totalRamStake := by
  unfold construct at hcall
  rcases hmarket : ram.rammarket with _ | market
  · simp only [hmarket, bind_eq_ok] at hcall
    obtain ⟨supply, _, hcall⟩ := hcall
    split_ifs at hcall with hpos
    · cases hcall
      refine ⟨⟨h.sold, h.bounded, fun hm => ?_, fun m hm => ?_, fun m hm => ?_, fun m hm => ?_⟩,
        fun m hm => ?_, rfl⟩
      · cases hm
      · cases hm
        exact ⟨rfl, rfl, rfl⟩
      · cases hm
        simp only [newMarket, freeRam, toUInt64_toInt64]
        grind
      · cases hm
        simp only [newMarket, h.untraded hmarket, Int64.sub_zero]
        exact inWindow_div hpos
      · rw [hmarket] at hm
        cases hm
    · cases hcall
      exact ⟨h, .refl _, rfl⟩
  · simp only [hmarket, pure_eq_ok] at hcall
    subst hcall
    exact ⟨h, .refl _, rfl⟩

/-! ## 3. Purchases and sales -/

variable {m m' : Memory} {payer account : Name} {quant : Asset} {sent : List Sent}

theorem buyram_law (h : MarketLaw m.ram m.userres) (hcore : quant.symbol = coreSymbol)
    (hcall : buyram env m payer receiver quant = .ok (m', sent)) :
    (MarketLaw m'.ram m'.userres ∧ QuoteKept m.ram m'.ram) ∧
      m'.ram.totalRamStake = m.ram.totalRamStake + (afterFee quant).amount ∧
      sent = buyTransfers payer quant := by
  obtain ⟨_, _, market, out, market', hmarket, hconvert, _, rfl, rfl⟩ := buyram_ok hcall
  have hsold : (afterFee quant).symbol = Side.quote.symbol := hcore
  obtain ⟨_, rfl⟩ := convert_ok (h.symbols market hmarket) .quote hsold hconvert
  refine ⟨h.next hmarket rfl ?_ h.bounded ((h.symbols market hmarket).traded _ _ _) ?_ ?_, rfl, rfl⟩
  · dsimp only
    rw [ramSum_grantRam, Int64.toUInt64_add, h.sold]
  · have hfree := h.free market hmarket
    simp only [ExchangeState.traded, Side.other, ExchangeState.setBalance, ExchangeState.balance,
      Int64.toUInt64_sub]
    grind
  · simp only [ExchangeState.traded, Side.other, ExchangeState.setBalance, ExchangeState.balance]
    grind

theorem buyrambytes_core {bytes : UInt32} (h : MarketLaw m.ram m.userres)
    (hcall : buyrambytes env m payer receiver bytes = .ok (m', sent)) :
    ∃ price : Asset, price.symbol = coreSymbol ∧
      buyram env m payer receiver price = .ok (m', sent) := by
  obtain ⟨market, sold, price, market', hmarket, hsold, hconvert, hbuy⟩ := buyrambytes_ok hcall
  have hprice := convert_ok (h.symbols market hmarket) .base hsold hconvert
  exact ⟨price, hprice.1, hbuy⟩

theorem sellram_law {bytes : Int64} (h : MarketLaw m.ram m.userres)
    (hcall : sellram env m account bytes = .ok (m', sent)) :
    (MarketLaw m'.ram m'.userres ∧ QuoteKept m.ram m'.ram) ∧
      ∃ out fee : Asset, out.symbol = coreSymbol ∧ sent = sellTransfers account out fee ∧
        m'.ram.totalRamStake = m.ram.totalRamStake - out.amount ∧ 0 ≤ m'.ram.totalRamStake := by
  obtain ⟨_, _, res, market, sold, out, market', fee, hres, _, hmarket, hsold, rfl, hconvert, _,
    hstake, rfl, _, hsent⟩ := sellram_ok hcall
  obtain ⟨hout, rfl⟩ := convert_ok (h.symbols market hmarket) .base hsold hconvert
  refine ⟨h.next hmarket rfl ?_ h.bounded ((h.symbols market hmarket).traded _ _ _) ?_ ?_, out, fee,
    hout, hsent, rfl, hstake⟩
  · dsimp only
    rw [ramSum_put, rowOf, hres, h.sold]
    dsimp only [Option.getD_some]
    rw [Int64.toUInt64_add, Int64.toUInt64_sub, Int64.toUInt64_sub]
    grind
  · have hfree := h.free market hmarket
    simp only [ExchangeState.traded, Side.other, ExchangeState.setBalance, ExchangeState.balance,
      Int64.toUInt64_add]
    grind
  · simp only [ExchangeState.traded, Side.other, ExchangeState.setBalance, ExchangeState.balance]
    grind

theorem setram_law {maxRamSize : UInt64} (h : MarketLaw ram u)
    (hcall : setram c ram maxRamSize = .ok ram') :
    (MarketLaw ram' u ∧ QuoteKept ram ram') ∧ ram'.totalRamStake = ram.totalRamStake := by
  obtain ⟨hbounded, market, hmarket, rfl⟩ := setram_ok hcall
  have hsymbols := h.symbols market hmarket
  refine ⟨h.next hmarket rfl h.sold hbounded ⟨hsymbols.supply, hsymbols.base, hsymbols.quote⟩ ?_ rfl,
    rfl⟩
  have hfree := h.free market hmarket
  simp only [ExchangeState.setBalance, Int64.toUInt64_add, Int64.toUInt64_sub, toUInt64_toInt64]
  grind

/-! ## 4. The books as numbers -/

/-- What is left and what is sold make up the whole, counted modulo `2 ^ 64`. -/
theorem MarketLaw.free_mod (h : MarketLaw ram u) (hmarket : ram.rammarket = some market) :
    (market.base.value + ram.totalRamBytesReserved.toNat) % 2 ^ 64 = ram.maxRamSize.toNat := by
  have hbase := toNat_toUInt64 market.base.amount
  rw [← h.free market hmarket, UInt64.toNat_add]
  unfold Asset.value
  omega

/-- As long as no more is sold than there is, they make up the whole. -/
theorem MarketLaw.free_exact (h : MarketLaw ram u) (hmarket : ram.rammarket = some market)
    (hle : ram.totalRamBytesReserved ≤ ram.maxRamSize) :
    market.base.value + ram.totalRamBytesReserved.toNat = ram.maxRamSize.toNat := by
  have hmod := h.free_mod hmarket
  have hbounded := h.bounded
  have hbase := toInt_bounds market.base.amount
  rw [le_iff_toNat_le] at hle
  unfold Asset.value at *
  omega

theorem MarketLaw.sold_mod (h : MarketLaw ram u) :
    (ram.totalRamBytesReserved.toNat : ℤ) = (u.total fun _ r => r.ramBytes.toInt) % 2 ^ 64 := by
  rw [h.sold, ramSum, toNat_toUInt64_ofInt]

theorem MarketLaw.quote_exact (h : MarketLaw ram u) (hmarket : ram.rammarket = some market)
    (hstake : InWindow ram.totalRamStake) :
    market.quote.value - ram.totalRamStake.toInt =
      (market.quote.amount - ram.totalRamStake).toInt := by
  have hquoted := h.quoted market hmarket
  have hadd : (market.quote.amount - ram.totalRamStake + ram.totalRamStake).toInt =
      (market.quote.amount - ram.totalRamStake).toInt + ram.totalRamStake.toInt := by
    unfold InWindow at *
    exact toInt_add_of_bounds (by omega) (by omega)
  rw [Int64.sub_add_cancel] at hadd
  unfold Asset.value
  omega

end YottaChain.System

namespace YottaChain.Economy

open Checked FixedWidth YottaChain.System

variable {env : System.Env} {st st' : State} {t t' : Tables} {out : List Sent}

/-! ## 5. Transactions -/

/-- The actions about memory and stakes.  A purchase is paid in the core token, and
    `eosio.ram` does not stake what it holds. -/
def MarketAction : Action → Prop
  | .buyram _ _ quant => quant.symbol = coreSymbol
  | .delegatebw source _ _ _ _ => source ≠ ramAccount
  | .buyrambytes .. | .sellram .. | .setram _ | .undelegatebw .. | .newaccount .. => True
  | _ => False

def MarketRequest (_ : State) (m : Message) : Prop := ∃ a, m.request = .system a ∧ MarketAction a

/-- What such an action leaves: the law, and the tokens it has sent for. -/
structure Traded (t t' : Tables) (out : List Sent) : Prop where
  law : MarketLaw t'.ram t'.staking.userres ∧ QuoteKept t.ram t'.ram
  refunds : RefundsHeld t'.staking
  plain : ∀ x ∈ out, Plain (.ofSent x)
  stake : (∀ x ∈ out, Executable (.ofSent x)) →
    t'.ram.totalRamStake = t.ram.totalRamStake + Int64.ofInt (due ramAccount (out.map .ofSent)) ∧
      (0 ≤ t'.ram.totalRamStake ∨ 0 ≤ due ramAccount (out.map .ofSent))

theorem traded_aside (hlaw : MarketLaw t'.ram t'.staking.userres ∧ QuoteKept t.ram t'.ram)
    (hrefunds : RefundsHeld t'.staking) (hstake : t'.ram.totalRamStake = t.ram.totalRamStake)
    (hout : ∀ x ∈ out, Plain (.ofSent x) ∧ incoming ramAccount (.ofSent x) = 0) :
    Traded t t' out := by
  refine ⟨hlaw, hrefunds, fun x hx => (hout x hx).1, fun _ => ?_⟩
  have hzero : due ramAccount (out.map .ofSent) = 0 := by
    apply due_eq_zero
    intro y hy
    obtain ⟨x, hx, rfl⟩ := List.mem_map.mp hy
    exact (hout x hx).2
  rw [hzero, hstake]
  exact ⟨(Int64.add_zero _).symm, .inr (le_refl 0)⟩

variable {payer : Name} {quant : Asset}

theorem due_buyTransfers (hcore : quant.symbol = coreSymbol) (hpayer : payer ≠ ramAccount) :
    due ramAccount ((buyTransfers payer quant).map .ofSent) = (afterFee quant).value := by
  have hfee : ramAccount ≠ ramfeeAccount := by decide
  have hsymbol : (afterFee quant).symbol = coreSymbol := hcore
  unfold buyTransfers
  rw [List.map_cons, due_cons, incoming_receiver _ _ hsymbol hpayer.symm]
  split
  · rw [List.map_singleton, due_cons, due_nil, incoming_other _ _ _ hpayer.symm hfee, add_zero,
      add_zero]
  · rw [List.map_nil, due_nil, add_zero]

theorem due_sellTransfers {account : Name} {paid fee : Asset} (hcore : paid.symbol = coreSymbol)
    (haccount : ramAccount ≠ account) :
    due ramAccount ((sellTransfers account paid fee).map .ofSent) = -paid.value := by
  have hfee : ramAccount ≠ ramfeeAccount := by decide
  unfold sellTransfers
  rw [List.map_cons, due_cons, incoming_sender _ _ hcore haccount]
  split
  · rw [List.map_singleton, due_cons, due_nil, incoming_other _ _ _ haccount hfee, add_zero,
      add_zero]
  · rw [List.map_nil, due_nil, add_zero]

variable {receiver : Name}

theorem traded_buyram {m : Memory} (hlaw : MarketLaw t.ram t.staking.userres)
    (hrefunds : RefundsHeld t.staking) (hcore : quant.symbol = coreSymbol)
    (hcall : buyram env t.memory payer receiver quant = .ok (m, out))
    (ht' : t' = { t with ram := m.ram, staking := { t.staking with userres := m.userres } }) :
    Traded t t' out := by
  obtain ⟨hlaw', hstake, rfl⟩ := buyram_law (m := t.memory) hlaw hcore hcall
  subst ht'
  refine ⟨hlaw', hrefunds, fun x hx => ?_, fun hexecutable => ?_⟩
  · rcases mem_buyTransfers hx with rfl | rfl
    · exact plain_of_memo _ _ _ _ (by decide)
    · exact plain_of_memo _ _ _ _ (by decide)
  · obtain ⟨hne, _, hpos⟩ : payer ≠ ramAccount ∧ InWindow (afterFee quant).amount ∧
        0 < (afterFee quant).amount := hexecutable _ List.mem_cons_self
    rw [due_buyTransfers hcore hne, Asset.value, Int64.ofInt_toInt]
    rw [Int64.lt_iff_toInt_lt, Int64.toInt_zero] at hpos
    exact ⟨hstake, .inr (le_of_lt hpos)⟩

theorem traded_changebw {a : Stakes} {net cpu : Asset} {source : Name} {transfer : Bool} {c : Ctx}
    {deposit : HddDeposit.Tables} (hlaw : MarketLaw t.ram t.staking.userres)
    (hrefunds : RefundsHeld t.staking) (hchange : StakeChange net cpu)
    (hsource : source ≠ ramAccount ∨ (net.value ≤ 0 ∧ cpu.value ≤ 0))
    (hcall : changebw c deposit t.stakes source receiver net cpu transfer = .ok (a, out))
    (ht' : t' = { t with staking := a.staking, election := a.election }) : Traded t t' out := by
  obtain ⟨_, _, s1, s2, hs1, hs2, hsettle, _⟩ := changebw_ok hcall
  have hframe1 := updateDelegation_frame hs1
  have hframe2 := updateTotals_frame hs2
  have hrefunds2 : RefundsHeld s2 := by
    rw [hframe2, hframe1]
    exact hrefunds
  have hsum : ramSum a.staking.userres = ramSum t.staking.userres := by
    rw [settle_frame hchange hrefunds2 hsettle]
    exact (updateTotals_ramSum hs2).trans (by rw [hframe1]; rfl)
  obtain ⟨rest, hout, hnone⟩ := settle_sent hchange hrefunds2 hsettle
  subst ht'
  refine traded_aside ⟨⟨hlaw.sold.trans (by rw [hsum]), hlaw.bounded, hlaw.untraded, hlaw.symbols,
    hlaw.free, hlaw.quoted⟩, .refl _⟩ (settle_held hchange hrefunds2 hsettle) rfl fun x hx => ?_
  rcases hsource with hsource | ⟨hnet, hcpu⟩
  · have hstakeAccount : ramAccount ≠ stakeAccount := by decide
    rw [hout] at hx
    unfold stakeTransfer at hx
    split at hx
    · rw [List.mem_singleton.mp hx]
      exact ⟨plain_of_memo _ _ _ _ (by decide), incoming_other _ _ _ hsource.symm hstakeAccount⟩
    · cases hx
  · rw [hnone hnet hcpu] at hx
    cases hx

theorem dispatch_traded {a : Action} (ha : MarketAction a)
    (hlaw : MarketLaw t.ram t.staking.userres) (hrefunds : RefundsHeld t.staking)
    (hcall : dispatch env t a = .ok (t', out)) : Traded t t' out := by
  cases a with
  | buyram =>
    obtain ⟨hbuy, ht'⟩ := withMemory_ok hcall
    exact traded_buyram hlaw hrefunds ha hbuy ht'
  | buyrambytes =>
    obtain ⟨hbytes, ht'⟩ := withMemory_ok hcall
    obtain ⟨price, hcore, hbuy⟩ := buyrambytes_core (m := t.memory) hlaw hbytes
    exact traded_buyram hlaw hrefunds hcore hbuy ht'
  | sellram account =>
    obtain ⟨hsell, ht'⟩ := withMemory_ok hcall
    obtain ⟨hlaw', paid, fee, hcore, rfl, hstake, hnonneg⟩ := sellram_law (m := t.memory) hlaw hsell
    rw [ht']
    refine ⟨hlaw', hrefunds, fun x hx => ?_, fun hexecutable => ⟨?_, .inl hnonneg⟩⟩
    · rcases mem_sellTransfers hx with rfl | rfl
      · exact plain_of_memo _ _ _ _ (by decide)
      · exact plain_of_memo _ _ _ _ (by decide)
    · have hne : ramAccount ≠ account := (hexecutable _ List.mem_cons_self).1
      rw [due_sellTransfers hcore hne, Asset.value, Int64.ofInt_neg, Int64.ofInt_toInt,
        ← Int64.sub_eq_add_neg]
      exact hstake
  | setram =>
    simp only [dispatch, ok_iff] at hcall
    obtain ⟨ram, hset, rfl, rfl⟩ := hcall
    obtain ⟨hlaw', hstake⟩ := setram_law hlaw hset
    refine traded_aside hlaw' hrefunds hstake fun x hx => ?_
    cases hx
  | newaccount _ newact =>
    simp only [dispatch, newaccount, ok_iff] at hcall
    obtain ⟨_, _, userres, ⟨hnone, rfl⟩, rfl, rfl⟩ := hcall
    have hsum : ramSum (t.staking.userres.put newact {}) = ramSum t.staking.userres := by
      rw [ramSum_put, rowOf, hnone]
      dsimp only [Option.getD_none]
      grind
    refine traded_aside ⟨⟨hlaw.sold.trans (by rw [hsum]), hlaw.bounded, hlaw.untraded, hlaw.symbols,
      hlaw.free, hlaw.quoted⟩, .refl _⟩ hrefunds rfl fun x hx => ?_
    cases hx
  | delegatebw =>
    obtain ⟨hbw, ht'⟩ := withStakes_ok hcall
    obtain ⟨hchange, _, _, hchangebw⟩ := delegatebw_ok hbw
    exact traded_changebw hlaw hrefunds hchange (.inl ha) hchangebw ht'
  | undelegatebw =>
    obtain ⟨hbw, ht'⟩ := withStakes_ok hcall
    obtain ⟨hchange, hneg, hchangebw⟩ := undelegatebw_ok hbw
    have hsign := hchange.sameSign
    exact traded_changebw hlaw hrefunds hchange (.inr (by omega)) hchangebw ht'
  | _ => cases ha

/-- The law holds, and the total stake is what `eosio.ram` has besides what it had. -/
structure MarketBacked (before : ℤ) (st : State) : Prop where
  inRange : Token.InRange st.ledger.token
  refunds : RefundsHeld st.system.staking
  law : MarketLaw st.system.ram st.system.staking.userres
  backed : st.system.ram.totalRamStake =
    Int64.ofInt (Token.balanceOf st.ledger.token ramAccount - before)
  nonneg : 0 ≤ st.system.ram.totalRamStake.toInt

variable {before : ℤ}

theorem toInt_stake {balance : ℤ} (hbalance : -(2 ^ 62 - 1) ≤ balance ∧ balance ≤ 2 ^ 62 - 1)
    (hbefore : -(2 ^ 62 - 1) ≤ before ∧ before ≤ 2 ^ 62 - 1) :
    (Int64.ofInt (balance - before)).toInt = balance - before :=
  Int64.toInt_ofInt_of_le (by omega) (by omega)

theorem MarketBacked.stake_exact (h : MarketBacked before st)
    (hbefore : -(2 ^ 62 - 1) ≤ before ∧ before ≤ 2 ^ 62 - 1) :
    st.system.ram.totalRamStake.toInt = Token.balanceOf st.ledger.token ramAccount - before := by
  rw [h.backed, toInt_stake (Token.balanceOf_bounds h.inRange _) hbefore]

theorem MarketBacked.step (hbefore : -(2 ^ 62 - 1) ≤ before ∧ before ≤ 2 ^ 62 - 1)
    (h : MarketBacked before st) (hstep : TxStep MarketRequest st st') :
    MarketBacked before st' ∧ QuoteKept st.system.ram st'.system.ram := by
  obtain ⟨env, depth, m, ⟨a, hrequest, ha⟩, hrun⟩ := hstep
  have htraded : ∀ t out, System.apply (acting env st m.auths) st.system a = .ok (t, out) →
      Traded st.system t out := by
    intro t out hcall
    simp only [System.apply, bind_eq_ok] at hcall
    obtain ⟨ram, hconstruct, hcall⟩ := hcall
    obtain ⟨hlaw, hkept, hstake⟩ := construct_law h.law hconstruct
    have hdone := dispatch_traded (t := { st.system with ram := ram }) ha hlaw h.refunds hcall
    refine ⟨⟨hdone.law.1, hkept.trans hdone.law.2⟩, hdone.refunds, hdone.plain, ?_⟩
    rw [← hstake]
    exact hdone.stake
  obtain ⟨out, hcall, hexecutable, hrange, hbalance⟩ :=
    exec_system hrequest h.inRange (fun t out hcall => (htraded t out hcall).plain) hrun
  have hdone := htraded st'.system out hcall
  obtain ⟨hstake, hnonneg⟩ := hdone.stake hexecutable
  have hbacked : st'.system.ram.totalRamStake =
      Int64.ofInt (Token.balanceOf st'.ledger.token ramAccount - before) := by
    rw [hstake, h.backed, ← Int64.ofInt_add, hbalance ramAccount]
    congr 1
    omega
  refine ⟨⟨hrange, hdone.refunds, hdone.law.1, hbacked, ?_⟩, hdone.law.2⟩
  rcases hnonneg with hnonneg | hdue
  · rw [Int64.le_iff_toInt_le, Int64.toInt_zero] at hnonneg
    exact hnonneg
  · have hold := h.stake_exact hbefore
    have hpos := h.nonneg
    rw [hbacked, toInt_stake (Token.balanceOf_bounds hrange _) hbefore, hbalance ramAccount]
    omega

theorem MarketBacked.run (hbefore : -(2 ^ 62 - 1) ≤ before ∧ before ≤ 2 ^ 62 - 1)
    (h : MarketBacked before st) (hrun : Run.Steps (TxStep MarketRequest) st st') :
    MarketBacked before st' ∧ QuoteKept st.system.ram st'.system.ram := by
  refine Run.invariant (P := fun x => MarketBacked before x ∧ QuoteKept st.system.ram x.system.ram)
    ?_ ⟨h, .refl _⟩ hrun
  rintro x y ⟨hx, hkept⟩ hstep
  obtain ⟨hy, hnext⟩ := hx.step hbefore hstep
  exact ⟨hy, hkept.trans hnext⟩

/-- The balance of the market is the stake and a constant, as numbers, if `eosio.ram` had
    no debt. -/
theorem MarketBacked.quote_exact {market : ExchangeState} (h : MarketBacked before st)
    (hbefore : 0 ≤ before ∧ before ≤ 2 ^ 62 - 1) (hmarket : st.system.ram.rammarket = some market) :
    market.quote.value - st.system.ram.totalRamStake.toInt =
      (market.quote.amount - st.system.ram.totalRamStake).toInt := by
  apply h.law.quote_exact hmarket
  have hstake := h.stake_exact ⟨by omega, hbefore.2⟩
  have hbalance := Token.balanceOf_bounds h.inRange ramAccount
  have hnonneg := h.nonneg
  unfold InWindow
  omega

/-- **The books of the memory market.**  Whatever transactions have left in the ledger and
    whatever the prices, when the system contract starts with empty tables and executes
    actions about memory and stakes, then as soon as there is a market: what is left and what
    is sold make up the whole, what is sold is the sum over the accounts, the total stake is
    what `eosio.ram` was paid less what it paid, the balance of the market moves with the
    total stake from then on, and no conversion changes the supply of shares. -/
theorem ram_market_accounts {fp : Doubles} {w : Ledger.World} {market : ExchangeState}
    (hledger : Run.Steps (Ledger.TxStep fp fun _ _ _ => True) .empty w)
    (hrun : Run.Steps (TxStep MarketRequest) ⟨w, {}⟩ st)
    (hmarket : st.system.ram.rammarket = some market) :
    (market.base.value + st.system.ram.totalRamBytesReserved.toNat) % 2 ^ 64 =
      st.system.ram.maxRamSize.toNat ∧
    (st.system.ram.totalRamBytesReserved ≤ st.system.ram.maxRamSize →
      market.base.value + st.system.ram.totalRamBytesReserved.toNat =
        st.system.ram.maxRamSize.toNat) ∧
    (st.system.ram.totalRamBytesReserved.toNat : ℤ) =
      (st.system.staking.userres.total fun _ r => r.ramBytes.toInt) % 2 ^ 64 ∧
    st.system.ram.totalRamStake.toInt =
      Token.balanceOf st.ledger.token ramAccount - Token.balanceOf w.token ramAccount ∧
    (∀ st', Run.Steps (TxStep MarketRequest) st st' →
      ∃ market', st'.system.ram.rammarket = some market' ∧
        market'.quote.amount - st'.system.ram.totalRamStake =
          market.quote.amount - st.system.ram.totalRamStake ∧
        (0 ≤ Token.balanceOf w.token ramAccount →
          market'.quote.value - st'.system.ram.totalRamStake.toInt =
            market.quote.value - st.system.ram.totalRamStake.toInt)) ∧
    ∀ pricing depth side sold received market', sold.symbol = Side.symbol side →
      market.convert pricing depth sold side.other.symbol = .ok (received, market') →
      market'.supply = market.supply := by
  have hrange := Ledger.inRange_run hledger
  have hbefore := Token.balanceOf_bounds hrange ramAccount
  have hstart : MarketBacked (Token.balanceOf w.token ramAccount) ⟨w, {}⟩ := by
    refine ⟨hrange, ?_, marketLaw_empty, ?_, le_refl 0⟩
    · intro u r hr
      cases hr
    · rw [sub_self]
      rfl
  have hend := (hstart.run hbefore hrun).1
  refine ⟨hend.law.free_mod hmarket, hend.law.free_exact hmarket, hend.law.sold_mod,
    hend.stake_exact hbefore, fun st' hrest => ?_, ?_⟩
  · obtain ⟨hlast, hkept⟩ := hend.run hbefore hrest
    obtain ⟨market', hmarket', hdiff⟩ := hkept market hmarket
    refine ⟨market', hmarket', hdiff, fun hnonneg => ?_⟩
    rw [hlast.quote_exact ⟨hnonneg, hbefore.2⟩ hmarket', hend.quote_exact ⟨hnonneg, hbefore.2⟩ hmarket,
      hdiff]
  · intro pricing depth side sold received market' hsold hconvert
    obtain ⟨_, rfl⟩ := convert_ok (hend.law.symbols market hmarket) side hsold hconvert
    cases side with
    | base | quote => rfl

/-! ## 6. Runs -/

structure Books where
  free : ℤ
  sold : ℕ
  size : ℕ
  booked : ℤ
  stake : ℤ
  paid : ℤ
deriving DecidableEq

def books (w : Ledger.World) (st : State) (market : ExchangeState) : Books where
  free := market.base.value
  sold := st.system.ram.totalRamBytesReserved.toNat
  size := st.system.ram.maxRamSize.toNat
  booked := st.system.staking.userres.total fun _ r => r.ramBytes.toInt
  stake := st.system.ram.totalRamStake.toInt
  paid := Token.balanceOf st.ledger.token ramAccount - Token.balanceOf w.token ramAccount

/-- A ledger where alice has core tokens, and tokens that are called like memory. -/
def marketLedger : Checked Ledger.World :=
  Ledger.execs .whole .plain 4 .empty
    [⟨[Token.self], .create (N "issuer") (.core 1000000000)⟩,
      ⟨[N "issuer"], .issue (N "alice") (.core 800000) []⟩,
      ⟨[Token.self], .create (N "issuer") ⟨1000000, ramSymbol⟩⟩,
      ⟨[N "issuer"], .issue (N "alice") ⟨5000, ramSymbol⟩ []⟩]

def tradeRun (env : System.Env) (ms : List Message) : Checked Books := do
  let w ← marketLedger
  let st ← execs env 4 ⟨w, {}⟩ ms
  match st.system.ram.rammarket with
  | none => .error "no market"
  | some market => pure (books w st market)

def Reached (allowed : State → Message → Prop) (b : Books) : Prop :=
  ∃ w st market, Run.Steps (Ledger.TxStep .whole fun _ _ _ => True) .empty w ∧
    Run.Steps (TxStep allowed) ⟨w, {}⟩ st ∧ st.system.ram.rammarket = some market ∧
    books w st market = b

theorem reached_of_run {allowed : State → Message → Prop} {ms : List Message} {b : Books}
    (hall : ∀ m ∈ ms, ∀ st, allowed st m) (h : tradeRun env ms = .ok b) : Reached allowed b := by
  simp only [tradeRun, bind_eq_ok] at h
  obtain ⟨w, hw, st, hst, h⟩ := h
  rcases hmarket : st.system.ram.rammarket with _ | market
  · rw [hmarket] at h
    cases h
  · rw [hmarket] at h
    exact ⟨w, st, market, Ledger.execs_steps (fun _ _ _ => trivial) hw, execs_steps hall hst, hmarket,
      pure_eq_ok.mp h⟩

def alicePays (quant : Asset) : Message :=
  ⟨[N "alice"], .system (.buyram (N "alice") (N "alice") quant)⟩

def aliceSells (bytes : Int64) : Message := ⟨[N "alice"], .system (.sellram (N "alice") bytes)⟩

theorem ram_market_accounts_sample : ∃ (w : Ledger.World) (st : State) (market : ExchangeState),
    books w st market = ⟨68719476141, 595, 68719476736, 595, 595, 595⟩ ∧
    market.base.value + st.system.ram.totalRamBytesReserved.toNat =
      st.system.ram.maxRamSize.toNat := by
  have hall : ∀ m ∈ [alicePays (.core 1000), aliceSells 400], ∀ st, MarketRequest st m := by
    simp [MarketRequest, MarketAction, alicePays, aliceSells, Asset.core]
  have hbooks : tradeRun (.plain 5 0) [alicePays (.core 1000), aliceSells 400] =
      .ok ⟨68719476141, 595, 68719476736, 595, 595, 595⟩ := by
    decide +kernel
  obtain ⟨w, st, market, hledger, hrun, hmarket, hbooks⟩ := reached_of_run hall hbooks
  have hsold : st.system.ram.totalRamBytesReserved.toNat = 595 := congrArg Books.sold hbooks
  have hsize : st.system.ram.maxRamSize.toNat = 68719476736 := congrArg Books.size hbooks
  have hle : st.system.ram.totalRamBytesReserved ≤ st.system.ram.maxRamSize := by
    rw [UInt64.le_iff_toNat_le, hsold, hsize]
    decide
  exact ⟨w, st, market, hbooks, (ram_market_accounts hledger hrun hmarket).2.1 hle⟩

def memoryAction : Action → Bool
  | .buyram .. | .buyrambytes .. | .sellram .. | .setram _ | .delegatebw .. | .undelegatebw ..
  | .newaccount .. => true
  | _ => false

def MemoryRequest (_ : State) (m : Message) : Prop :=
  ∃ a, m.request = .system a ∧ memoryAction a = true

def generous : System.Env :=
  { Env.plain 5 0 with pricing := ⟨fun _ _ paid => paid, fun _ _ _ => 2 ^ 62 - 1⟩ }

/-- What can go wrong.  With prices that are too generous the counts wrap around.  When
    `eosio.ram` stakes, it has less than the total stake.  When memory is paid with tokens
    called like memory, the market sells what it has just been paid, and `eosio.ram` gets
    no core tokens. -/
theorem ram_market_unbalanced :
    (∃ b, Reached MemoryRequest b ∧ b.free + b.sold ≠ b.size ∧ (b.sold : ℤ) ≠ b.booked) ∧
    (∃ b, Reached MemoryRequest b ∧ b.stake ≠ b.paid) ∧
    ∃ b, Reached MemoryRequest b ∧ b.sold ≤ b.size ∧ b.free + b.sold ≠ b.size ∧
      b.stake ≠ b.paid := by
  refine ⟨⟨⟨4611686087146864643, 13835058055282163709, 68719476736, -4611686018427387907, 2985, 2985⟩,
    ?_, by decide, by decide⟩, ⟨⟨68719475741, 995, 68719476736, 995, 995, 845⟩, ?_, by decide⟩,
    ⟨68719476736, 995, 68719476736, 995, 995, 0⟩, ?_, by decide, by decide, by decide⟩
  · have hrun : tradeRun generous
        [alicePays (.core 1000), alicePays (.core 1000), alicePays (.core 1000)] =
        .ok ⟨4611686087146864643, 13835058055282163709, 68719476736, -4611686018427387907, 2985,
          2985⟩ := by
      decide +kernel
    exact reached_of_run (by simp [MemoryRequest, memoryAction, alicePays]) hrun
  · have hrun : tradeRun (.plain 5 0) [alicePays (.core 1000),
        ⟨[ramAccount], .system (.delegatebw ramAccount (N "alice") (.core 100) (.core 50) false)⟩] =
        .ok ⟨68719475741, 995, 68719476736, 995, 995, 845⟩ := by
      decide +kernel
    exact reached_of_run (by simp [MemoryRequest, memoryAction, alicePays]) hrun
  · have hrun : tradeRun (.plain 5 0) [alicePays ⟨1000, ramSymbol⟩] =
        .ok ⟨68719476736, 995, 68719476736, 995, 995, 0⟩ := by
      decide +kernel
    exact reached_of_run (by simp [MemoryRequest, memoryAction, alicePays]) hrun

end YottaChain.Economy
