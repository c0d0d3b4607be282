/-
  **What a successful purchase or sale of memory does.**

  A conversion between memory and the core token passes through the share token:
  the shares issued by its first half are the shares retired by its second, so the
  supply of shares is what it was, whatever the pricing (`convert_ok`).
-/
import YottaChain.SystemRun

namespace YottaChain.System

open Checked

variable {env : Env} {m m' : Memory} {market market' : ExchangeState} {payer receiver account : Name}
  {quant : Asset} {sent : List Sent} {pricing : Pricing}

/-! ## 1. Conversions -/

structure Symbols (m : ExchangeState) : Prop where
  supply : m.supply.symbol = ramcoreSymbol
  base : m.base.symbol = ramSymbol
  quote : m.quote.symbol = coreSymbol

theorem symbols_distinct : ramSymbol ≠ ramcoreSymbol ∧ coreSymbol ≠ ramcoreSymbol ∧
    coreSymbol ≠ ramSymbol := by decide

def Side.symbol : Side → UInt64
  | .base => ramSymbol
  | .quote => coreSymbol

def Side.other : Side → Side
  | .base => .quote
  | .quote => .base

/-- The market after a conversion: the amount paid is added on one side, the amount
    received is taken from the other. -/
def ExchangeState.traded (m : ExchangeState) (side : Side) (paid received : Int64) :
    ExchangeState :=
  (m.setBalance side ((m.balance side).amount + paid)).setBalance side.other
    ((m.balance side.other).amount - received)

section

variable (h : Symbols market) (side : Side)

include h side

theorem Symbols.traded (paid received : Int64) : Symbols (market.traded side paid received) := by
  cases side with
  | base | quote => exact ⟨h.supply, h.base, h.quote⟩

variable {shares sold : Asset}

theorem convertOnce_toExchange {target : UInt64} (hsold : sold.symbol = side.symbol)
    (hcall : market.convertOnce pricing sold target = .ok (shares, market')) :
    shares.symbol = ramcoreSymbol ∧
      market' = (market.setSupply (market.supply.amount + shares.amount)).setBalance side
        ((market.balance side).amount + sold.amount) := by
  obtain ⟨hbase, hquote, hne⟩ := symbols_distinct
  have hto : market.convertToExchange pricing side sold = .ok (shares, market') := by
    cases side with
    | base =>
      rw [ExchangeState.convertOnce, hsold, h.supply, h.base, Side.symbol, if_pos hbase,
        if_pos rfl] at hcall
      exact hcall
    | quote =>
      rw [ExchangeState.convertOnce, hsold, h.supply, h.base, h.quote, Side.symbol, if_pos hquote,
        if_neg hne, if_pos rfl] at hcall
      exact hcall
  simp only [ExchangeState.convertToExchange, Asset.make, ok_iff] at hto
  obtain ⟨_, ⟨_, _, rfl⟩, rfl, rfl⟩ := hto
  exact ⟨h.supply, rfl⟩

variable {received : Asset}

theorem convertOnce_fromExchange (hshares : shares.symbol = ramcoreSymbol)
    (hcall : market.convertOnce pricing shares side.symbol = .ok (received, market')) :
    received.symbol = side.symbol ∧
      market' = (market.setSupply (market.supply.amount - shares.amount)).setBalance side
        ((market.balance side).amount - received.amount) := by
  obtain ⟨_, _, hne⟩ := symbols_distinct
  have hfrom : market.convertFromExchange pricing side shares = .ok (received, market') := by
    cases side with
    | base =>
      rw [ExchangeState.convertOnce, hshares, h.supply, h.base, Side.symbol,
        if_neg (not_not_intro rfl), if_pos rfl] at hcall
      exact hcall
    | quote =>
      rw [ExchangeState.convertOnce, hshares, h.supply, h.base, h.quote, Side.symbol,
        if_neg (not_not_intro rfl), if_neg hne, if_pos rfl] at hcall
      exact hcall
  simp only [ExchangeState.convertFromExchange, Asset.make, ok_iff] at hfrom
  obtain ⟨_, _, ⟨_, _, rfl⟩, rfl, rfl⟩ := hfrom
  refine ⟨?_, rfl⟩
  cases side with
  | base => exact h.base
  | quote => exact h.quote

/-- A complete conversion between memory and the core token: the balances change by what
    is paid and received, and the supply of shares does not change. -/
theorem convert_ok {depth : ℕ} (hsold : sold.symbol = side.symbol)
    (hcall : market.convert pricing depth sold side.other.symbol = .ok (received, market')) :
    received.symbol = side.other.symbol ∧
      market' = market.traded side sold.amount received.amount := by
  obtain ⟨hbase, hquote, _⟩ := symbols_distinct
  cases depth with | zero => cases hcall | succ depth => ?_
  rw [ExchangeState.convert, bind_eq_ok] at hcall
  obtain ⟨⟨shares, market1⟩, honce, hcall⟩ := hcall
  obtain ⟨hshares, rfl⟩ := convertOnce_toExchange h side hsold honce
  have htarget : side.other.symbol ≠ shares.symbol := by
    rw [hshares]
    cases side with
    | base => exact hquote
    | quote => exact hbase
  dsimp only at hcall
  rw [if_pos htarget] at hcall
  cases depth with | zero => cases hcall | succ depth => ?_
  rw [ExchangeState.convert, bind_eq_ok] at hcall
  obtain ⟨⟨received1, market2⟩, htwice, hcall⟩ := hcall
  have hsymbols : Symbols ((market.setSupply (market.supply.amount + shares.amount)).setBalance side
      ((market.balance side).amount + sold.amount)) := by
    cases side with
    | base | quote => exact ⟨h.supply, h.base, h.quote⟩
  obtain ⟨hreceived, rfl⟩ := convertOnce_fromExchange hsymbols side.other hshares htwice
  dsimp only at hcall
  rw [if_neg (not_not_intro hreceived.symm), pure_eq_ok, Prod.mk.injEq] at hcall
  obtain ⟨rfl, rfl⟩ := hcall
  refine ⟨hreceived, ?_⟩
  have hsupply : market.supply.amount + shares.amount - shares.amount = market.supply.amount :=
    Int64.add_sub_cancel _ _
  cases side with
  | base =>
    simp only [ExchangeState.traded, ExchangeState.setBalance, ExchangeState.setSupply,
      ExchangeState.balance, Side.other, hsupply]
  | quote =>
    simp only [ExchangeState.traded, ExchangeState.setBalance, ExchangeState.setSupply,
      ExchangeState.balance, Side.other, hsupply]

end

/-! ## 2. The actions -/

def afterFee (quant : Asset) : Asset := { quant with amount := quant.amount - ramFee quant.amount }

def buyTransfers (payer : Name) (quant : Asset) : List Sent :=
  ⟨payer, .transfer payer ramAccount (afterFee quant) "buy ram".toList⟩ ::
    if 0 < ramFee quant.amount then
      [⟨payer, .transfer payer ramfeeAccount { quant with amount := ramFee quant.amount }
        "ram fee".toList⟩]
    else []

variable {x : Sent}

theorem mem_buyTransfers (h : x ∈ buyTransfers payer quant) :
    x = ⟨payer, .transfer payer ramAccount (afterFee quant) "buy ram".toList⟩ ∨
      x = ⟨payer, .transfer payer ramfeeAccount { quant with amount := ramFee quant.amount }
        "ram fee".toList⟩ := by
  rcases List.mem_cons.mp h with rfl | h
  · exact .inl rfl
  · split at h
    · exact .inr (List.mem_singleton.mp h)
    · cases h

theorem buyram_ok (h : buyram env m payer receiver quant = .ok (m', sent)) :
    env.ctx.hasAuth payer = true ∧ 0 < quant.amount ∧ ∃ market out market',
      m.ram.rammarket = some market ∧
      market.convert env.pricing callDepth (afterFee quant) ramSymbol = .ok (out, market') ∧
      0 < out.amount ∧
      m' = ⟨{ m.ram with
          rammarket := some market'
          totalRamBytesReserved := m.ram.totalRamBytesReserved + out.amount.toUInt64
          totalRamStake := m.ram.totalRamStake + (afterFee quant).amount },
        grantRam m.userres receiver out.amount⟩ ∧
      sent = buyTransfers payer quant := by
  simp only [buyram, ok_iff] at h
  obtain ⟨hauth, hpos, _, _, h⟩ := h
  rcases hmarket : m.ram.rammarket with _ | market
  · simp only [hmarket] at h
    cases h
  · simp only [hmarket, ok_iff] at h
    obtain ⟨⟨out, market'⟩, hconvert, hout, rfl, rfl⟩ := h
    exact ⟨hauth, hpos, market, out, market', rfl, hconvert, hout, rfl, rfl⟩

theorem buyrambytes_ok {bytes : UInt32} (h : buyrambytes env m payer receiver bytes = .ok (m', sent)) :
    ∃ market sold price market', m.ram.rammarket = some market ∧ sold.symbol = ramSymbol ∧
      market.convert env.pricing callDepth sold coreSymbol = .ok (price, market') ∧
      buyram env m payer receiver price = .ok (m', sent) := by
  unfold buyrambytes at h
  rcases hmarket : m.ram.rammarket with _ | market
  · simp only [hmarket] at h
    cases h
  · simp only [hmarket, Asset.make, ok_iff] at h
    obtain ⟨_, ⟨_, _, rfl⟩, ⟨price, market'⟩, hconvert, hbuy⟩ := h
    exact ⟨market, _, price, market', rfl, rfl, hconvert, hbuy⟩

def sellTransfers (account : Name) (out fee : Asset) : List Sent :=
  ⟨ramAccount, .transfer ramAccount account out "sell ram".toList⟩ ::
    if 0 < fee.amount then
      [⟨account, .transfer account ramfeeAccount fee "sell ram fee".toList⟩]
    else []

theorem mem_sellTransfers {out fee : Asset} (h : x ∈ sellTransfers account out fee) :
    x = ⟨ramAccount, .transfer ramAccount account out "sell ram".toList⟩ ∨
      x = ⟨account, .transfer account ramfeeAccount fee "sell ram fee".toList⟩ := by
  rcases List.mem_cons.mp h with rfl | h
  · exact .inl rfl
  · split at h
    · exact .inr (List.mem_singleton.mp h)
    · cases h

theorem sellram_ok {bytes : Int64} (h : sellram env m account bytes = .ok (m', sent)) :
    env.ctx.hasAuth account = true ∧ 0 < bytes ∧ ∃ res market sold out market' fee,
      m.userres.find account = some res ∧ bytes ≤ res.ramBytes ∧
      m.ram.rammarket = some market ∧ sold.symbol = ramSymbol ∧ sold.amount = bytes ∧
      market.convert env.pricing callDepth sold coreSymbol = .ok (out, market') ∧
      1 < out.amount ∧ 0 ≤ m.ram.totalRamStake - out.amount ∧
      m' = ⟨{ m.ram with
          rammarket := some market'
          totalRamBytesReserved := m.ram.totalRamBytesReserved - bytes.toUInt64
          totalRamStake := m.ram.totalRamStake - out.amount },
        m.userres.put account { res with ramBytes := res.ramBytes - bytes }⟩ ∧
      fee.symbol = coreSymbol ∧ sent = sellTransfers account out fee := by
  simp only [sellram, ok_iff] at h
  obtain ⟨hauth, hpos, _, _, res, hres, hquota, h⟩ := h
  rcases hmarket : m.ram.rammarket with _ | market
  · simp only [hmarket] at h
    cases h
  · simp only [hmarket, Asset.make, ok_iff] at h
    obtain ⟨_, ⟨_, _, rfl⟩, ⟨out, market'⟩, hconvert, hout, hstake, _, ⟨_, _, rfl⟩, rfl, rfl⟩ := h
    exact ⟨hauth, hpos, res, market, _, out, market', _, hres, hquota, rfl, rfl, rfl, hconvert, hout,
      hstake, rfl, rfl, rfl⟩

theorem setram_ok {c : Ctx} {r r' : Ram} {maxRamSize : UInt64}
    (h : setram c r maxRamSize = .ok r') :
    maxRamSize.toNat < 2 ^ 63 ∧ ∃ market, r.rammarket = some market ∧
      r' = { r with
        rammarket := some (market.setBalance .base
          (market.base.amount + (maxRamSize.toInt64 - r.maxRamSize.toInt64)))
        maxRamSize := maxRamSize } := by
  simp only [setram, ok_iff] at h
  obtain ⟨_, _, hlt, _, h⟩ := h
  rcases hmarket : r.rammarket with _ | market
  · simp only [hmarket] at h
    cases h
  · simp only [hmarket, pure_eq_ok] at h
    have hnat := UInt64.lt_iff_toNat_lt.mp hlt
    exact ⟨hnat.trans (by decide), market, rfl, h.symm⟩

end YottaChain.System
