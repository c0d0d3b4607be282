/-
  **The memory market.**

  The market converts between memory, counted in `RAM`, and the core token by way
  of its own share token `RAMCORE`: what is paid in is converted to shares, which
  are issued, and the shares, which are then retired, to what is paid out.  How
  many shares and how much comes out is computed in floating point and is a
  parameter (`Pricing`); everything around it is here.
-/
import YottaChain.SystemStaking

namespace YottaChain.System

open Checked

/-! ## 1. The market -/

def freeRam (r : Ram) : UInt64 := r.maxRamSize - r.totalRamBytesReserved

def newMarket (r : Ram) (systemTokenSupply : Int64) : ExchangeState where
  supply := ⟨100000000000000, ramcoreSymbol⟩
  base := ⟨(freeRam r).toInt64, ramSymbol⟩
  quote := ⟨systemTokenSupply / 1000, coreSymbol⟩

def construct (token : Token.Tables) (r : Ram) : Checked Ram :=
  match r.rammarket with
  | some _ => pure r
  | none => do
      let supply ← Token.getSupply token (symbolName coreSymbol)
      if 0 < supply.amount then pure { r with rammarket := some (newMarket r supply.amount) }
      else pure r

inductive Side where
  | base
  | quote

namespace ExchangeState

def balance (m : ExchangeState) : Side → Asset
  | .base => m.base
  | .quote => m.quote

def setBalance (m : ExchangeState) (side : Side) (amount : Int64) : ExchangeState :=
  match side with
  | .base => { m with base := { m.base with amount := amount } }
  | .quote => { m with quote := { m.quote with amount := amount } }

def setSupply (m : ExchangeState) (amount : Int64) : ExchangeState :=
  { m with supply := { m.supply with amount := amount } }

def convertToExchange (pricing : Pricing) (m : ExchangeState) (side : Side) (paid : Asset) :
    Checked (Asset × ExchangeState) := do
  let balance := (m.balance side).amount + paid.amount
  let issued := pricing.toExchange m.supply.amount balance paid.amount
  let shares ← Asset.make issued m.supply.symbol
  pure (shares, (m.setSupply (m.supply.amount + issued)).setBalance side balance)

def convertFromExchange (pricing : Pricing) (m : ExchangeState) (side : Side) (shares : Asset) :
    Checked (Asset × ExchangeState) := do
  ensure (shares.symbol = m.supply.symbol) "unexpected asset symbol input"
  let supply := m.supply.amount - shares.amount
  let out := pricing.fromExchange supply (m.balance side).amount shares.amount
  let received ← Asset.make out (m.balance side).symbol
  pure (received, (m.setSupply supply).setBalance side ((m.balance side).amount - out))

/-- One pass through the body of `convert`. -/
def convertOnce (pricing : Pricing) (m : ExchangeState) (sold : Asset) (target : UInt64) :
    Checked (Asset × ExchangeState) :=
  if sold.symbol ≠ m.supply.symbol then
    if sold.symbol = m.base.symbol then convertToExchange pricing m .base sold
    else if sold.symbol = m.quote.symbol then convertToExchange pricing m .quote sold
    else .error "invalid sell"
  else if target = m.base.symbol then convertFromExchange pricing m .base sold
  else if target = m.quote.symbol then convertFromExchange pricing m .quote sold
  else .error "invalid conversion"

def convert (pricing : Pricing) : ℕ → ExchangeState → Asset → UInt64 →
    Checked (Asset × ExchangeState)
  | 0, _, _, _ => .error "call depth exceeded"
  | depth + 1, m, sold, target => do
      let (received, m) ← convertOnce pricing m sold target
      if target ≠ received.symbol then convert pricing depth m received target
      else pure (received, m)

end ExchangeState

/-! ## 2. The actions -/

def ramAccount : Name := N "eosio.ram"

def ramfeeAccount : Name := N "eosio.ramfee"

def ramFee (amount : Int64) : Int64 := (amount + 199) / 200

structure Memory where
  ram : Ram
  userres : Table Name UserResources

def grantRam (userres : Table Name UserResources) (receiver : Name) (bytes : Int64) :
    Table Name UserResources :=
  match userres.find receiver with
  | none => userres.put receiver { ramBytes := bytes }
  | some res => userres.put receiver { res with ramBytes := res.ramBytes + bytes }

def buyram (env : Env) (t : Memory) (payer receiver : Name) (quant : Asset) :
    Checked (Memory × List Sent) := do
  env.ctx.requireAuth payer
  ensure (0 < quant.amount) "must purchase a positive amount"
  checkYtaAccount receiver
  let fee := { quant with amount := ramFee quant.amount }
  let quantAfterFee := { quant with amount := quant.amount - fee.amount }
  match t.ram.rammarket with
  | none => .error "ram market does not exist"
  | some market => do
      let (out, market) ← market.convert env.pricing callDepth quantAfterFee ramSymbol
      ensure (0 < out.amount) "must reserve a positive amount"
      let ram := { t.ram with
        rammarket := some market
        totalRamBytesReserved := t.ram.totalRamBytesReserved + out.amount.toUInt64
        totalRamStake := t.ram.totalRamStake + quantAfterFee.amount }
      let payment : Sent := ⟨payer, .transfer payer ramAccount quantAfterFee "buy ram".toList⟩
      let charge : List Sent :=
        if 0 < fee.amount then [⟨payer, .transfer payer ramfeeAccount fee "ram fee".toList⟩]
        else []
      pure (⟨ram, grantRam t.userres receiver out.amount⟩, payment :: charge)

def buyrambytes (env : Env) (t : Memory) (payer receiver : Name) (bytes : UInt32) :
    Checked (Memory × List Sent) :=
  match t.ram.rammarket with
  | none => .error "ram market does not exist"
  | some market => do
      let sold ← Asset.make (Int64.ofNat bytes.toNat) ramSymbol
      let (eosout, _) ← market.convert env.pricing callDepth sold coreSymbol
      buyram env t payer receiver eosout

def sellram (env : Env) (t : Memory) (account : Name) (bytes : Int64) :
    Checked (Memory × List Sent) := do
  env.ctx.requireAuth account
  ensure (0 < bytes) "cannot sell negative byte"
  checkYtaAccount account
  let res ← t.userres.get account "no resource row"
  ensure (bytes ≤ res.ramBytes) "insufficient quota"
  match t.ram.rammarket with
  | none => .error "cannot pass end iterator to modify"
  | some market => do
      let sold ← Asset.make bytes ramSymbol
      let (tokensOut, market) ← market.convert env.pricing callDepth sold coreSymbol
      ensure (1 < tokensOut.amount) "token amount received from selling ram is too low"
      let stake := t.ram.totalRamStake - tokensOut.amount
      ensure (0 ≤ stake) "error, attempt to unstake more tokens than previously staked"
      let ram := { t.ram with
        rammarket := some market
        totalRamBytesReserved := t.ram.totalRamBytesReserved - bytes.toUInt64
        totalRamStake := stake }
      let fee ← Asset.make (ramFee tokensOut.amount) coreSymbol
      let payment : Sent := ⟨ramAccount, .transfer ramAccount account tokensOut "sell ram".toList⟩
      let charge : List Sent :=
        if 0 < fee.amount then
          [⟨account, .transfer account ramfeeAccount fee "sell ram fee".toList⟩]
        else []
      let res := { res with ramBytes := res.ramBytes - bytes }
      pure (⟨ram, t.userres.put account res⟩, payment :: charge)

def setram (c : Ctx) (r : Ram) (maxRamSize : UInt64) : Checked Ram := do
  c.requireAuth self
  ensure (r.maxRamSize < maxRamSize) "ram may only be increased"
  ensure (maxRamSize < 1024 * 1024 * 1024 * 1024 * 1024) "ram size is unrealistic"
  ensure (r.totalRamBytesReserved < maxRamSize) "attempt to set max below reserved"
  match r.rammarket with
  | none => .error "cannot pass end iterator to modify"
  | some market =>
      let delta := maxRamSize.toInt64 - r.maxRamSize.toInt64
      pure { r with
        rammarket := some (market.setBalance .base (market.base.amount + delta))
        maxRamSize := maxRamSize }

end YottaChain.System
