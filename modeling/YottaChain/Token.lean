/-
  **The actions of `eosio.token`.**

  A transfer of the core token is checked against what the sender has deposited
  and locked.  Two kinds of transfers are not: those of the two funds, and those
  to the two accounts that take forfeited deposits.  Besides the new tables a
  transfer returns the accounts it notifies, in order.
-/
import YottaChain.LedgerTables

namespace YottaChain.Token

open Checked

def self : Name := N "eosio.token"

/-! ## 1. Balances -/

/-- Take `value` from a balance that is large enough; an empty row is erased. -/
def takeBalance (t : Tables) (owner : Name) (balance value : Asset) : Checked Tables :=
  if balance.amount = value.amount then
    .ok { t with accounts := t.accounts.erase (owner, symbolName value.symbol) }
  else do
    let left ← balance.sub value
    pure { t with accounts := t.accounts.put (owner, symbolName value.symbol) left }

def subBalance (t : Tables) (owner : Name) (value : Asset) : Checked Tables := do
  let balance ← t.accounts.get (owner, symbolName value.symbol) "no balance object found"
  ensure (value.amount ≤ balance.amount) "overdrawn balance"
  takeBalance t owner balance value

/-- The checks of `sub_balance_yta`: a stake has to leave the deposits, any other
    transfer also what is locked. -/
def checkReserved (fp : Doubles) (c : Ctx) (lock : HddLock.Tables) (deposit : HddDeposit.Tables)
    (owner : Name) (balance value : Asset) (receiver : Name) : Checked Unit :=
  if receiver = N "eosio.stake" then do
    ensure (!HddLock.isFrozen lock c.currentTime owner) "user is frozen"
    let reserved ← HddDeposit.getDeposit deposit owner
    ensure (reserved.symbol = value.symbol) "symbol precision mismatch"
    ensure (value.amount ≤ balance.amount - reserved.amount) "overdrawn balance"
  else do
    ensure (!HddLock.isFrozen lock c.currentTime owner) "user is frozen"
    let frozenAsset ← HddDeposit.getDeposit deposit owner
    let lockAsset ← HddLock.getLockAsset fp lock c.currentTime owner
    ensure (frozenAsset.symbol = lockAsset.symbol) "symbol precision mismatch"
    ensure (frozenAsset.symbol = value.symbol) "symbol precision mismatch"
    ensure (value.amount ≤ balance.amount - (frozenAsset.amount + lockAsset.amount))
      "overdrawn balance"

def subBalanceYta (fp : Doubles) (c : Ctx) (lock : HddLock.Tables) (deposit : HddDeposit.Tables)
    (t : Tables) (owner : Name) (value : Asset) (receiver : Name) : Checked Tables := do
  let balance ← t.accounts.get (owner, symbolName value.symbol) "no balance object found"
  checkReserved fp c lock deposit owner balance value receiver
  takeBalance t owner balance value

def addBalance (t : Tables) (owner : Name) (value : Asset) : Checked Tables :=
  match t.accounts.find (owner, symbolName value.symbol) with
  | none => .ok { t with accounts := t.accounts.put (owner, symbolName value.symbol) value }
  | some balance => do
      let sum ← balance.add value
      pure { t with accounts := t.accounts.put (owner, symbolName value.symbol) sum }

/-! ## 2. Actions -/

def create (c : Ctx) (t : Tables) (issuer : Name) (maximumSupply : Asset) : Checked Tables := do
  c.requireAuth self
  ensure (isValidSymbol maximumSupply.symbol) "invalid symbol name"
  ensure maximumSupply.isValid "invalid supply"
  ensure (0 < maximumSupply.amount) "max-supply must be positive"
  ensure (t.stat.find (symbolName maximumSupply.symbol) = none) "token with symbol already exists"
  let stat ← t.stat.emplace (symbolName maximumSupply.symbol)
    ⟨⟨0, maximumSupply.symbol⟩, maximumSupply, issuer⟩
  pure { t with stat := stat }

def issue (c : Ctx) (t : Tables) (receiver : Name) (quantity : Asset) (memo : Text) :
    Checked (Tables × List Sent) := do
  ensure (isValidSymbol quantity.symbol) "invalid symbol name"
  ensure (memo.length ≤ 256) "memo has more than 256 bytes"
  let st ← t.stat.get (symbolName quantity.symbol)
    "token with symbol does not exist, create token before issue"
  c.requireAuth st.issuer
  ensure quantity.isValid "invalid quantity"
  ensure (0 < quantity.amount) "must issue positive quantity"
  ensure (quantity.symbol = st.supply.symbol) "symbol precision mismatch"
  ensure (quantity.amount ≤ st.maxSupply.amount - st.supply.amount)
    "quantity exceeds available supply"
  let supply ← st.supply.add quantity
  let stat := t.stat.put (symbolName quantity.symbol) { st with supply := supply }
  let t ← addBalance { t with stat := stat } st.issuer quantity
  pure (t, if receiver = st.issuer then []
    else [⟨st.issuer, .transfer st.issuer receiver quantity memo⟩])

def retire (c : Ctx) (t : Tables) (quantity : Asset) (memo : Text) : Checked Tables := do
  ensure (isValidSymbol quantity.symbol) "invalid symbol name"
  ensure (memo.length ≤ 256) "memo has more than 256 bytes"
  let st ← t.stat.get (symbolName quantity.symbol) "token with symbol does not exist"
  c.requireAuth st.issuer
  ensure quantity.isValid "invalid quantity"
  ensure (0 < quantity.amount) "must retire positive quantity"
  ensure (quantity.symbol = st.supply.symbol) "symbol precision mismatch"
  let supply ← st.supply.sub quantity
  let stat := t.stat.put (symbolName quantity.symbol) { st with supply := supply }
  subBalance { t with stat := stat } st.issuer quantity

def isFund (sender : Name) : Bool := sender == N "hddbasefound" || sender == N "fund.sys"

def isForfeit (receiver : Name) : Bool :=
  receiver == N "yottaforfeit" || receiver == N "forfeit.sys"

/-- The sender's side of a transfer: the new tables and the accounts notified. -/
def debit (fp : Doubles) (c : Ctx) (lock : HddLock.Tables) (deposit : HddDeposit.Tables)
    (t : Tables) (sender receiver : Name) (quantity : Asset) : Checked (Tables × List Name) :=
  if quantity.symbol ≠ coreSymbol ∨ isFund sender then do
    let t ← subBalance t sender quantity
    pure (t, [sender, receiver])
  else if isForfeit receiver then do
    let t ← subBalance t sender quantity
    pure (t, [receiver])
  else do
    let t ← subBalanceYta fp c lock deposit t sender quantity receiver
    pure (t, [sender, receiver])

def transfer (fp : Doubles) (c : Ctx) (lock : HddLock.Tables) (deposit : HddDeposit.Tables)
    (t : Tables) (sender receiver : Name) (quantity : Asset) (memo : Text) :
    Checked (Tables × List Name) := do
  ensure (sender ≠ receiver) "cannot transfer to self"
  c.requireAuth sender
  ensure (c.isAccount receiver) "to account does not exist"
  let st ← t.stat.get (symbolName quantity.symbol) "unable to find key"
  ensure quantity.isValid "invalid quantity"
  ensure (0 < quantity.amount) "must transfer positive quantity"
  ensure (quantity.symbol = st.supply.symbol) "symbol precision mismatch"
  ensure (memo.length ≤ 256) "memo has more than 256 bytes"
  let (t, recipients) ← debit fp c lock deposit t sender receiver quantity
  let t ← addBalance t receiver quantity
  pure (t, recipients)

end YottaChain.Token
