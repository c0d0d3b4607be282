/-
  **The actions of `channel.sys`.**

  `channel.sys` keeps two balances for every account, the main one (type 1) and
  the one for fees (type 2), and holds the tokens behind them.  Tokens come in
  with a transfer whose memo `type:account:…` says what they are for
  (`transfercore`, which the contract runs when it is notified), and leave with
  `mapc`.  The other actions move amounts between balances.
-/
import YottaChain.HddPoolTables

namespace YottaChain.Channel

open Checked

abbrev Outcome : Type := Tables × List Sent

def self : Name := N "channel.sys"

def mapAccount : Name := N "ytapro.map"

def gasSys : Name := N "gas.sys"

def nodeSys : Name := N "node.sys"

def nullSys : Name := N "null.sys"

/-! ## 1. Memos -/

def isSpace (ch : Char) : Bool := ch == ' ' || (9 ≤ ch.toNat && ch.toNat ≤ 13)

def digitValue (ch : Char) : Int := ch.toNat - 48

/-- `atoi`, without the wrap-around at 32 bits. -/
def atoi (str : Text) : Int :=
  let str := str.dropWhile isSpace
  let digits (str : Text) : Int :=
    (str.takeWhile Char.isDigit).foldl (fun n ch => 10 * n + digitValue ch) 0
  match str with
  | '-' :: rest => -digits rest
  | '+' :: rest => digits rest
  | rest => digits rest

def splitColon (str : Text) : Checked (Text × Text) :=
  match str.span (· ≠ ':') with
  | (before, _ :: after) => .ok (before, after)
  | (_, []) => .error "invalid memo"

def parseMemo (memo : Text) : Checked (UInt8 × Name) := do
  let (transType, rest) ← splitColon memo
  let (namestr, _) ← splitColon rest
  pure (UInt8.ofNat (atoi transType % 256).toNat, stringToName namestr)

/-! ## 2. Balances -/

def credit (t : Tables) (user : Name) (type : UInt8) (quant : Asset) : Checked Tables :=
  match t.cbalances.find (user, type) with
  | some balance => do
      let sum ← balance.add quant
      pure ⟨t.cbalances.put (user, type) sum⟩
  | none => .ok ⟨t.cbalances.put (user, type) quant⟩

/-- A transfer of tokens has been announced.  Only transfers to `channel.sys`
    itself are of interest. -/
def transfercore (t : Tables) (sender receiver : Name) (quantity : Asset) (memo : Text) :
    Checked Outcome :=
  if receiver ≠ self then .ok (t, [])
  else do
    ensure (quantity.symbol = coreSymbol) "invalid symbol"
    let (transType, user) ← parseMemo memo
    if transType = 1 ∨ transType = 2 then do
      ensure (sender = N "fund.sys") "invalid from user"
      let t ← credit t user 1 quantity
      pure (t, [])
    else if transType = 3 then do
      ensure (sender = N "store.sys") "invalid from user"
      let t ← credit t user 1 quantity
      pure (t, [])
    else if transType = 4 then do
      ensure (sender = mapAccount) "invalid from user"
      pure (t, [⟨self, .paydeppool2 user quantity⟩])
    else if transType = 5 then do
      ensure (sender = mapAccount) "invalid from user"
      let t ← credit t user 2 quantity
      pure (t, [⟨self, .channellog 5 quantity user []⟩])
    else .error "invalid memo type"

/-- Pay out to the bridge: the amount and the fee in two transfers. -/
def mapc (c : Ctx) (t : Tables) (user : Name) (quant gas : Asset) (bscaddr : Text) :
    Checked Outcome := do
  c.requireAuth user
  ensure (quant.symbol = coreSymbol) "invalid quant symbol"
  ensure (gas.symbol = coreSymbol) "invalid gas symbol"
  ensure (user ≠ nodeSys) "invalid user"
  ensure (0 < quant.amount) "must use positive quantity"
  ensure (0 < gas.amount) "must use positive gas"
  let total ← quant.add gas
  let balance ← t.cbalances.get (user, 1) "invalid user"
  let enough ← balance.ge total
  ensure enough "overdrawn user channel balance"
  let left ← balance.sub total
  pure (⟨t.cbalances.put (user, 1) left⟩,
    [⟨self, .transfer self mapAccount quant ("BSC".toList ++ bscaddr)⟩,
      ⟨self, .transfer self mapAccount gas "fee".toList⟩,
      ⟨self, .channellog 4 total user []⟩])

def feetoc (c : Ctx) (t : Tables) (user : Name) (quant : Asset) : Checked Outcome := do
  c.requireAuth user
  let fee ← t.cbalances.get (user, 2) "no fee balance"
  ensure (quant.symbol = coreSymbol) "invalid quant symbol"
  ensure (0 < quant.amount) "must use positive quantity"
  ensure (quant.amount ≤ fee.amount) "overdrawn fee"
  let left ← fee.sub quant
  let t ← credit ⟨t.cbalances.put (user, 2) left⟩ user 1 quant
  pure (t, [⟨self, .channellog 6 quant user []⟩])

def subfee (c : Ctx) (t : Tables) (user : Name) (quant : Asset) (memo : Text) :
    Checked Outcome := do
  c.requireAuth self
  ensure (0 ≤ quant.amount) "must use positive quantity"
  let fee ← t.cbalances.get (user, 2) "no fee balance"
  ensure (quant.symbol = coreSymbol) "invalid quant symbol"
  ensure (quant.amount ≤ fee.amount) "overdrawn fee"
  ensure (memo.length ≤ 256) "memo has more than 256 bytes"
  let left ← fee.sub quant
  let t ← credit ⟨t.cbalances.put (user, 2) left⟩ gasSys 1 quant
  pure (t, [])

def splitgas (fp : Doubles) (c : Ctx) (hddpool : HddPool.Tables) (t : Tables) :
    Checked Outcome := do
  c.requireAuth nodeSys
  let splitRate := fp.splitRate (HddPool.getYtaPrice hddpool) (HddPool.getUsdPrice hddpool)
  ensure (20 ≤ splitRate ∧ splitRate ≤ 80) "invalid split action"
  let gas ← t.cbalances.get (gasSys, 1) "no gas"
  if gas.amount ≤ 0 then pure (t, [])
  else do
    let amountNode := gas.amount * splitRate.toInt64 / 100
    ensure (amountNode ≤ gas.amount) "invalid split"
    let quantNode ← Asset.make amountNode coreSymbol
    let quantNull ← Asset.make (gas.amount - amountNode) coreSymbol
    let t ← credit ⟨t.cbalances.put (gasSys, 1) { gas with amount := 0 }⟩ nodeSys 1 quantNode
    let t ← credit t nullSys 1 quantNull
    pure (t, [])

def rewardnode (c : Ctx) (t : Tables) (user : Name) (quant : Asset) (memo : Text) :
    Checked Outcome := do
  c.requireAuth nodeSys
  ensure (0 < quant.amount) "must use positive quantity"
  let node ← t.cbalances.get (nodeSys, 1) "no balance"
  ensure (quant.amount ≤ node.amount) "overdrawn balance"
  let left ← node.sub quant
  let t ← credit ⟨t.cbalances.put (nodeSys, 1) left⟩ user 1 quant
  pure (t, [⟨self, .channellog 7 quant user memo⟩])

def channellog (c : Ctx) (memo : Text) : Checked Unit := do
  c.requireAuth self
  ensure (memo.length ≤ 256) "memo has more than 256 bytes"

end YottaChain.Channel
