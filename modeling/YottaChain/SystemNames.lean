/-
  **Auctions of short names.**

  A bid opens an auction or raises its bid.  Once a day a block closes one auction,
  the first of the index `highbid`, by changing the sign of its bid.  The highest
  bidder of a closed auction can create the account, which removes the row.
-/
import YottaChain.SystemTables

namespace YottaChain.System

open Checked

def bidname (c : Ctx) (n : Names) (bidder newname : Name) (bid : Asset) :
    Checked (Names × List Sent) := do
  c.requireAuth bidder
  ensure (nameSuffix newname = newname) "you can only bid on top-level suffix"
  ensure (newname ≠ 0) "the empty name is not a valid account name to bid on"
  ensure (newname &&& 0xF = 0) "13 character names are not valid account names to bid on"
  ensure (newname &&& 0x1F0 = 0)
    "accounts with 12 character names and no dots can be created without bidding required"
  ensure (!c.isAccount newname) "account already exists"
  ensure (bid.symbol = coreSymbol) "asset must be system token"
  ensure (0 < bid.amount) "insufficient bid"
  let row : NameBid := ⟨bidder, bid.amount, c.currentTime⟩
  let names := { n with namebids := n.namebids.put newname row }
  let payment : Sent :=
    ⟨bidder, .transfer bidder (N "eosio.names") bid ("bid name ".toList ++ nameToString newname)⟩
  match n.namebids.find newname with
  | none => pure (names, [payment])
  | some current => do
      ensure (0 < current.highBid) "this auction has already closed"
      ensure (current.highBid / 10 < bid.amount - current.highBid) "must increase bid by 10%"
      ensure (current.highBidder ≠ bidder) "account is already highest bidder"
      let back ← Asset.make current.highBid coreSymbol
      pure (names, [payment,
        ⟨N "eosio.names", .transfer (N "eosio.names") current.highBidder back
          ("refund bid on name ".toList ++ nameToString newname)⟩])

def hasDot (newact : Name) : Bool :=
  (List.range 12).any fun i => (newact >>> 4 >>> UInt64.ofNat (5 * i)) &&& 0x1f == 0

/-- What `newaccount` demands of the name; a short name is taken out of its auction. -/
def claimName (n : Names) (creator newact : Name) : Checked Names :=
  if creator ≠ self ∧ hasDot newact then
    if nameSuffix newact = newact then do
      let current ← n.namebids.get newact "no active bid for name"
      ensure (current.highBidder = creator) "only highest bidder can claim"
      ensure (current.highBid < 0) "auction for name is not closed yet"
      pure { n with namebids := n.namebids.erase newact }
    else do
      ensure (creator = nameSuffix newact) "only suffix may create this account"
      pure n
  else pure n

/-- The key of the index `highbid`. -/
def NameBid.byHighBid (b : NameBid) : UInt64 := (-b.highBid).toUInt64

def NameBid.entry (newname : Name) (b : NameBid) : ℕ ×ₗ ℕ :=
  toLex (b.byHighBid.toNat, newname.toNat)

/-- `idx.begin()` of the index. -/
def highest (n : Names) : Option Name :=
  n.namebids.first NameBid.entry fun i => UInt64.ofNat (ofLex i).2

def blocksPerDay : UInt32 := 2 * 24 * 3600

def usecondsPerDay : UInt64 := 24 * 3600 * 1000000

/-- What `onblock` demands of an auction to close it. -/
def closes (now threshActivatedStakeTime : UInt64) (b : NameBid) : Bool :=
  decide (0 < b.highBid) && decide (b.lastBidTime < now - usecondsPerDay) &&
    decide (0 < threshActivatedStakeTime) &&
    decide (14 * usecondsPerDay < now - threshActivatedStakeTime)

def NameBid.close (b : NameBid) : NameBid := { b with highBid := -b.highBid }

/-- The auctions in `onblock`. -/
def closeAuction (now threshActivatedStakeTime : UInt64) (slot : UInt32) (n : Names) : Names :=
  if blocksPerDay < slot - n.lastNameClose then
    match highest n with
    | none => n
    | some newname =>
        match n.namebids.find newname with
        | none => n
        | some b =>
            if closes now threshActivatedStakeTime b then
              { namebids := n.namebids.put newname b.close, lastNameClose := slot }
            else n
  else n

end YottaChain.System
