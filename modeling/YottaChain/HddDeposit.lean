/-
  **The actions of `hdddeposit`.**

  An account pays into a deposit pool; the free part of the pool is locked for
  its miners and released again.  There are two pools per account: the old one
  (`depositpool`, miners of type 0), into which nothing is locked any more, and
  the one fed through `channel.sys` (`depositpool2`, miners of type 1).
  `incdeposit` and `mchgdepacc` move a miner from the old pool to the new one.

  The actions read the locks and balances of the other contracts and the miner
  table of `hddpool`.  `chgdeposit` always fails and is left out.
-/
import YottaChain.HddPoolTables

namespace YottaChain.HddDeposit

open Checked

abbrev Outcome : Type := Tables × List Sent

def self : Name := N "hdddeposit12"

def channelSys : Name := N "channel.sys"

def minMinerSpace : UInt64 := 100 * (1024 * 64)

def revote (c : Ctx) (user : Name) : List Sent :=
  if c.isActiveVoter user then [⟨user, .changevotes user⟩] else []

/-! ## 1. Pools -/

def payIn (pool : Table Name DepositPool) (user : Name) (quant : Asset) :
    Checked (Table Name DepositPool) :=
  match pool.find user with
  | none => .ok (pool.put user ⟨0, quant, quant, quant⟩)
  | some a => do
      let total ← a.depositTotal.add quant
      let free ← a.depositFree.add quant
      let his ← a.depositHis.add quant
      pure (pool.put user
        { a with depositTotal := total, depositFree := free, depositHis := his })

def payOut (pool : Table Name DepositPool) (user : Name) (quant : Asset) :
    Checked (Table Name DepositPool) := do
  let a ← pool.get user "no deposit pool record for this user."
  ensure (quant.amount ≤ a.depositFree.amount) "free deposit not enough."
  ensure (quant.amount ≤ a.depositTotal.amount) "deposit not enough."
  ensure (quant.amount ≤ a.depositHis.amount) "deposit not enough."
  let free ← a.depositFree.sub quant
  let total ← a.depositTotal.sub quant
  let his ← a.depositHis.sub quant
  pure (pool.put user { a with depositTotal := total, depositFree := free, depositHis := his })

def release (a : DepositPool) (deposit : Asset) : Checked DepositPool := do
  let free ← a.depositFree.add deposit
  let full ← free.ge a.depositTotal
  pure { a with depositFree := if full then a.depositTotal else free }

def poolTotal (pool : Table Name DepositPool) (user : Name) : Int64 :=
  match pool.find user with
  | some a => a.depositTotal.amount
  | none => 0

def paydeppool (c : Ctx) (lock : HddLock.Tables) (token : Token.Tables) (t : Tables) (user : Name)
    (quant : Asset) : Checked Outcome := do
  c.requireAuth user
  ensure (!HddLock.isFrozen lock c.currentTime user) "frozen user can not create deposit pool"
  ensure (c.isAccount user) "user is not an account."
  ensure (quant.symbol = coreSymbol) "must use core asset for hdd deposit."
  ensure (0 < quant.amount) "must use positive quant"
  let balance ← Token.getBalance token user (symbolName quant.symbol)
  let realBalance := balance.amount - poolTotal t.depositpool user - poolTotal t.depositpool2 user
  ensure (quant.amount ≤ realBalance) "user balance not enough."
  let pool ← payIn t.depositpool user quant
  pure ({ t with depositpool := pool }, revote c user)

def unpaydeppool (c : Ctx) (lock : HddLock.Tables) (t : Tables) (user : Name) (quant : Asset) :
    Checked Outcome := do
  c.requireAuth user
  ensure (quant.symbol = coreSymbol) "must use core asset for hdd deposit."
  ensure (0 < quant.amount) "must use positive quant"
  ensure (!HddLock.isFrozen lock c.currentTime user) "user is frozen"
  let pool ← payOut t.depositpool user quant
  pure ({ t with depositpool := pool }, revote c user)

/-- The tokens follow: they are sent from `channel.sys` to the user. -/
def paydeppool2 (fp : Doubles) (c : Ctx) (lock : HddLock.Tables) (t : Tables) (user : Name)
    (quant : Asset) : Checked Outcome := do
  c.requireAuth channelSys
  ensure (!HddLock.isFrozen lock c.currentTime user) "frozen user can not create deposit pool2"
  let lockAsset ← HddLock.getLockAsset fp lock c.currentTime user
  ensure (lockAsset.amount = 0) "user has lock asset"
  ensure (c.isAccount user) "user is not an account."
  ensure (quant.symbol = coreSymbol) "must use core asset for hdd deposit."
  ensure (0 < quant.amount) "must use positive quant"
  let pool ← payIn t.depositpool2 user quant
  pure ({ t with depositpool2 := pool },
    ⟨channelSys, .transfer channelSys user quant "paydeppool2".toList⟩ :: revote c user)

/-- The tokens go back to `channel.sys`, on account of the user. -/
def undeppool2 (c : Ctx) (lock : HddLock.Tables) (t : Tables) (user : Name) (quant : Asset) :
    Checked Outcome := do
  c.requireAuth user
  ensure (quant.symbol = coreSymbol) "must use core asset for hdd deposit."
  ensure (0 < quant.amount) "must use positive quant"
  ensure (!HddLock.isFrozen lock c.currentTime user) "user is frozen"
  let pool ← payOut t.depositpool2 user quant
  pure ({ t with depositpool2 := pool }, revote c user ++
    [⟨user, .transfer user (N "store.sys") quant "unpaydeppool2".toList⟩,
      ⟨N "store.sys", .transfer (N "store.sys") channelSys quant
        ("3:".toList ++ nameToString user ++ ":0".toList)⟩,
      ⟨self, .depositlog 3 quant user⟩])

def channellog (c : Ctx) : Checked Unit := c.requireAuth self

/-! ## 2. Storage deposits -/

def depstore (c : Ctx) (t : Tables) (user : Name) (quant : Asset) : Checked Outcome := do
  c.requireAuth user
  ensure (quant.symbol = coreSymbol) "must use core asset for hdd deposit."
  ensure (quant.amount = 100000000) "invalid deposit amount"
  ensure (t.depstore.find user = none) "already deposit"
  let rows ← t.depstore.emplace user quant
  pure ({ t with depstore := rows },
    [⟨user, .transfer user (N "pool.sys") quant "deopsit for data storage".toList⟩])

def undepstore (c : Ctx) (t : Tables) (user caller : Name) : Checked Outcome := do
  c.checkBpAccount caller
  let quant ← t.depstore.get user "can not find deposit record"
  pure ({ t with depstore := t.depstore.erase user },
    [⟨N "pool.sys", .transfer (N "pool.sys") user quant
      "return deopsit for data storage".toList⟩])

def setrate (c : Ctx) (t : Tables) (rate : Int64) : Checked Outcome := do
  c.requireAuth (N "hddpooladmin")
  pure ({ t with gdepositrate := some rate }, [])

/-! ## 3. Deposits of miners -/

def paydeposit (fp : Doubles) (c : Ctx) (lock : HddLock.Tables) (hddpool : HddPool.Tables)
    (t : Tables) (user : Name) (minerid : UInt64) (quant : Asset) : Checked Outcome := do
  c.requireAuth (N "hddpooladmin")
  ensure (HddPool.isMinerExist hddpool minerid) "miner not registered"
  ensure (!HddLock.isFrozen lock c.currentTime user) "user is frozen"
  ensure (quant.symbol = coreSymbol) "must use core asset for hdd deposit."
  ensure (0 < quant.amount) "must use positive quant"
  ensure (isDepositEnough fp t quant minMinerSpace) "deposit quant is too low!"
  let a ← t.depositpool2.get user "no deposit pool record for this user."
  ensure (quant.amount ≤ a.depositFree.amount) "free deposit not enough."
  let free ← a.depositFree.sub quant
  ensure (t.miner2dep.find minerid = none) "already deposit."
  let rows ← t.miner2dep.emplace minerid ⟨1, user, quant, quant⟩
  pure ({ t with
    depositpool2 := t.depositpool2.put user { a with depositFree := free }
    miner2dep := rows }, revote c user)

def increase (miner : Miner2Dep) (quant : Asset) : Checked Miner2Dep := do
  let deposit ← miner.deposit.add quant
  pure { miner with
    deposit := deposit
    minerType := 1
    depTotal := { miner.depTotal with
      amount := if miner.depTotal.amount < deposit.amount then deposit.amount
        else miner.depTotal.amount } }

/-- A miner of type 0 leaves the old pool with its whole deposit.  `miner` is read
    through a reference, so that the new pool is charged with the increased
    deposit. -/
def incdeposit (c : Ctx) (t : Tables) (minerid : UInt64) (quant : Asset) : Checked Outcome := do
  c.requireAuth (N "hddpooladmin")
  ensure (quant.symbol = coreSymbol) "must use core asset for hdd deposit."
  ensure (0 < quant.amount) "must use positive quant"
  let miner ← t.miner2dep.get minerid "no deposit record for this minerid."
  let user := miner.accountName
  if miner.minerType = 0 then do
    let acc ← t.depositpool.get user "no deposit pool record for this user."
    let acc2 ← t.depositpool2.get user "no deposit pool2 record for this user."
    let released ← release acc miner.deposit
    let increased ← increase miner quant
    ensure (increased.deposit.amount ≤ acc2.depositFree.amount) "free deposit not enough."
    let free ← acc2.depositFree.sub increased.deposit
    pure ({ t with
      depositpool := t.depositpool.put user released
      depositpool2 := t.depositpool2.put user { acc2 with depositFree := free }
      miner2dep := t.miner2dep.put minerid increased }, revote c user)
  else do
    let acc2 ← t.depositpool2.get user "no deposit pool2 record for this user."
    ensure (quant.amount ≤ acc2.depositFree.amount) "free deposit not enough."
    let increased ← increase miner quant
    let free ← acc2.depositFree.sub quant
    pure ({ t with
      depositpool2 := t.depositpool2.put user { acc2 with depositFree := free }
      miner2dep := t.miner2dep.put minerid increased }, revote c user)

def fine (miner : Miner2Dep) (quant : Asset) : Asset :=
  if miner.deposit.amount < quant.amount then { quant with amount := miner.deposit.amount }
  else quant

def charge (pool : Table Name DepositPool) (user : Name) (quatreal : Asset) (msg : String) :
    Checked (Table Name DepositPool) := do
  let a ← pool.get user msg
  ensure (quatreal.amount ≤ a.depositTotal.amount - a.depositFree.amount) "overdrawn deposit."
  let total ← a.depositTotal.sub quatreal
  pure (pool.put user { a with depositTotal := total })

def mforfeitAuth (c : Ctx) (accType : UInt8) (caller : Name) : Checked Unit :=
  if accType = 2 then do
    ensure (c.isAccount caller) "caller not a account."
    c.checkBpAccount caller
  else c.requireAuth self

/-- The fine is paid out of the miner's deposit, by a transfer in the name of the
    deposit account. -/
def mforfeit (c : Ctx) (t : Tables) (minerid : UInt64) (quant : Asset) (memo : Text)
    (accType : UInt8) (caller : Name) : Checked Outcome := do
  mforfeitAuth c accType caller
  ensure (quant.symbol = coreSymbol) "must use core asset for hdd deposit."
  ensure (0 < quant.amount) "must use positive quant"
  let miner ← t.miner2dep.get minerid "no deposit record for this minerid."
  let user := miner.accountName
  let quatreal := fine miner quant
  let rows := t.miner2dep.put minerid { miner with
    deposit := { miner.deposit with amount := miner.deposit.amount - quatreal.amount } }
  if miner.minerType = 0 then do
    let pool ← charge t.depositpool user quatreal "no deposit pool record for this user."
    pure ({ t with depositpool := pool, miner2dep := rows },
      [⟨user, .transfer user (N "yottaforfeit") quatreal memo⟩])
  else do
    let pool ← charge t.depositpool2 user quatreal "no deposit pool2 record for this user."
    pure ({ t with depositpool2 := pool, miner2dep := rows },
      [⟨user, .transfer user (N "forfeit.sys") quatreal memo⟩])

def giveBack (pool : Table Name DepositPool) (miner : Miner2Dep) :
    Checked (Table Name DepositPool) :=
  match pool.find miner.accountName with
  | none => .ok pool
  | some a => do
      let released ← release a miner.deposit
      pure (pool.put miner.accountName released)

def delminer (c : Ctx) (t : Tables) (minerid : UInt64) : Checked Outcome := do
  c.requireAuth (N "hddpooladmin")
  match t.miner2dep.find minerid with
  | none => pure (t, [])
  | some miner =>
      let rows := t.miner2dep.erase minerid
      if miner.minerType = 0 then do
        let pool ← giveBack t.depositpool miner
        pure ({ t with depositpool := pool, miner2dep := rows }, revote c miner.accountName)
      else do
        let pool ← giveBack t.depositpool2 miner
        pure ({ t with depositpool2 := pool, miner2dep := rows }, revote c miner.accountName)

/-- Release the deposit of a miner that leaves the account; here the free part is
    not cut off at the whole. -/
def leave (pool : Table Name DepositPool) (miner : Miner2Dep) (msg : String)
    (newFree : Asset) : Checked (Table Name DepositPool) := do
  let old ← pool.get miner.accountName msg
  ensure (miner.depTotal.amount ≤ newFree.amount) "new deposit user free deposit not enough"
  let free ← old.depositFree.add miner.deposit
  pure (pool.put miner.accountName { old with depositFree := free })

def mchgdepacc (c : Ctx) (t : Tables) (minerid : UInt64) (newDepacc : Name) : Checked Outcome := do
  c.requireAuth newDepacc
  let miner ← t.miner2dep.get minerid "no deposit record for this minerid"
  ensure (miner.accountName ≠ newDepacc) "must use different account to change deposit user"
  let acc2New ← t.depositpool2.get newDepacc "no deposit pool2 record for new deposit user"
  let sent := revote c miner.accountName ++ revote c newDepacc
  let rows := t.miner2dep.put minerid ⟨1, newDepacc, miner.depTotal, miner.depTotal⟩
  if miner.minerType = 0 then do
    let pool ← leave t.depositpool miner "no deposit pool record for original deposit user"
      acc2New.depositFree
    let free ← acc2New.depositFree.sub miner.depTotal
    pure ({ t with
      depositpool := pool
      depositpool2 := t.depositpool2.put newDepacc { acc2New with depositFree := free }
      miner2dep := rows }, sent)
  else do
    let pool ← leave t.depositpool2 miner "no deposit pool2 record for original deposit user"
      acc2New.depositFree
    let free ← acc2New.depositFree.sub miner.depTotal
    pure ({ t with
      depositpool2 := pool.put newDepacc { acc2New with depositFree := free }
      miner2dep := rows }, sent)

def updatevote (c : Ctx) (t : Tables) (user : Name) : Checked Outcome := do
  c.requireAuth (N "hddpooladmin")
  pure (t, revote c user)

end YottaChain.HddDeposit
