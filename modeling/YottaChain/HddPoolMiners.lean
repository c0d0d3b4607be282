/-
  **The miner side of `hddpool`**: storage pools, registration and deletion of
  miners, their production space, and the compact table of internal ids.

  Every action that changes a miner keeps three tables in step by hand, the old
  `minerinfo`, the per-owner `maccount` and the new `miner`.  The sections the
  source marks `sync start … sync end` are the updates of `miner` through
  `adjust`, which does nothing when the row is missing.
-/
import YottaChain.HddPoolAccounts

namespace YottaChain.HddPool

open Checked

/-! ## 1. Total space and internal ids -/

/-- `chg_total_space`, in gigabytes; the decrease stops at zero. -/
def chgTotalSpace (s : Tables) (spaceDelta : UInt64) (isIncrease : Bool) : Tables :=
  let total := s.counterstat.getD 0
  let deltaGb := spaceDelta >>> 16
  { s with
    counterstat := some
      (if isIncrease then total + deltaGb
       else if deltaGb < total then total - deltaGb
       else 0) }

/-- `insert_miner2` returns the id cut to 32 bits. -/
def insertMiner2 (s : Tables) (minerid : UInt64) : Checked (Tables × UInt32) :=
  let g := s.miner2ex.getD {}
  if g.nextId = g.maxTableCount + 1 then do
    let miner2 ← s.miner2.emplace g.nextId ⟨minerid, 0⟩
    pure ({ s with
      miner2 := miner2
      miner2ex := some ⟨g.nextId + 1, g.maxTableCount + 1, g.maxMinerCount + 1⟩ },
      g.nextId.toUInt32)
  else do
    let slot ← s.miner2.get g.nextId "can not find next_id"
    pure ({ s with
      miner2 := s.miner2.put g.nextId ⟨minerid, 0⟩
      miner2ex := some ⟨slot.nextId, g.maxTableCount, g.maxMinerCount + 1⟩ },
      g.nextId.toUInt32)

def delMiner2 (s : Tables) (internalId : UInt64) : Checked Tables :=
  if internalId = 0 then .ok s
  else
    match s.miner2ex with
    | none => .error "miner2 table is empty"
    | some g => do
        let _slot ← s.miner2.get internalId "can not find next_id"
        pure { s with
          miner2 := s.miner2.put internalId ⟨0, g.nextId⟩
          miner2ex := some ⟨internalId, g.maxTableCount, g.maxMinerCount - 1⟩ }

/-! ## 2. Storage pools -/

def delstrpool (c : Ctx) (s : Tables) (poolid : Name) : Checked Outcome := do
  c.requireAuth (N "hddpooladmin")
  match s.storepool.find poolid with
  | none => pure (s, [])
  | some pool => do
      ensure (pool.maxSpace - pool.spaceLeft = 0) "can not delete this storepool."
      pure ({ s with storepool := s.storepool.erase poolid }, [])

def regstrpool (c : Ctx) (s : Tables) (poolId poolOwner : Name) : Checked Outcome := do
  c.requireAuth poolOwner
  ensure (s.storepool.find poolId = none) "storepool already registered"
  let storepool ← s.storepool.emplace poolId ⟨poolOwner, maxPoolSpace, maxPoolSpace⟩
  let quant ← Asset.make 100000 coreSymbol
  pure ({ s with storepool := storepool },
    [⟨poolOwner, .transfer poolOwner hddExchgAcc quant "pay for creation storepool".toList⟩])

def newPoolSpace (maxSpace deltaSpace : UInt64) (isIncrease : Bool) : UInt64 :=
  if isIncrease then maxSpace + deltaSpace
  else if deltaSpace < maxSpace then maxSpace - deltaSpace
  else 0

def chgpoolspace (c : Ctx) (s : Tables) (poolId : Name) (isIncrease : Bool)
    (deltaSpace : UInt64) : Checked Outcome := do
  c.requireAuth (N "hddpooladml2")
  let pool ← s.storepool.get poolId "storepool not exist"
  let maxSpace := newPoolSpace pool.maxSpace deltaSpace isIncrease
  ensure (maxSpace ≤ maxPoolSpace) "execeed max pool space"
  let spaceUsed := pool.maxSpace - pool.spaceLeft
  ensure (spaceUsed ≤ maxSpace) "invalid max_space"
  pure ({ s with
    storepool := s.storepool.put poolId
      { pool with maxSpace := maxSpace, spaceLeft := maxSpace - spaceUsed } }, [])

/-! ## 3. Registration and deletion -/

/-- Bind a miner to its owner: `hdd_macc_user` counts the owners that got a
    first miner. -/
def bindOwner (c : Ctx) (s : Tables) (minerid : UInt64) (minerowner : Name) : Checked Tables := do
  let hddMaccUser :=
    if s.maccount.emptyScope minerowner then s.hddMaccUser + 1 else s.hddMaccUser
  ensure (s.maccount.find (minerowner, minerid) = none) "miner already bind to a owner"
  let maccount ← s.maccount.emplace (minerowner, minerid) ⟨0, 0, 0, c.currentTime⟩
  pure { s with maccount := maccount, hddMaccUser := hddMaccUser }

/-- The deposit a registration asks `hdddeposit` to lock. -/
def regDeposit (fp : Doubles) (v : Views) (maxSpace : UInt64) (depAmount : Asset)
    (isCalc : Bool) : Checked Asset :=
  if isCalc then HddDeposit.calcDeposit fp v.deposit maxSpace
  else do
    ensure (HddDeposit.isDepositEnough fp v.deposit depAmount maxSpace)
      "deposit not enough for miner's max_space -- regminer"
    pure depAmount

def regminer (fp : Doubles) (c : Ctx) (v : Views) (s : Tables) (minerid : UInt64)
    (adminacc depAcc poolId minerowner : Name) (maxSpace : UInt64) (depAmount : Asset)
    (isCalc : Bool) : Checked Outcome := do
  ensure (c.isAccount adminacc) "adminacc invalidate"
  ensure (c.isAccount depAcc) "dep_acc invalidate"
  ensure (c.isAccount minerowner) "minerowner invalidate"
  ensure (0 < minerid) "minerid must greater than zero"
  c.requireAuth depAcc
  let pool ← s.storepool.get poolId "storepool not registered"
  c.requireAuth pool.poolOwner
  ensure (s.minerinfo.find minerid = none) "miner already registered \n"
  ensure (maxSpace &&& 65535 = 0) "invalid max_space"
  ensure (maxSpace ≤ maxMinerSpace) "miner max_space overflow\n"
  ensure (minMinerSpace ≤ maxSpace) "miner max_space underflow\n"
  ensure (0 < pool.spaceLeft ∧ maxSpace ≤ pool.spaceLeft) "pool space not enough"
  let s := { s with
    storepool := s.storepool.put poolId { pool with spaceLeft := pool.spaceLeft - maxSpace } }
  let s ← bindOwner c s minerid minerowner
  let s ← openOwner c s minerowner
  let minerinfo ← s.minerinfo.emplace minerid ⟨minerowner, adminacc, poolId, maxSpace, maxSpace⟩
  let s := chgTotalSpace { s with minerinfo := minerinfo } maxSpace true
  ensure (s.miner.find minerid = none) "already sync"
  let (s, internalId) ← insertMiner2 s minerid
  let miner ← s.miner.emplace minerid
    { owner := minerowner, admin := adminacc, poolId := poolId, maxSpace := maxSpace
      space := 0, lastModifyTime := c.currentTime, internalId := internalId
      realSpace := 0, level := defaulMinerLevel, status := 2 }
  let quant ← regDeposit fp v maxSpace depAmount isCalc
  pure ({ s with miner := miner }, [⟨N "hddpooladmin", .paydeposit depAcc minerid quant⟩])

def chgOwnerSpaceIf (cond : Prop) [Decidable cond] (userhdd : Table Name UserHdd)
    (change : Checked (Table Name UserHdd)) : Checked (Table Name UserHdd) :=
  if cond then change else .ok userhdd

/-- Take a miner from its owner's list; an earning miner also leaves the
    owner's production space. -/
def unbindOwner (fp : Doubles) (c : Ctx) (s : Tables) (minerid : UInt64) (owner : Name) :
    Checked Tables :=
  if owner = 0 then .ok s
  else
    match s.maccount.find (owner, minerid) with
    | none => .ok s
    | some acc => do
        let userhdd ← chgOwnerSpaceIf (0 < acc.hddPerCycleProfit) s.userhdd
          (chgOwnerSpace fp s.userhdd owner acc.space false false c.currentTime 0)
        pure { s with userhdd := userhdd, maccount := s.maccount.erase (owner, minerid) }

/-- Give the space of a deleted miner back to its pool.  The empty pool name is
    taken to mean that there is no pool. -/
def returnPoolSpace (s : Tables) (info : MinerInfo) : Tables :=
  if info.poolId = 0 then s
  else { s with
    storepool := s.storepool.adjust info.poolId fun pool =>
      { pool with spaceLeft := pool.spaceLeft + info.maxSpace } }

/-- The sync section of `delminer`; `del_miner2` does nothing for the id 0. -/
def dropMiner (s : Tables) (minerid : UInt64) : Checked Tables :=
  match s.miner.find minerid with
  | none => .ok s
  | some row => do
      let s ← delMiner2 s row.internalId.toUInt64
      pure { s with miner := s.miner.erase minerid }

/-- Who may delete a miner: the paths of block producers and of the miner's
    admin end in a check that always fails. -/
def delminerAuth (c : Ctx) (info : MinerInfo) (accType : UInt8) (caller : Name) : Checked Unit :=
  if accType = 1 then do
    ensure (c.isAccount caller) "caller not a account."
    c.checkBpAccount caller
    ensure ((1 : Nat) = 2) "not support"
  else if accType = 2 then do
    c.requireAuth info.admin
    ensure ((1 : Nat) = 2) "not support"
  else c.requireAuth (N "hddpooladml2")

def delminer (fp : Doubles) (c : Ctx) (s : Tables) (minerid : UInt64) (accType : UInt8)
    (caller : Name) : Checked Outcome := do
  let info ← s.minerinfo.get minerid "minerid not exist in minerinfo table"
  delminerAuth c info accType caller
  let s ← unbindOwner fp c s minerid info.owner
  let s := returnPoolSpace s info
  let s := chgTotalSpace { s with minerinfo := s.minerinfo.erase minerid } info.maxSpace false
  let s ← dropMiner s minerid
  pure (s, [⟨N "hddpooladmin", .delminer minerid⟩])

/-! ## 4. Production space -/

def checkCaller (c : Ctx) (caller : Name) : Checked Unit := do
  ensure (c.isAccount caller) "caller not an account."
  c.checkBpAccount caller

/-- The miner's rows in `minerinfo` and in the scope of its owner. -/
def minerRows (s : Tables) (minerid : UInt64) : Checked (MinerInfo × MAccount) := do
  let info ← s.minerinfo.get minerid "minerid not exist in minerinfo"
  let acc ← s.maccount.get (info.owner, minerid) "minerid not register"
  pure (info, acc)

def addmprofit (fp : Doubles) (c : Ctx) (s : Tables) (minerid space : UInt64) (caller : Name) :
    Checked Outcome := do
  checkCaller c caller
  ensure (space &&& 65535 = 0) "invalid space"
  let (info, acc) ← minerRows s minerid
  ensure (0 < acc.space → 0 < acc.hddPerCycleProfit) "miner is deactive"
  ensure (0 < info.maxSpace) "invalid max space"
  ensure (space ≤ info.spaceLeft) "exceed max space"
  let (kept, _) ← settle fp minerMagnitude acc.hddBalance acc.hddPerCycleProfit acc.lastHddTime
    c.currentTime 0
  let newspace := acc.space + space
  let userhdd ← chgOwnerSpace fp s.userhdd info.owner space true true c.currentTime
    (profitDeadline 0)
  pure ({ s with
    minerinfo := s.minerinfo.put minerid { info with spaceLeft := info.spaceLeft - space }
    maccount := s.maccount.put (info.owner, minerid)
      { space := newspace, hddPerCycleProfit := fp.cycleProfit newspace
        hddBalance := kept, lastHddTime := c.currentTime }
    userhdd := userhdd
    miner := s.miner.adjust minerid fun row =>
      { row with space := row.space + space
                 status := if row.status = 2 then 0 else row.status } }, [])

def submprofit (fp : Doubles) (c : Ctx) (s : Tables) (minerid space : UInt64) (caller : Name) :
    Checked Outcome := do
  checkCaller c caller
  ensure (space &&& 65535 = 0) "invalid space"
  let (info, acc) ← minerRows s minerid
  -- a miner with space and no profit has been deactivated
  let mactive : Bool := !decide (0 < acc.space ∧ acc.hddPerCycleProfit = 0)
  ensure (info.spaceLeft + space ≤ info.maxSpace) "exceed max space"
  let (kept, _) ← settle fp minerMagnitude acc.hddBalance acc.hddPerCycleProfit acc.lastHddTime
    c.currentTime 0
  ensure (space ≤ acc.space) "invalid new production space"
  let newspace := acc.space - space
  let userhdd ← chgOwnerSpaceIf mactive s.userhdd
    (chgOwnerSpace fp s.userhdd info.owner space false mactive c.currentTime (profitDeadline 0))
  pure ({ s with
    minerinfo := s.minerinfo.put minerid { info with spaceLeft := info.spaceLeft + space }
    maccount := s.maccount.put (info.owner, minerid)
      { space := newspace
        hddPerCycleProfit := if mactive then fp.cycleProfit newspace else acc.hddPerCycleProfit
        hddBalance := kept, lastHddTime := c.currentTime }
    userhdd := userhdd
    miner := s.miner.adjust minerid fun row => { row with space := row.space - space } }, [])

def mdeactive (fp : Doubles) (c : Ctx) (s : Tables) (minerid : UInt64) (caller : Name) :
    Checked Outcome := do
  checkCaller c caller
  let (info, acc) ← minerRows s minerid
  ensure (0 < acc.space → 0 < acc.hddPerCycleProfit) "miner has no cycle profit"
  let (kept, _) ← settle fp minerMagnitude acc.hddBalance acc.hddPerCycleProfit acc.lastHddTime
    c.currentTime 0
  let userhdd ← chgOwnerSpace fp s.userhdd info.owner acc.space false true c.currentTime
    (profitDeadline 0)
  pure ({ s with
    maccount := s.maccount.put (info.owner, minerid)
      { acc with hddBalance := kept, lastHddTime := c.currentTime, hddPerCycleProfit := 0 }
    userhdd := userhdd
    miner := s.miner.adjust minerid fun row => { row with status := 1 } }, [])

def mactive (fp : Doubles) (c : Ctx) (s : Tables) (minerid : UInt64) (caller : Name) :
    Checked Outcome := do
  checkCaller c caller
  let (info, acc) ← minerRows s minerid
  ensure (acc.hddPerCycleProfit = 0) "miner already has cycle profit"
  let userhdd ← chgOwnerSpace fp s.userhdd info.owner acc.space true true c.currentTime 0
  pure ({ s with
    maccount := s.maccount.put (info.owner, minerid)
      { acc with hddPerCycleProfit := fp.cycleProfit acc.space, lastHddTime := c.currentTime }
    userhdd := userhdd
    miner := s.miner.adjust minerid fun row => { row with status := 0 } }, [])

/-! ## 5. Changes of a miner's data -/

/-- Give `space` back to a pool, up to its quota. -/
def releasePoolSpace (pool : StorePool) (space : UInt64) : StorePool :=
  { pool with
    spaceLeft := if pool.maxSpace < pool.spaceLeft + space then pool.maxSpace
      else pool.spaceLeft + space }

def mchgstrpool (c : Ctx) (s : Tables) (minerid : UInt64) (newPoolid : Name) :
    Checked Outcome := do
  let info ← s.minerinfo.get minerid "miner not registered \n"
  let pool ← s.storepool.get newPoolid "storepool not registered"
  c.requireAuth info.admin
  c.requireAuth pool.poolOwner
  let old ← s.storepool.get info.poolId "original storepool not registered"
  let storepool := s.storepool.put info.poolId (releasePoolSpace old info.maxSpace)
  -- both iterators come from one table object, so the new pool is read after the return
  let pool ← storepool.get newPoolid "storepool not registered"
  ensure (info.maxSpace ≤ pool.spaceLeft) "new pool space not enough"
  pure ({ s with
    storepool := storepool.put newPoolid
      { pool with spaceLeft := pool.spaceLeft - info.maxSpace }
    minerinfo := s.minerinfo.put minerid { info with poolId := newPoolid }
    miner := s.miner.adjust minerid fun row => { row with poolId := newPoolid } }, [])

/-- The deposit an increase asks `hdddeposit` to lock: what was forfeited and
    the share of the added space. -/
def incDeposit (fp : Doubles) (v : Views) (minerid space : UInt64) (depAmount : Asset)
    (isCalc : Bool) : Checked Asset := do
  let forfeit ← HddDeposit.getMinerForfeit v.deposit minerid
  let share ← HddDeposit.calcDeposit fp v.deposit space
  let need ← forfeit.add share
  if isCalc then pure need
  else do
    ensure (need.amount ≤ depAmount.amount) "deposit not enough"
    pure depAmount

def mincdeposit (fp : Doubles) (c : Ctx) (v : Views) (s : Tables) (minerid space : UInt64)
    (depAmount : Asset) (isCalc : Bool) : Checked Outcome := do
  let row ← s.miner.get minerid "miner not registered!"
  ensure (space &&& 65535 = 0) "invalid max_space!"
  ensure (space + row.maxSpace ≤ maxMinerSpace) "miner max_space overflow!"
  ensure (minMinerSpace ≤ space + row.maxSpace) "miner max_space underflow!"
  c.requireAuth (HddDeposit.getMinerDepacc v.deposit minerid)
  c.requireAuth (getMinerPoolOwner s minerid)
  let pool ← s.storepool.get row.poolId "storepool not exist"
  ensure (space ≤ pool.spaceLeft) "exceed storepool's max space"
  let s := { s with
    storepool := s.storepool.put row.poolId { pool with spaceLeft := pool.spaceLeft - space }
    miner := s.miner.put minerid
      { row with maxSpace := row.maxSpace + space
                 realSpace := if 0 < row.realSpace then row.realSpace + space else row.realSpace } }
  let s := chgTotalSpace s space true
  let quant ← incDeposit fp v minerid space depAmount isCalc
  pure ({ s with
    minerinfo := s.minerinfo.adjust minerid fun info =>
      { info with maxSpace := info.maxSpace + space, spaceLeft := info.spaceLeft + space } },
    [⟨N "hddpooladmin", .incdeposit minerid quant⟩])

def mchgadminacc (c : Ctx) (s : Tables) (minerid : UInt64) (newAdminacc : Name) :
    Checked Outcome := do
  let info ← s.minerinfo.get minerid "miner not registered \n"
  c.requireAuth info.admin
  ensure (c.isAccount newAdminacc) "new admin is not an account."
  pure ({ s with
    minerinfo := s.minerinfo.put minerid { info with admin := newAdminacc }
    miner := s.miner.adjust minerid fun row => { row with admin := newAdminacc } }, [])

def mchgowneracc (fp : Doubles) (c : Ctx) (s : Tables) (minerid : UInt64) (newOwneracc : Name) :
    Checked Outcome := do
  let info ← s.minerinfo.get minerid "miner not registered \n"
  ensure (c.isAccount newOwneracc) "new owner is not an account."
  ensure (info.owner ≠ 0) "no owner for this miner"
  c.requireAuth info.admin
  c.requireAuth (getMinerPoolOwner s minerid)
  let acc ← s.maccount.get (info.owner, minerid) "minerid not register"
  let isChangeTotal := decide (0 < acc.hddPerCycleProfit)
  let userhdd ← chgOwnerSpaceIf isChangeTotal s.userhdd
    (chgOwnerSpace fp s.userhdd info.owner acc.space false true c.currentTime 0)
  let s ← openOwner c { s with userhdd := userhdd } newOwneracc
  let userhdd ← chgOwnerSpaceIf isChangeTotal s.userhdd
    (chgOwnerSpace fp s.userhdd newOwneracc acc.space true true c.currentTime 0)
  ensure (s.maccount.find (newOwneracc, minerid) = none) "new owner already own this miner"
  let maccount ← s.maccount.emplace (newOwneracc, minerid) acc
  pure ({ s with
    userhdd := userhdd
    maccount := maccount.erase (info.owner, minerid)
    minerinfo := s.minerinfo.put minerid { info with owner := newOwneracc }
    miner := s.miner.adjust minerid fun row => { row with owner := newOwneracc } }, [])

def mlevel (c : Ctx) (s : Tables) (minerid : UInt64) (level : UInt32) (caller : Name) :
    Checked Outcome := do
  c.checkBpAccount caller
  let row ← s.miner.get minerid "minerid not found"
  ensure (row.level ≠ level) "same level as before"
  ensure (level ≤ 89657) "level invalidate"
  pure ({ s with miner := s.miner.put minerid { row with level := level } }, [])

def mrspace (c : Ctx) (s : Tables) (minerid realSpace : UInt64) (caller : Name) :
    Checked Outcome := do
  c.checkBpAccount caller
  let row ← s.miner.get minerid "minerid not found"
  ensure (realSpace &&& 65535 = 0) "invalid real_space"
  ensure (0 < realSpace) "invalid read_space"
  ensure (realSpace ≠ row.realSpace) "same real space"
  ensure (realSpace ≤ row.maxSpace) "real space must less then max_space"
  pure ({ s with miner := s.miner.put minerid { row with realSpace := realSpace } }, [])

/-- Status and internal id that `oldsync` gives a miner of the old table. -/
def oldsyncSlot (s : Tables) (minerid : UInt64) (info : MinerInfo) :
    Checked (Tables × UInt16 × UInt32) :=
  if 0 < info.maxSpace then do
    let acc ← s.maccount.get (info.owner, minerid) "maccount not found"
    let status : UInt16 := if 0 < acc.space ∧ acc.hddPerCycleProfit = 0 then 1 else 0
    let (s, internalId) ← insertMiner2 s minerid
    pure (s, status, internalId)
  else .ok (s, 1, 0)

def oldsync (c : Ctx) (s : Tables) (minerid : UInt64) : Checked Outcome := do
  c.requireAuth (N "hddpooladmin")
  ensure (s.miner.find minerid = none) "already sync"
  let info ← s.minerinfo.get minerid "miner not registered"
  let (s, status, internalId) ← oldsyncSlot s minerid info
  let miner ← s.miner.emplace minerid
    { owner := info.owner, admin := info.admin, poolId := info.poolId, maxSpace := info.maxSpace
      space := if info.spaceLeft ≤ info.maxSpace then info.maxSpace - info.spaceLeft else 0
      lastModifyTime := if 0 < info.maxSpace then c.currentTime else 0
      internalId := internalId, realSpace := 0, level := defaulMinerLevel, status := status }
  pure ({ s with miner := miner }, [])

end YottaChain.HddPool
