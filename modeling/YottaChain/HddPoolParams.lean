/-
  **The price parameters of `hddpool`** and the two guards that limit how fast
  the price of YTA and the deduplication ratio may move.

  `setytaprice` and `setdrratio` share their guard; they differ in the account
  type that asks for it (100 and 1) and in what they do afterwards.
-/
import YottaChain.HddPoolAccounts

namespace YottaChain.HddPool

open Checked

def paramAuth (c : Ctx) (accType : UInt8) : Checked Unit :=
  if accType = 1 then c.requireAuth (N "hddpooladml1")
  else if accType = 2 then c.requireAuth (N "hddpooladmin")
  else c.requireAuth self

/-- The deposit rate follows the price of YTA in USD; dividing by a zero price
    traps. -/
def calcDepositRate (fp : Doubles) (s : Tables) : Checked Outcome := do
  let usdprice := s.gusdprice.getD 64500
  ensure (usdprice ≠ 0) "integer divide by zero"
  let ytaUPrice := ((s.gparams.getD {}).ytaPrice * 10000) / usdprice
  let rate : Int64 := if ytaUPrice ≤ 2000 then 10000 else fp.depositRate ytaUPrice
  pure ({ s with gdeprate := some rate }, [⟨N "hddpooladmin", .setrate (rate / 100)⟩])

def sethddprice (c : Ctx) (s : Tables) (price : UInt64) : Checked Outcome := do
  c.requireAuth self
  ensure (0 < price) "invalid price"
  pure ({ s with gparams := some { s.gparams.getD {} with hddPrice := price } }, [])

def setdrdratio (c : Ctx) (s : Tables) (ratio : UInt64) : Checked Outcome := do
  c.requireAuth self
  ensure (10000 ≤ ratio) "invalid deduplication ratio"
  pure ({ s with gparams := some { s.gparams.getD {} with dupRemoveDistRatio := ratio } }, [])

def setusdprice (fp : Doubles) (c : Ctx) (s : Tables) (price : UInt64) (accType : UInt8) :
    Checked Outcome := do
  paramAuth c accType
  ensure (0 < price) "invalid price"
  calcDepositRate fp { s with gusdprice := some price }

def addhddcnt (c : Ctx) (s : Tables) (count : Int64) (accType : UInt8) : Checked Outcome := do
  paramAuth c accType
  let g := s.gparams.getD {}
  pure ({ s with gparams := some { g with hddCounter := g.hddCounter + count } }, [])

/-! ## Guards -/

/-- One reference value of a guard: the value, when it was taken, the change in
    percent it allows and for how many seconds. -/
structure Reference where
  value : UInt64
  time : UInt64
  delta : UInt64
  timespan : UInt64

namespace Reference

/-- The change against the reference in percent; the quotient traps at zero. -/
def change (r : Reference) (value : UInt64) : Checked UInt64 := do
  let diff := value.toInt64 - r.value.toInt64
  ensure (r.value ≠ 0) "integer divide by zero"
  pure ((if diff < 0 then -diff else diff).toUInt64 * 100 / r.value)

/-- The guard refuses `value`. -/
def refuses (r : Reference) (ct value : UInt64) : Checked Bool := do
  let delta ← r.change value
  pure (decide ((ct - r.time) / 1000000 < r.timespan ∧ r.delta < delta))

def renew (r : Reference) (ct value : UInt64) : Reference :=
  if r.timespan < (ct - r.time) / 1000000 then { r with value := value, time := ct } else r

end Reference

/-- Whether a guarded change is accepted: the second reference is looked at only
    when the first does not refuse. -/
def guardAccepts (r1 r2 : Reference) (ct value : UInt64) : Checked Bool := do
  let refused1 ← r1.refuses ct value
  if refused1 then pure false
  else do
    let refused2 ← r2.refuses ct value
    pure (!refused2)

def HddPriceGuard.initial (currentTime : UInt64) : HddPriceGuard where
  lastYtapriceGuardTime1 := currentTime
  lastYtapriceGuardTime2 := currentTime
  lastDuprmvRatioGuardTime1 := currentTime
  lastDuprmvRatioGuardTime2 := currentTime

namespace HddPriceGuard

def ytaRef1 (p : HddPriceGuard) : Reference :=
  ⟨p.lastYtaGuardPrice1, p.lastYtapriceGuardTime1, p.ytaPriceDelta1, p.ytaPriceTimespan1⟩

def ytaRef2 (p : HddPriceGuard) : Reference :=
  ⟨p.lastYtaGuardPrice2, p.lastYtapriceGuardTime2, p.ytaPriceDelta2, p.ytaPriceTimespan2⟩

def dupRef1 (p : HddPriceGuard) : Reference :=
  ⟨p.lastDupRemoveGuardRatio1, p.lastDuprmvRatioGuardTime1, p.duprmvRatioDelta1,
    p.duprmvRatioTimespan1⟩

def dupRef2 (p : HddPriceGuard) : Reference :=
  ⟨p.lastDupRemoveGuardRatio2, p.lastDuprmvRatioGuardTime2, p.duprmvRatioDelta2,
    p.duprmvRatioTimespan2⟩

def setYta (p : HddPriceGuard) (r1 r2 : Reference) : HddPriceGuard :=
  { p with lastYtaGuardPrice1 := r1.value, lastYtapriceGuardTime1 := r1.time
           lastYtaGuardPrice2 := r2.value, lastYtapriceGuardTime2 := r2.time }

def setDup (p : HddPriceGuard) (r1 r2 : Reference) : HddPriceGuard :=
  { p with lastDupRemoveGuardRatio1 := r1.value, lastDuprmvRatioGuardTime1 := r1.time
           lastDupRemoveGuardRatio2 := r2.value, lastDuprmvRatioGuardTime2 := r2.time }

end HddPriceGuard

/-- The new value of a guarded parameter with its two references.  A refused
    change leaves all three as they are. -/
def guarded (isGuarded : Bool) (r1 r2 : Reference) (ct old value : UInt64) :
    Checked (UInt64 × Reference × Reference) :=
  if isGuarded then do
    let accepted ← guardAccepts r1 r2 ct value
    pure (if accepted then (value, r1.renew ct value, r2.renew ct value) else (old, r1, r2))
  else
    .ok (value, { r1 with value := value, time := ct }, { r2 with value := value, time := ct })

def setytaprice (fp : Doubles) (c : Ctx) (s : Tables) (price : UInt64) (accType : UInt8) :
    Checked Outcome := do
  paramAuth c accType
  ensure (0 < price) "invalid price"
  let g := s.gparams.getD {}
  let p := s.paramguard.getD (.initial c.currentTime)
  let (ytaPrice, r1, r2) ← guarded (accType == 100) p.ytaRef1 p.ytaRef2 c.currentTime
    g.ytaPrice price
  calcDepositRate fp { s with
    gparams := some { g with ytaPrice := ytaPrice }
    paramguard := some (p.setYta r1 r2) }

def setdrratio (c : Ctx) (s : Tables) (ratio : UInt64) (accType : UInt8) : Checked Outcome := do
  paramAuth c accType
  ensure (0 < ratio ∧ ratio ≤ 10000) "invalid deduplication distribute ratio"
  let g := s.gparams.getD {}
  let p := s.paramguard.getD (.initial c.currentTime)
  let (dupRemoveRatio, r1, r2) ← guarded (accType == 1) p.dupRef1 p.dupRef2 c.currentTime
    g.dupRemoveRatio ratio
  pure ({ s with
    gparams := some { g with dupRemoveRatio := dupRemoveRatio }
    paramguard := some (p.setDup r1 r2) }, [])

end YottaChain.HddPool
