/-
  **The reward lottery of `hddpool`.**

    * `onbuild` scans the internal ids three at a time and writes one row per
      earning miner into the buffer that is not in use; at the end of a pass the
      two buffers change places;
    * `onreward` updates the daily parameters and draws a miner from the buffer
      in use, by a binary search of at most twenty steps over the range values;
    * `payrewardnew` and `channellog` turn a draw into payments.

  A search that meets a missing row, or a modulus by zero, is a value of `Draw`
  of its own, so that a theorem can say that it does not happen.
-/
import YottaChain.HddPoolMiners

namespace YottaChain.HddPool

open Checked

/-! ## 1. Weights -/

/-- The capacity weight: gigabytes times level over 100.  The source divides in
    double precision, which is exact for the values that occur (the product is
    below `2 ^ 34`). -/
def weight1 (row : Miner) : UInt64 :=
  let realspace :=
    if 0 < row.realSpace ∧ row.realSpace < row.maxSpace then row.realSpace else row.maxSpace
  (realspace >>> 16) * row.level.toUInt64 / 100

def weight2 (row : Miner) : UInt64 :=
  let spaceGb := row.space >>> 16
  (if spaceGb = 0 then 1 else spaceGb) * 3

/-! ## 2. Building the buffers -/

namespace MScore2Ex

def activeScope (g : MScore2Ex) : Scope := if g.currentS = 0 then .scopea else .scopeb

def buildScope (g : MScore2Ex) : Scope := if g.currentS = 0 then .scopeb else .scopea

def activeCount1 (g : MScore2Ex) : UInt64 :=
  if g.currentS = 0 then g.mscore1S0Count else g.mscore1S1Count

def activeCount2 (g : MScore2Ex) : UInt64 :=
  if g.currentS = 0 then g.mscore2S0Count else g.mscore2S1Count

def flip (g : MScore2Ex) : MScore2Ex :=
  let g :=
    if g.currentS = 0 then
      { g with currentS := 1, mscore1S1Count := g.buildCount1, mscore2S1Count := g.buildCount2 }
    else
      { g with currentS := 0, mscore1S0Count := g.buildCount1, mscore2S0Count := g.buildCount2 }
  { g with buildProcId := 1, prevBuildRange1 := 0, prevBuildRange2 := 0
           buildCount1 := 0, buildCount2 := 0 }

end MScore2Ex

/-- The part of the state that the loop of `onbuild` changes. -/
structure Build where
  mscore1 : Table (Scope × UInt64) MScore
  mscore2 : Table (Scope × UInt64) MScore
  ex : MScore2Ex

namespace Build

def addScore1 (scope : Scope) (minerid range : UInt64) (b : Build) : Build :=
  let total := b.ex.prevBuildRange1 + range
  { b with
    mscore1 := b.mscore1.put (scope, b.ex.buildCount1 + 1) ⟨minerid, total⟩
    ex := { b.ex with prevBuildRange1 := total, buildCount1 := b.ex.buildCount1 + 1 } }

def addScore2 (scope : Scope) (minerid range : UInt64) (b : Build) : Build :=
  let total := b.ex.prevBuildRange2 + range
  { b with
    mscore2 := b.mscore2.put (scope, b.ex.buildCount2 + 1) ⟨minerid, total⟩
    ex := { b.ex with prevBuildRange2 := total, buildCount2 := b.ex.buildCount2 + 1 } }

def addMiner (scope : Scope) (minerid : UInt64) (row : Miner) (b : Build) : Build :=
  if row.status = 0 ∧ 0 < row.maxSpace then
    addScore2 scope minerid (weight2 row)
      (if 0 < weight1 row then addScore1 scope minerid (weight1 row) b else b)
  else b

/-- The body of the loop: look at one internal id. -/
def visit (s : Tables) (scope : Scope) (b : Build) : Build :=
  match s.miner2.find b.ex.buildProcId with
  | none => b
  | some slot =>
      if slot.minerid = 0 then b
      else
        match s.miner.find slot.minerid with
        | none => b
        | some row => addMiner scope slot.minerid row b

/-- The loop with `n` rounds to go; reaching the end of the table ends the pass
    and the loop. -/
def loop (s : Tables) (scope : Scope) (maxTableCount : UInt64) : Nat → Build → Build
  | 0, b => b
  | n + 1, b =>
      let b := visit s scope b
      let b := { b with ex := { b.ex with buildProcId := b.ex.buildProcId + 1 } }
      if maxTableCount < b.ex.buildProcId then { b with ex := b.ex.flip }
      else loop s scope maxTableCount n b

end Build

def buildTables (s : Tables) (maxTableCount : UInt64) : Tables :=
  let g := s.mscore2ex.getD {}
  if maxTableCount < g.buildProcId then { s with mscore2ex := some g.flip }
  else
    let b := Build.loop s g.buildScope maxTableCount 3 ⟨s.mscore1, s.mscore2, g⟩
    { s with mscore1 := b.mscore1, mscore2 := b.mscore2, mscore2ex := some b.ex }

def onbuild (c : Ctx) (s : Tables) (slot : UInt32) : Checked Outcome := do
  c.requireAuth self
  match s.newmparam with
  | none => pure (s, [])
  | some p =>
      let s := { s with newmparam := some { p with lastBuildSlot := slot, spanBuildSlot := 2 } }
      match s.miner2ex with
      | none => pure (s, [])
      | some g => pure (buildTables s g.maxTableCount, [])

/-! ## 3. Drawing a miner -/

inductive Draw where
  /-- The buffer in use has no last row. -/
  | noTable
  /-- The modulus by the last range is a modulus by zero. -/
  | modZero
  /-- The search met an id without a row. -/
  | missingRow
  /-- Twenty steps were not enough. -/
  | gaveUp
  | picked (minerid : UInt64)
deriving DecidableEq

/-- Where the loop of the search stops: with the miner of an exact hit (or 0) and
    the two bounds. -/
inductive Search where
  | missingRow
  | gaveUp
  | stopped (selMinerid low high : UInt64)

/-- The search loop with `n` steps left before it gives up. -/
def searchLoop (find : UInt64 → Option MScore) (selRange : UInt64) :
    Nat → UInt64 → UInt64 → Search
  | 0, _, _ => .gaveUp
  | n + 1, low, high =>
      if low ≤ high then
        let mid := (low + high) / 2
        match find mid with
        | none => .missingRow
        | some row =>
            if row.range = selRange then .stopped row.minerid low high
            else if row.range < selRange then searchLoop find selRange n (mid + 1) high
            else searchLoop find selRange n low (mid - 1)
      else .stopped 0 low high

def pickBetween (find : UInt64 → Option MScore) (selRange low high : UInt64) : Draw :=
  match find (if low = 1 then 1 else high) with
  | none => .missingRow
  | some row =>
      if selRange ≤ row.range then .picked row.minerid
      else
        match find low with
        | none => .missingRow
        | some row2 => .picked row2.minerid

/-- `rewardproc1` and `rewardproc2` up to the payment: draw from the rows that
    `find` sees, of which `maxCount` are in use. -/
def rewardproc (find : UInt64 → Option MScore) (maxCount random : UInt64) : Draw :=
  match find maxCount with
  | none => .noTable
  | some last =>
      if last.range = 0 then .modZero
      else
        let selRange := random % last.range + 1
        match searchLoop find selRange 20 1 maxCount with
        | .missingRow => .missingRow
        | .gaveUp => .gaveUp
        | .stopped selMinerid low high =>
            if selMinerid ≠ 0 then .picked selMinerid else pickBetween find selRange low high

def rewardproc1 (s : Tables) (random : UInt64) : Draw :=
  match s.mscore2ex with
  | none => .noTable
  | some g => rewardproc (fun k => s.mscore1.find (g.activeScope, k)) g.activeCount1 random

def rewardproc2 (s : Tables) (random : UInt64) : Draw :=
  match s.mscore2ex with
  | none => .noTable
  | some g => rewardproc (fun k => s.mscore2.find (g.activeScope, k)) g.activeCount2 random

/-- What a draw leads to: a modulus by zero traps, and a drawn miner gets a
    deferred payment, unless it is the id 0. -/
def rewardlog (d : Draw) (rewardType : UInt8) (reward : Int64) (isDestory : Bool) :
    Checked (List Sent) :=
  match d with
  | .modZero => .error "integer divide by zero"
  | .picked minerid =>
      if minerid = 0 then .ok []
      else do
        let quant ← Asset.make reward coreSymbol
        pure [⟨self, .payrewardnew rewardType quant minerid isDestory⟩]
  | _ => .ok []

/-! ## 4. The daily parameters -/

def divOrTrap (a b : Int64) : Checked Int64 := do
  ensure (b ≠ 0) "integer divide by zero"
  pure (a / b)

def setRewards (fp : Doubles) (p : NewMParam) (realReward : Int64) : NewMParam :=
  let reward1 := fp.tenths 8 realReward
  let reward2 := realReward - reward1
  { p with curReward1 := reward1, curReward2 := reward2
           curReward1gas := fp.tenths 1 reward1, curReward2gas := fp.tenths 1 reward2 }

def startnewm (fp : Doubles) (c : Ctx) (s : Tables) : Checked Outcome := do
  c.requireAuth (N "hddpooladmin")
  match s.counterstat with
  | none => .error "can not start new model"
  | some totalSpace => do
      let p := s.newmparam.getD {}
      ensure (p.isStarted = false) "new model already started"
      let rewardIssue := fp.rewardIssue 1
      let quant ← Asset.make rewardIssue coreSymbol
      let realReward ← divOrTrap rewardIssue (fp.rewardsPerDay 12)
      let incSpace : UInt64 := 14365491
      let p := { setRewards fp p realReward with
          startTime := c.currentTime, spanRewardSlot := 12, newSpanRewardSlot := 12
          rewardType := 0, rewardDay := 1, rewardMonth := 1
          nextDayTime := c.currentTime + microsecondsInOneDay
          totalDestory := 0, curDestory := 0
          totalIssue := rewardIssue, curIssue := rewardIssue
          startSpace := totalSpace, lastMonthIncSpace := incSpace
          lastDayIncSpace := incSpace / 30, taskSpace := totalSpace + incSpace / 30
          isStarted := true }
      pure ({ s with newmparam := some p },
        [⟨N "eosio", .issue (N "fund.sys") quant "issue tokens for reward".toList⟩])

def nextMonth (p : NewMParam) (rewardMonth : UInt32) : NewMParam :=
  if p.rewardMonth < rewardMonth then
    let inc := if p.lastMonthIncSpace < 104858 then 0 else p.lastMonthIncSpace - 104858
    { p with rewardMonth := rewardMonth, lastMonthIncSpace := inc, lastDayIncSpace := inc / 30 }
  else p

/-- Burning after a day that missed its target: all of the fund above a minimum. -/
def destroyFund (fp : Doubles) (v : Views) (p : NewMParam) (isDestory : Bool)
    (curIssue : Int64) : Checked (NewMParam × List Sent) :=
  if isDestory then do
    let balance ← Token.getBalance v.token (N "fund.sys") (symbolName coreSymbol)
    let p := { p with curDestory := fp.tenths 7 curIssue }
    let real : Int64 := if 1000000000 < balance.amount then balance.amount - 1000000000 else 0
    if 0 < real then do
      let quant ← Asset.make real coreSymbol
      pure ({ p with totalDestory := p.totalDestory + real },
        [⟨N "fund.sys", .transfer (N "fund.sys") (N "eosio.null") quant
          "destory reward tokens".toList⟩])
    else pure (p, [])
  else .ok ({ p with curDestory := 0 }, [])

def issueDay (fp : Doubles) (v : Views) (p : NewMParam) (isDestory : Bool) :
    Checked (NewMParam × List Sent × Bool) :=
  let rewardIssue := fp.rewardIssue p.rewardDay
  let curIssue := rewardIssue - p.totalIssue
  if p.totalIssue < rewardIssue ∧ curIssue ≤ 4812942883 then do
    let (p, burnt) ← destroyFund fp v p isDestory curIssue
    let quant ← Asset.make curIssue coreSymbol
    let realReward ← divOrTrap (curIssue - p.curDestory) (fp.rewardsPerDay p.newSpanRewardSlot)
    pure (setRewards fp
      { p with curIssue := curIssue, totalIssue := rewardIssue
               spanRewardSlot := p.newSpanRewardSlot } realReward,
      burnt ++ [⟨N "eosio", .issue (N "fund.sys") quant "issue tokens for reward".toList⟩], true)
  else
    .ok ({ p with curIssue := 0, curDestory := 0, curReward1 := 0, curReward2 := 0
                  curReward1gas := 0, curReward2gas := 0 }, [], false)

/-- The block of `update_newmodel_params` at the start of a reward day. -/
def nextDay (fp : Doubles) (c : Ctx) (v : Views) (p : NewMParam) (totalSpace : UInt64) :
    Checked (NewMParam × List Sent × Bool) :=
  if p.nextDayTime ≤ c.currentTime then do
    let rewardDay := p.rewardDay + 1
    let isDestory := decide (totalSpace < p.taskSpace)
    let p := nextMonth { p with rewardDay := rewardDay } ((rewardDay - 1) / daysInOneMonth + 1)
    let p := { p with taskSpace := p.taskSpace + p.lastDayIncSpace }
    let (p, sent, bret) ← issueDay fp v p isDestory
    let next :=
      if p.nextDayTime + microsecondsInOneDay ≤ c.currentTime then
        c.currentTime + microsecondsInOneDay
      else p.nextDayTime + microsecondsInOneDay
    pure ({ p with nextDayTime := next }, sent, bret)
  else .ok (p, [], true)

/-- What `update_newmodel_params` returns through its reference arguments. -/
structure RewardPlan where
  reward : Int64
  isRewardDestory : Bool
  rewardType : UInt8

/-- `update_newmodel_params`; no plan means that it returned `false`. -/
def updateNewmodelParams (fp : Doubles) (c : Ctx) (v : Views) (s : Tables) (slot : UInt32) :
    Checked (Tables × List Sent × Option RewardPlan) :=
  match s.newmparam with
  | none => .ok (s, [], none)
  | some p =>
      let p := { p with lastRewardSlot := slot }
      if p.isStarted = false then .ok ({ s with newmparam := some p }, [], none)
      else
        match s.counterstat with
        | none => .ok (s, [], none)
        | some totalSpace => do
            let (p, sent, bret) ← nextDay fp c v p totalSpace
            let realReward ← divOrTrap p.curIssue (fp.rewardsPerDay p.spanRewardSlot)
            let plan : RewardPlan :=
              if p.rewardType = 0 then ⟨fp.tenths 8 realReward, decide (0 < p.curDestory), 0⟩
              else ⟨fp.tenths 2 realReward, decide (0 < p.curDestory), 1⟩
            let p := { p with rewardType := if p.rewardType = 0 then 1 else 0 }
            pure ({ s with newmparam := some p }, sent, if bret then some plan else none)

def onreward (fp : Doubles) (c : Ctx) (v : Views) (s : Tables) (slot : UInt32) :
    Checked Outcome := do
  c.requireAuth self
  let (s, sent, plan) ← updateNewmodelParams fp c v s slot
  match plan with
  | none => pure (s, sent)
  | some plan =>
      if plan.reward = 0 then pure (s, sent)
      else do
        let random := c.taposBlockPrefix * c.taposBlockNum * c.taposBlockNum
        let paid ←
          (if plan.rewardType = 0 then
            rewardlog (rewardproc1 s random) 1 plan.reward plan.isRewardDestory
          else rewardlog (rewardproc2 s random) 2 plan.reward plan.isRewardDestory)
        pure (s, sent ++ paid)

/-! ## 5. Payment -/

/-- The deferred payment of a draw: log it if the owner can pay the gas. -/
def payrewardnew (fp : Doubles) (c : Ctx) (v : Views) (s : Tables) (type : UInt8) (quant : Asset)
    (minerid : UInt64) (isDestory : Bool) : Checked Outcome := do
  c.requireAuth self
  let row ← s.miner.get minerid "invalid mimerid"
  let rewardAmount :=
    if HddDeposit.isOldMiner v.deposit minerid ∧ isDestory then fp.tenths 8 quant.amount
    else quant.amount
  let gasAmount := fp.tenths 1 rewardAmount
  let reward ← Asset.make rewardAmount coreSymbol
  let gas ← Asset.make gasAmount coreSymbol
  if gas.amount ≤ (Channel.getfeebalance v.channel row.owner).amount then
    pure (s, [⟨self, .poollog type reward minerid gas row.owner⟩])
  else pure (s, [⟨self, .poolfail type reward minerid gas row.owner⟩])

def channelfail (c : Ctx) (s : Tables) : Checked Outcome := do
  c.requireAuth self
  pure (s, [])

/-- The memo `type:owner:minerid` that `channel.sys` reads. -/
def rewardMemo (type : UInt8) (owner : Name) (minerid : UInt64) : Text :=
  (Nat.repr type.toNat).toList ++ ':' :: nameToString owner ++ ':' ::
    (Nat.repr minerid.toNat).toList

def channellog (c : Ctx) (s : Tables) (type : UInt8) (quant : Asset) (minerid : UInt64)
    (gas : Asset) (owner : Name) : Checked Outcome := do
  c.requireAuth self
  let memo := rewardMemo type owner minerid
  pure (s,
    [⟨N "channel.sys", .subfee owner gas (memo ++ ":gas".toList)⟩,
     ⟨N "fund.sys", .transfer (N "fund.sys") (N "channel.sys") quant memo⟩])

end YottaChain.HddPool
