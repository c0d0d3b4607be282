/-
  **Producers, their levels, and votes.**

  The data of a producer is kept in three places: the table `producers`, the table
  `producersext` of those that have been given a number and a level, and the level
  lists.  The lists are searched and edited in place; the four functions that do it
  differ only in what they write, and share `editProducer`.

  A vote is recorded by taking the voter's last weight from what it voted for and
  adding the new weight to what it votes for (`voteDeltas`, `applyDelta`).  The
  weight is the stake and the free part of the deposit, and the comparisons of the
  source that cast a weight to `int64_t` are comparisons of integers here.
  Voting through a proxy is modelled although no account can become a proxy.
-/
import YottaChain.SystemTables

namespace YottaChain.System

open Checked KeyedList

/-! ## 1. The level lists -/

def levelOneMax : ℕ := 21

def levelTwoMax : ℕ := 105

def editProducer (e : Election) (producer : Name) (f : YtaProdInfo → Option YtaProdInfo) :
    Election :=
  { e with prodslevel := e.prodslevel.map fun s =>
      let r := editEither YtaProdInfo.owner producer f s.prodsL1 s.prodsL2
      ⟨r.1, r.2⟩ }

def rmProducerYta (e : Election) (producer : Name) : Election :=
  editProducer e producer fun _ => none

def updateProducersYtaTotalvotes (e : Election) (owner : Name) (totalVotes : ℤ) : Election :=
  editProducer e owner fun p => some { p with totalVotes := totalVotes }

def addProducerYta (e : Election) (producer : Name) (level : UInt8) : Checked Election := do
  let prod ← e.producers.get producer "producer not found"
  let prodyta : YtaProdInfo :=
    ⟨producer, prod.totalVotes, prod.producerKey, prod.isActive, prod.location, false, 0⟩
  let s := e.prodslevel.getD {}
  if level = 1 then do
    ensure (s.prodsL1.length < levelOneMax) "too many level one bp"
    pure { e with prodslevel := some { s with prodsL1 := s.prodsL1 ++ [prodyta] } }
  else if level = 2 then do
    ensure (s.prodsL2.length < levelTwoMax) "too many level two bp"
    pure { e with prodslevel := some { s with prodsL2 := s.prodsL2 ++ [prodyta] } }
  else pure { e with prodslevel := some s }

/-! ## 2. Registration -/

/-- The part of `delproducer` about the table `producers`. -/
def eraseProducer (e : Election) (producer : Name) : Election :=
  match e.producers.find producer with
  | none => e
  | some p => { e with
      producers := e.producers.erase producer
      totalUnpaidBlocks := e.totalUnpaidBlocks - p.unpaidBlocks
      totalProducerVoteWeight := e.totalProducerVoteWeight - p.totalVotes }

def delproducer (e : Election) (producer : Name) : Election :=
  let e := eraseProducer e producer
  match e.producersext.find producer with
  | none => e
  | some p => rmProducerYta { e with
      producersext := e.producersext.erase producer
      totalUnpaidBaseCnt := e.totalUnpaidBaseCnt - p.unpaidBaseCnt } producer

def changeProducerYtaInfo (e : Election) (producer : Name) (producerKey : PublicKey)
    (isactive : Bool) : Election :=
  if isactive then
    editProducer e producer fun p =>
      some { p with isActive := isactive, producerKey := producerKey }
  else delproducer e producer

def admin : Name := N "ytaadminuser"

def regproducer (c : Ctx) (e : Election) (producer : Name) (producerKey : PublicKey) (url : Text)
    (location : UInt16) : Checked Election := do
  ensure (url.length < 512) "url too long"
  ensure (producerKey ≠ {}) "public key should not be the default value"
  c.requireAuth admin
  match e.producers.find producer with
  | some info =>
      let info := { info with producerKey := producerKey, isActive := true, location := location }
      pure (changeProducerYtaInfo { e with producers := e.producers.put producer info } producer
        producerKey true)
  | none =>
      let info : ProducerInfo := { producerKey := producerKey, location := location }
      pure { e with producers := e.producers.put producer info }

def seqproducer (c : Ctx) (e : Election) (producer shadow : Name) (seq : UInt16)
    (level : UInt8) : Checked Election := do
  c.requireAuth admin
  ensure ((e.producers.find producer).isSome) "producer not found"
  ensure (1 ≤ seq ∧ seq ≤ 21) "invalidate seq number"
  ensure (1 ≤ level ∧ level ≤ 3) "invalidate level number"
  match e.producersext.find producer with
  | none =>
      let row : ProducerInfoExt := { seqNum := seq, level := level, shadow := shadow }
      addProducerYta { e with producersext := e.producersext.put producer row } producer level
  | some row =>
      let row := { row with seqNum := seq, level := level, shadow := shadow }
      let e := { e with producersext := e.producersext.put producer row }
      addProducerYta (rmProducerYta e producer) producer level

def rmvproducer (c : Ctx) (e : Election) (producer : Name) : Checked Election := do
  c.requireAuth admin
  let prod ← e.producers.get producer "producer not found"
  let prod := { prod with producerKey := {}, isActive := false }
  pure (changeProducerYtaInfo { e with producers := e.producers.put producer prod } producer {}
    false)

def setautosche (c : Ctx) (e : Election) (autoSche : Bool) (minL1 maxL2 : UInt8) :
    Checked Election := do
  c.requireAuth admin
  pure { e with globalext3 := some ⟨autoSche, minL1, maxL2⟩ }

/-! ## 3. Promotion and demotion -/

def usecondsPerDayV : UInt64 := 86400000000

def levelOneVotes : ℤ := 50000000000

def levelTwoVotes : ℤ := 20000000000

def keepActive (p : YtaProdInfo) (changed : Bool) : Option YtaProdInfo × Bool :=
  if p.isActive then (some p, changed) else (none, true)

/-- The body of the two demotion loops: the entry, if it stays, and whether the lists
    have changed. -/
def review (required : ℤ) (now : UInt64) (p : YtaProdInfo) : Option YtaProdInfo × Bool :=
  if p.totalVotes < required then
    if p.isInGrace then
      if usecondsPerDayV < now - p.graceStartTime then (none, true) else keepActive p false
    else keepActive { p with isInGrace := true, graceStartTime := now } true
  else if p.isInGrace then keepActive { p with isInGrace := false } true
  else keepActive p false

def reviewAll (required : ℤ) (now : UInt64) : List YtaProdInfo → List YtaProdInfo × Bool
  | [] => ([], false)
  | p :: rest =>
      let (kept, changed) := review required now p
      let (kept', changed') := reviewAll required now rest
      (kept.toList ++ kept', changed || changed')

/-- The promotion loop: the new first list, what is left of the second, and whether
    anyone was promoted. -/
def promote : List YtaProdInfo → List YtaProdInfo → List YtaProdInfo × List YtaProdInfo × Bool
  | l1, [] => (l1, [], false)
  | l1, p :: rest =>
      if levelOneVotes ≤ p.totalVotes then
        if l1.length < levelOneMax then
          let (l1, l2, _) := promote (l1 ++ [p]) rest
          (l1, l2, true)
        else (l1, p :: rest, false)
      else
        let (l1, l2, changed) := promote l1 rest
        (l1, p :: l2, changed)

def moreVotes (p q : YtaProdInfo) : Bool := decide (q.totalVotes ≤ p.totalVotes)

def relevel (sorter : Sorter) (now : UInt64) (s : AllProdsLevel) : AllProdsLevel × Bool :=
  let (l1, changed1) := reviewAll levelOneVotes now s.prodsL1
  let (l2, changed2) := reviewAll levelTwoVotes now s.prodsL2
  if l1.length < levelOneMax then
    let (l1, l2, changed3) := promote l1 (sorter.sort moreVotes l2)
    (⟨l1, l2⟩, changed1 || changed2 || changed3)
  else (⟨l1, l2⟩, changed1 || changed2)

def updateProducerLevel (sorter : Sorter) (now : UInt64) (e : Election) : Election :=
  match e.prodslevel with
  | none => e
  | some s =>
      let (s', changed) := relevel sorter now s
      if changed then { e with prodslevel := some s' } else e

def reprodlevel (c : Ctx) (sorter : Sorter) (pay : Pay) (e : Election) : Checked Election := do
  c.requireAuth (N "ytarewardusr")
  if pay.lastPervoteBucketFill = 0 then pure e
  else pure (updateProducerLevel sorter c.currentTime e)

/-! ## 4. The schedule -/

def YtaProdInfo.entry (p : YtaProdInfo) : ProducerKey × UInt16 :=
  (⟨p.owner, p.producerKey⟩, p.location)

def entryLe (a b : ProducerKey × UInt16) : Bool :=
  decide (a.1.producerName < b.1.producerName) ||
    (decide (a.1.producerName = b.1.producerName) && decide (a.2 ≤ b.2))

def topProducers (sorter : Sorter) (s : AllProdsLevel) (maxL2 : UInt8) : List YtaProdInfo :=
  if 0 < maxL2 ∧ s.prodsL1.length < 21 then
    let left := min (21 - s.prodsL1.length) maxL2.toNat
    s.prodsL1 ++ (sorter.sort moreVotes s.prodsL2).take left
  else s.prodsL1

/-- The schedule that `update_elected_producers_yta` proposes, if it does. -/
def proposedSchedule (sorter : Sorter) (e : Election) : Option (List ProducerKey) :=
  let g := e.globalext3.getD {}
  if g.isSchedule then
    match e.prodslevel with
    | none => none
    | some s =>
        if s.prodsL1.length < g.minL1.toNat then none
        else
          let top := (topProducers sorter s g.maxL2).map YtaProdInfo.entry
          some ((sorter.sort entryLe top).map Prod.fst)
  else none

def updateElectedProducersYta (sorter : Sorter) (e : Election) (slot : UInt32) : Election :=
  { e with
    lastProducerScheduleUpdate := slot
    proposedProducers := (proposedSchedule sorter e).or e.proposedProducers }

/-! ## 5. Votes -/

/-- `producer_deltas`: for each producer, in the order of names, the change of its
    votes and whether the new vote is for it. -/
abbrev Deltas : Type := List (Name × ℤ × Bool)

def bump (p : Name) (delta : ℤ) (isNew : Bool) : Deltas → Deltas
  | [] => [(p, delta, isNew)]
  | (q, d, old) :: rest =>
      if p < q then (p, delta, isNew) :: (q, d, old) :: rest
      else if p = q then (q, d + delta, isNew) :: rest
      else (q, d, old) :: bump p delta isNew rest

/-- The changes when a voter votes for `producers` with the given weight. -/
def voteDeltas (voter : VoterInfo) (proxy : Name) (producers : List Name) (weight : ℤ) : Deltas :=
  let deltas : Deltas :=
    if 0 < voter.lastVoteWeight ∧ voter.proxy = 0 then
      voter.producers.foldl (fun d p => bump p (-voter.lastVoteWeight) false d) []
    else []
  if proxy = 0 ∧ 0 ≤ weight then producers.foldl (fun d p => bump p weight true d) deltas
  else deltas

def addVotes (row : ProducerInfo) (delta : ℤ) : ProducerInfo :=
  { row with totalVotes := if row.totalVotes + delta < 0 then 0 else row.totalVotes + delta }

/-- The body of the loop over the changes.  The second component is the last producer
    that is not registered, 0 if there is none. -/
def applyDelta (voting : Bool) (state : Election × Name) (pd : Name × ℤ × Bool) :
    Checked (Election × Name) := do
  let (e, missing) := state
  let (p, delta, isNew) := pd
  let (e, missing, totalVotes) ←
    (match e.producers.find p with
    | some row => do
        ensure (!voting || row.isActive || !isNew) "producer is not currently registered"
        let row := addVotes row delta
        let e := { e with
          producers := e.producers.put p row
          totalProducerVoteWeight := e.totalProducerVoteWeight + delta }
        pure (e, missing, row.totalVotes)
    | none => do
        ensure (!voting || !isNew) "producer is not registered"
        pure (e, p, 0) : Checked (Election × Name × ℤ))
  match e.producersext.find p with
  | some _ => pure (updateProducersYtaTotalvotes e p totalVotes, missing)
  | none => do
      ensure (!voting || !isNew) "producer is not registered"
      pure (e, missing)

/-- The loop of `propagate_weight_change` over the producers of a voter. -/
def spreadDelta (delta : ℤ) (e : Election) (acnt : Name) : Checked Election := do
  let row ← e.producers.get acnt "producer not found"
  pure { e with
    producers := e.producers.put acnt { row with totalVotes := row.totalVotes + delta }
    totalProducerVoteWeight := e.totalProducerVoteWeight + delta }

def propagateWeightChange : ℕ → Election → Name → Checked Election
  | 0, _, _ => .error "call depth exceeded"
  | depth + 1, e, owner => do
      let voter ← e.voters.get owner "voter not found"
      ensure (voter.proxy = 0 ∨ voter.isProxy = false)
        "account registered as a proxy is not allowed to use a proxy"
      let newWeight := voter.staked.toInt + if voter.isProxy then voter.proxiedVoteWeight else 0
      let delta := newWeight - voter.lastVoteWeight
      let e ←
        (if 1 < |delta| then
          if voter.proxy ≠ 0 then do
            let proxy ← e.voters.get voter.proxy "proxy not found"
            let proxy := { proxy with proxiedVoteWeight := proxy.proxiedVoteWeight + delta }
            propagateWeightChange depth { e with voters := e.voters.put voter.proxy proxy }
              voter.proxy
          else voter.producers.foldlM (spreadDelta delta) e
        else pure e)
      pure { e with voters := e.voters.adjust owner ({ · with lastVoteWeight := newWeight }) }

def callDepth : ℕ := 250

def shiftProxy (e : Election) (proxy : Name) (row : VoterInfo) (delta : ℤ) : Checked Election :=
  let row := { row with proxiedVoteWeight := row.proxiedVoteWeight + delta }
  propagateWeightChange callDepth { e with voters := e.voters.put proxy row } proxy

def leaveProxy (e : Election) (voter : VoterInfo) : Checked Election :=
  if 0 < voter.lastVoteWeight ∧ voter.proxy ≠ 0 then do
    let row ← e.voters.get voter.proxy "old proxy not found"
    shiftProxy e voter.proxy row (-voter.lastVoteWeight)
  else pure e

def joinProxy (e : Election) (proxy : Name) (voting : Bool) (weight : ℤ) : Checked Election :=
  if proxy ≠ 0 then do
    let row ← e.voters.get proxy "invalid proxy specified"
    ensure (!voting || row.isProxy) "proxy not found"
    if 0 ≤ weight then shiftProxy e proxy row weight else pure e
  else pure e

/-- The sorting check of `update_votes`. -/
def strictlySorted : List Name → Bool
  | a :: b :: rest => decide (a < b) && strictlySorted (b :: rest)
  | _ => true

def checkBallot (voterName proxy : Name) (producers : List Name) : Checked Unit :=
  if proxy ≠ 0 then do
    ensure producers.isEmpty "cannot vote for producers and proxy at same time"
    ensure (voterName ≠ proxy) "cannot proxy to self"
  else do
    ensure (producers.length ≤ 1) "attempt to vote for too many producers"
    ensure (strictlySorted producers) "producer votes must be unique and sorted"

def minActivatedStake : Int64 := 0

def activate (now : UInt64) (e : Election) (voter : VoterInfo) : Election :=
  if voter.lastVoteWeight ≤ 0 then
    let total := e.totalActivatedStake + voter.staked
    { e with
      totalActivatedStake := total
      threshActivatedStakeTime :=
        if minActivatedStake ≤ total ∧ e.threshActivatedStakeTime = 0 then now
        else e.threshActivatedStakeTime }
  else e

def voteWeight (deposit : HddDeposit.Tables) (voterName : Name) (voter : VoterInfo) : Checked ℤ := do
  let free ← HddDeposit.getDepositfree deposit voterName
  pure (voter.staked.toInt + free.amount.toInt +
    if voter.isProxy then voter.proxiedVoteWeight else 0)

/-- What is written into the row of a voter; a producer that is not registered is
    struck off. -/
def recordVote (proxy : Name) (producers : List Name) (weight : ℤ) (missing : Name)
    (voter : VoterInfo) : VoterInfo :=
  { voter with
    lastVoteWeight := weight
    producers := if missing ≠ 0 then producers.erase missing else producers
    proxy := proxy }

def updateVotes (c : Ctx) (deposit : HddDeposit.Tables) (e : Election) (voterName proxy : Name)
    (producers : List Name) (voting : Bool) : Checked Election := do
  checkBallot voterName proxy producers
  let voter ← e.voters.get voterName "user must stake before they can vote"
  ensure (proxy = 0 ∨ voter.isProxy = false)
    "account registered as a proxy is not allowed to use a proxy"
  let e := activate c.currentTime e voter
  let weight ← voteWeight deposit voterName voter
  let e ← leaveProxy e voter
  let e ← joinProxy e proxy voting weight
  let (e, missing) ← (voteDeltas voter proxy producers weight).foldlM (applyDelta voting) (e, 0)
  pure { e with voters := e.voters.adjust voterName (recordVote proxy producers weight missing) }

def voteproducer (c : Ctx) (deposit : HddDeposit.Tables) (e : Election) (voterName proxy : Name)
    (producers : List Name) : Checked Election := do
  c.requireAuth voterName
  updateVotes c deposit e voterName proxy producers true

def renewVotes (c : Ctx) (deposit : HddDeposit.Tables) (e : Election) (voterName : Name)
    (voter : VoterInfo) : Checked Election :=
  if !voter.producers.isEmpty ∨ voter.proxy ≠ 0 then
    updateVotes c deposit e voterName voter.proxy voter.producers false
  else pure e

def changevotes (c : Ctx) (deposit : HddDeposit.Tables) (e : Election) (voterName : Name) :
    Checked Election := do
  c.requireAuth voterName
  match e.voters.find voterName with
  | none => pure e
  | some voter => renewVotes c deposit e voterName voter

end YottaChain.System
