/-
  **The pay of the block producers.**

  New tokens are issued for the time since the last call and put into three
  buckets.  Each producer is then paid a share of each: of the base bucket the
  same for all, of the block bucket the same for those of the first level, of the
  vote bucket by votes.  The shares are cut to whole amounts one by one, and a
  producer is passed over when the sum of all buckets does not suffice.

  The expressions with `double` are computed exactly.  Reading the rate of a year
  that is not in the array stops.
-/
import YottaChain.SystemTables

namespace YottaChain.System

open Checked

def rewardUser : Name := N "ytarewardusr"

def startreward (c : Ctx) (e : Election) (p : Pay) : Checked Pay := do
  c.requireAuth rewardUser
  ensure (p.lastPervoteBucketFill = 0) "already start reward"
  match e.prodslevel with
  | none => .error "can not start reward"
  | some s => do
      ensure (21 ≤ s.prodsL1.length) "main susper producers not enough"
      ensure (42 ≤ s.prodsL2.length) "super producers not enouth"
      pure { p with lastPervoteBucketFill := c.currentTime }

/-! ## 1. New tokens -/

def blockInitialTimestamp : ℤ := 1578621600

def secondsPerYear : ℤ := 52 * 7 * 24 * 3600

def usecondsPerYear : ℤ := secondsPerYear * 1000000

def ytaSeoBase : ℤ := 100000

def ytaPrecision : ℤ := 10000

def ytaSeoYear : List ℤ := [1000, 300, 300, 300, 300, 300, 300, 300, 300, 300, 300, 300]

def idxYear (now : UInt32) : ℤ := (now.toNat - blockInitialTimestamp).tdiv secondsPerYear

/-- `yta_seo_year[idx_year] * YTA_SEO_BASE`. -/
def seoToken (now : UInt32) : Checked ℤ :=
  if idxYear now < 0 then .error "read before yta_seo_year"
  else
    match ytaSeoYear[(idxYear now).toNat]? with
    | some rate => .ok (rate * ytaSeoBase)
    | none => .error "read past yta_seo_year"

def newTokens (seo : ℤ) (usecs : UInt64) : Int64 :=
  Int64.ofInt (seo * ytaPrecision * usecs.toNat / usecondsPerYear)

def fillBuckets (now : UInt64) (seo : ℤ) (p : Pay) : Checked (Pay × List Sent) :=
  let usecs := now - p.lastPervoteBucketFill
  if 0 < usecs ∧ 0 < p.lastPervoteBucketFill then do
    let tokens := newTokens seo usecs
    let toPerBasePay := tokens * 3 / 5
    let toProducers := tokens - toPerBasePay
    let toPerBlockPay := toProducers / 2
    let toPerVotePay := toProducers - toPerBlockPay
    let quantity ← Asset.make tokens coreSymbol
    pure ({ p with
        perbaseBucket := p.perbaseBucket + toPerBasePay
        pervoteBucket := p.pervoteBucket + toPerVotePay
        perblockBucket := p.perblockBucket + toPerBlockPay
        lastPervoteBucketFill := now },
      [⟨self, .issue self quantity "issue tokens for producer pay".toList⟩,
       ⟨self, .transfer self (N "hddbasefound") quantity "fund total bucket".toList⟩])
  else pure (p, [])

/-! ## 2. Shares -/

def perBasePay (p : Pay) (s : AllProdsLevel) : Int64 :=
  Int64.ofInt (p.perbaseBucket.toInt.tdiv s.listed.length)

def perBlockPay (p : Pay) (s : AllProdsLevel) : Int64 :=
  Int64.ofInt (p.perblockBucket.toInt.tdiv s.prodsL1.length)

def totalVoteWeight (s : AllProdsLevel) : ℤ := (s.listed.map YtaProdInfo.totalVotes).sum

def perVotePay (p : Pay) (s : AllProdsLevel) (prod : YtaProdInfo) : Int64 :=
  if 0 < totalVoteWeight s then
    Int64.ofInt ((p.pervoteBucket.toInt * prod.totalVotes).tdiv (totalVoteWeight s))
  else 0

structure Payout where
  base : Int64 := 0
  block : Int64 := 0
  vote : Int64 := 0
  total : Int64 := 0
  sent : List Sent := []

/-- The body of the two loops, which differ in the share of the block bucket and the
    memo. -/
def payProducer (available base block : Int64) (vote : YtaProdInfo → Int64) (memo : Text)
    (paid : Payout) (prod : YtaProdInfo) : Checked Payout :=
  let total := base + block + vote prod
  if 0 < total ∧ total + paid.total ≤ available then do
    let quantity ← Asset.make total coreSymbol
    pure {
      base := paid.base + base
      block := paid.block + block
      vote := paid.vote + vote prod
      total := paid.total + total
      sent := paid.sent ++
        [⟨N "hddbasefound", .transfer (N "hddbasefound") prod.owner quantity memo⟩] }
  else pure paid

def payProducers (p : Pay) (s : AllProdsLevel) : Checked Payout := do
  let available := p.perbaseBucket + p.perblockBucket + p.pervoteBucket
  let paid ← s.prodsL1.foldlM (payProducer available (perBasePay p s) (perBlockPay p s)
    (perVotePay p s) "main producer daily pay".toList) {}
  s.prodsL2.foldlM (payProducer available (perBasePay p s) 0 (perVotePay p s)
    "producer daily pay".toList) paid

def rest (bucket paid : Int64) : Int64 := if bucket - paid < 0 then 0 else bucket - paid

def drainBuckets (p : Pay) (paid : Payout) : Pay :=
  { p with
    perbaseBucket := rest p.perbaseBucket paid.base
    pervoteBucket := rest p.pervoteBucket paid.vote
    perblockBucket := rest p.perblockBucket paid.block }

def rewardprods (c : Ctx) (e : Election) (p : Pay) : Checked (Pay × List Sent) := do
  c.requireAuth rewardUser
  if p.lastPervoteBucketFill = 0 then pure (p, [])
  else
    match e.prodslevel with
    | none => pure (p, [])
    | some s =>
        if s.prodsL1.length < 1 then pure (p, [])
        else do
          let seo ← seoToken c.now
          let (p, issued) ← fillBuckets c.currentTime seo { p with lastClaimTime := c.currentTime }
          let paid ← payProducers p s
          pure (drainBuckets p paid, issued ++ paid.sent)

end YottaChain.System
