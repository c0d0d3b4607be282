/-
  **The producer pay hands out what was issued, and no more.**

  A payroll is the state of the three buckets with the time of the last call and
  what has been issued and paid so far.  What is paid out of a bucket is at most a
  number of equal shares, or shares by votes, each cut to a whole amount; such
  shares never exceed the bucket (`sum_floor_le`), so no bucket is overdrawn and no
  rest is lifted to zero.

  The rates are an array of twelve years.  From the thirteenth year on the array
  is read past its end.
-/
import Mathlib.Tactic.Linarith
import Mathlib.Tactic.Ring
import YottaChain.SystemPay

namespace YottaChain.System

open Checked FixedWidth List

/-! ## 1. Shares -/

theorem mul_sum_floor_le (amount total : ℤ) (htotal : 0 < total) (weights : List ℤ) :
    total * (weights.map fun w => amount * w / total).sum ≤ amount * weights.sum := by
  induction weights with
  | nil => simp
  | cons w _ ih =>
    have hw := Int.mul_ediv_self_le (x := amount * w) (k := total) htotal.ne'
    simp only [map_cons, sum_cons, mul_add]
    exact add_le_add hw ih

/-- Shares in proportion to weights, each rounded down, do not exceed what is shared. -/
theorem sum_floor_le (amount : ℤ) {weights : List ℤ} (htotal : 0 < weights.sum) :
    (weights.map fun w => amount * w / weights.sum).sum ≤ amount := by
  have hmul := mul_sum_floor_le amount weights.sum htotal weights
  rw [mul_comm amount] at hmul
  exact le_of_mul_le_mul_left hmul htotal

theorem le_sum_of_mem {weights : List ℤ} (hnonneg : ∀ w ∈ weights, 0 ≤ w) {w : ℤ}
    (hw : w ∈ weights) : w ≤ weights.sum :=
  single_le_sum hnonneg w hw

/-! ## 2. Payments -/

def paidBy : Sent → ℤ
  | ⟨_, .transfer sender _ quantity _⟩ => if sender = N "hddbasefound" then quantity.value else 0
  | _ => 0

def issuedBy : Sent → ℤ
  | ⟨_, .issue _ quantity _⟩ => quantity.value
  | _ => 0

def paidIn (sent : List Sent) : ℤ := (sent.map paidBy).sum

def issuedIn (sent : List Sent) : ℤ := (sent.map issuedBy).sum

@[simp] theorem paidIn_append (a b : List Sent) : paidIn (a ++ b) = paidIn a + paidIn b := by
  simp [paidIn]

@[simp] theorem issuedIn_append (a b : List Sent) : issuedIn (a ++ b) = issuedIn a + issuedIn b := by
  simp [issuedIn]

/-- The payments made so far are within the given limits, and the transfers are their
    sum. -/
structure Within (base block vote : ℤ) (paid : Payout) : Prop where
  base : 0 ≤ paid.base.toInt ∧ paid.base.toInt ≤ base
  block : 0 ≤ paid.block.toInt ∧ paid.block.toInt ≤ block
  vote : 0 ≤ paid.vote.toInt ∧ paid.vote.toInt ≤ vote
  total : paid.total.toInt = paid.base.toInt + paid.block.toInt + paid.vote.toInt
  transfers : paidIn paid.sent = paid.total.toInt
  nothingIssued : issuedIn paid.sent = 0

theorem within_start : Within 0 0 0 {} :=
  ⟨⟨le_refl 0, le_refl 0⟩, ⟨le_refl 0, le_refl 0⟩, ⟨le_refl 0, le_refl 0⟩, rfl, rfl, rfl⟩

section Loop

variable {base block : Int64} {vote : YtaProdInfo → Int64} {x y z : ℤ} {paid : Payout}

/-- One producer, paid or passed over: the three sums grow by at most the three shares. -/
theorem payProducer_within (available : Int64) (memo : Text) (prod : YtaProdInfo)
    (h : Within x y z paid) (hbase : 0 ≤ base.toInt)
    (hblock : 0 ≤ block.toInt) (hvote : 0 ≤ (vote prod).toInt)
    (hroom : x + y + z + base.toInt + block.toInt + (vote prod).toInt < 2 ^ 62) :
    ∃ paid', payProducer available base block vote memo paid prod = .ok paid' ∧
      Within (x + base.toInt) (y + block.toInt) (z + (vote prod).toInt) paid' := by
  have hb := h.base
  have hk := h.block
  have hv := h.vote
  have ht := h.total
  have hsum1 : (base + block).toInt = base.toInt + block.toInt :=
    toInt_add_of_bounds (by omega) (by omega)
  have hsum : (base + block + vote prod).toInt = base.toInt + block.toInt + (vote prod).toInt := by
    rw [toInt_add_of_bounds (by omega) (by omega), hsum1]
  unfold payProducer
  dsimp only
  split
  · have hwindow : InWindow (base + block + vote prod) := by
      unfold InWindow
      omega
    rw [Asset.make_core hwindow]
    have hbase' : (paid.base + base).toInt = paid.base.toInt + base.toInt :=
      toInt_add_of_bounds (by omega) (by omega)
    have hblock' : (paid.block + block).toInt = paid.block.toInt + block.toInt :=
      toInt_add_of_bounds (by omega) (by omega)
    have hvote' : (paid.vote + vote prod).toInt = paid.vote.toInt + (vote prod).toInt :=
      toInt_add_of_bounds (by omega) (by omega)
    have htotal' : (paid.total + (base + block + vote prod)).toInt =
        paid.total.toInt + (base.toInt + block.toInt + (vote prod).toInt) := by
      rw [toInt_add_of_bounds (by omega) (by omega), hsum]
    refine ⟨_, rfl, ?_, ?_, ?_, ?_, ?_, ?_⟩
    · dsimp only
      omega
    · dsimp only
      omega
    · dsimp only
      omega
    · dsimp only
      omega
    · have hsent : paidIn [⟨N "hddbasefound", .transfer (N "hddbasefound") prod.owner
          (.core (base + block + vote prod)) memo⟩] = (base + block + vote prod).toInt := by
        simp [paidIn, paidBy, Asset.value, Asset.core]
      dsimp only
      rw [paidIn_append, h.transfers, hsent, htotal', hsum]
    · dsimp only
      rw [issuedIn_append, h.nothingIssued]
      rfl
  · refine ⟨paid, rfl, ?_, ?_, ?_, ht, h.transfers, h.nothingIssued⟩
    · omega
    · omega
    · omega

/-- A loop over producers pays at most the shares of all of them. -/
theorem payLoop_within (available : Int64) (memo : Text) (hbase : 0 ≤ base.toInt)
    (hblock : 0 ≤ block.toInt) {l : List YtaProdInfo} (hvote : ∀ q ∈ l, 0 ≤ (vote q).toInt)
    (h : Within x y z paid) (hroom : x + y + z + l.length * base.toInt + l.length * block.toInt +
      (l.map fun q => (vote q).toInt).sum < 2 ^ 62) :
    ∃ paid', l.foldlM (payProducer available base block vote memo) paid = .ok paid' ∧
      Within (x + l.length * base.toInt) (y + l.length * block.toInt)
        (z + (l.map fun q => (vote q).toInt).sum) paid' := by
  induction l generalizing x y z paid with
  | nil => exact ⟨paid, rfl, by simpa using h⟩
  | cons prod l ih =>
    have hrest : 0 ≤ (l.map fun q => (vote q).toInt).sum := by
      apply sum_nonneg
      intro v hv
      obtain ⟨q, hq, rfl⟩ := mem_map.mp hv
      exact hvote q (mem_cons_of_mem _ hq)
    have hbases : 0 ≤ (l.length : ℤ) * base.toInt := mul_nonneg (Int.natCast_nonneg _) hbase
    have hblocks : 0 ≤ (l.length : ℤ) * block.toInt := mul_nonneg (Int.natCast_nonneg _) hblock
    simp only [length_cons, Nat.cast_add, Nat.cast_one, add_mul, one_mul, map_cons,
      sum_cons] at hroom ⊢
    obtain ⟨paid1, hpay, hwithin⟩ := payProducer_within available memo prod h hbase hblock
      (hvote prod mem_cons_self) (by omega)
    obtain ⟨paid', hloop, hwithin'⟩ := ih (fun q hq => hvote q (mem_cons_of_mem _ hq)) hwithin
      (by omega)
    refine ⟨paid', ?_, ?_⟩
    · rw [foldlM_cons, hpay]
      exact hloop
    · convert hwithin' using 1
      · ring
      · ring
      · ring

end Loop

/-! ## 3. The buckets -/

def Pay.sum (p : Pay) : ℤ := p.perbaseBucket.toInt + p.pervoteBucket.toInt + p.perblockBucket.toInt

structure Pay.Nonneg (p : Pay) : Prop where
  base : 0 ≤ p.perbaseBucket.toInt
  vote : 0 ≤ p.pervoteBucket.toInt
  block : 0 ≤ p.perblockBucket.toInt

theorem toInt_ofInt_of_bounds {x : ℤ} (hlo : 0 ≤ x) (hhi : x < 2 ^ 62) :
    (Int64.ofInt x).toInt = x := by
  rw [Int64.toInt_ofInt]
  exact bmod_eq_of_bounds (by omega) (by omega)

variable {bucket : Int64}

theorem equalShare (hlo : 0 ≤ bucket.toInt) (hhi : bucket.toInt < 2 ^ 62) (n : ℕ) :
    0 ≤ (Int64.ofInt (bucket.toInt.tdiv n)).toInt ∧
      n * (Int64.ofInt (bucket.toInt.tdiv n)).toInt ≤ bucket.toInt := by
  have hnonneg : 0 ≤ bucket.toInt / (n : ℤ) := Int.ediv_nonneg hlo (Int.natCast_nonneg n)
  have hle : bucket.toInt / (n : ℤ) ≤ bucket.toInt := Int.ediv_le_self _ hlo
  have hshare : (Int64.ofInt (bucket.toInt.tdiv n)).toInt = bucket.toInt / n := by
    rw [Int.tdiv_eq_ediv_of_nonneg hlo]
    exact toInt_ofInt_of_bounds hnonneg (by omega)
  rw [hshare]
  refine ⟨hnonneg, ?_⟩
  rcases Nat.eq_zero_or_pos n with rfl | hn
  · simpa using hlo
  · exact Int.mul_ediv_self_le (by omega)

section Shares

variable {p : Pay} {s : AllProdsLevel} {q : YtaProdInfo}

theorem votes_le_total (hvotes : ∀ q ∈ s.listed, 0 ≤ q.totalVotes) (hq : q ∈ s.listed) :
    q.totalVotes ≤ totalVoteWeight s := by
  apply le_sum_of_mem
  · intro v hv
    obtain ⟨r, hr, rfl⟩ := mem_map.mp hv
    exact hvotes r hr
  · exact mem_map_of_mem hq

theorem toInt_perVotePay (hlo : 0 ≤ p.pervoteBucket.toInt) (hhi : p.pervoteBucket.toInt < 2 ^ 62)
    (hvotes : ∀ q ∈ s.listed, 0 ≤ q.totalVotes) (hq : q ∈ s.listed) :
    (perVotePay p s q).toInt =
      if 0 < totalVoteWeight s then p.pervoteBucket.toInt * q.totalVotes / totalVoteWeight s
      else 0 := by
  unfold perVotePay
  split_ifs with htotal
  · have hprod : 0 ≤ p.pervoteBucket.toInt * q.totalVotes := mul_nonneg hlo (hvotes q hq)
    have hshare : p.pervoteBucket.toInt * q.totalVotes / totalVoteWeight s ≤
        p.pervoteBucket.toInt := by
      apply Int.ediv_le_of_le_mul htotal
      exact mul_le_mul_of_nonneg_left (votes_le_total hvotes hq) hlo
    rw [Int.tdiv_eq_ediv_of_nonneg hprod]
    exact toInt_ofInt_of_bounds (Int.ediv_nonneg hprod htotal.le) (by omega)
  · rfl

/-- What all producers are paid by votes is within the bucket. -/
theorem sum_perVotePay_le (hlo : 0 ≤ p.pervoteBucket.toInt) (hhi : p.pervoteBucket.toInt < 2 ^ 62)
    (hvotes : ∀ q ∈ s.listed, 0 ≤ q.totalVotes) :
    (∀ q ∈ s.listed, 0 ≤ (perVotePay p s q).toInt) ∧
      (s.listed.map fun q => (perVotePay p s q).toInt).sum ≤ p.pervoteBucket.toInt := by
  have hshare := fun q hq => toInt_perVotePay (q := q) hlo hhi hvotes hq
  by_cases htotal : 0 < totalVoteWeight s
  · simp only [htotal, if_true] at hshare
    constructor
    · intro q hq
      rw [hshare q hq]
      exact Int.ediv_nonneg (mul_nonneg hlo (hvotes q hq)) htotal.le
    · rw [map_congr_left hshare]
      have hfloor := sum_floor_le p.pervoteBucket.toInt htotal
      rw [map_map] at hfloor
      exact hfloor
  · simp only [htotal, if_false] at hshare
    constructor
    · intro q hq
      rw [hshare q hq]
    · rw [map_congr_left hshare]
      simpa using hlo

theorem Within.mono {x y z x' y' z' : ℤ} {paid : Payout} (h : Within x y z paid) (hx : x ≤ x')
    (hy : y ≤ y') (hz : z ≤ z') : Within x' y' z' paid :=
  ⟨⟨h.base.1, h.base.2.trans hx⟩, ⟨h.block.1, h.block.2.trans hy⟩, ⟨h.vote.1, h.vote.2.trans hz⟩,
    h.total, h.transfers, h.nothingIssued⟩

/-- The two loops complete, and what they pay is within the buckets. -/
theorem payProducers_within (hp : p.Nonneg) (hsum : p.sum < 2 ^ 62)
    (hvotes : ∀ q ∈ s.listed, 0 ≤ q.totalVotes) :
    ∃ paid, payProducers p s = .ok paid ∧
      Within p.perbaseBucket.toInt p.perblockBucket.toInt p.pervoteBucket.toInt paid := by
  have hbase := hp.base
  have hblock := hp.block
  have hvote := hp.vote
  unfold Pay.sum at hsum
  obtain ⟨hb0, hbn⟩ := equalShare hbase (by omega) s.listed.length
  obtain ⟨hk0, hkn⟩ := equalShare hblock (by omega) s.prodsL1.length
  obtain ⟨hv0, hvn⟩ := sum_perVotePay_le hvote (by omega) hvotes
  rw [← perBasePay] at hb0 hbn
  rw [← perBlockPay] at hk0 hkn
  simp only [AllProdsLevel.listed, length_append, Nat.cast_add, add_mul, map_append,
    sum_append] at hbn hvn
  -- Every limit of a loop is a part of what the buckets hold.
  have hb1 : 0 ≤ (s.prodsL1.length : ℤ) * (perBasePay p s).toInt :=
    mul_nonneg (Int.natCast_nonneg _) hb0
  have hb2 : 0 ≤ (s.prodsL2.length : ℤ) * (perBasePay p s).toInt :=
    mul_nonneg (Int.natCast_nonneg _) hb0
  have hv2 : 0 ≤ (s.prodsL2.map fun q => (perVotePay p s q).toInt).sum := by
    apply sum_nonneg
    intro v hv
    obtain ⟨q, hq, rfl⟩ := mem_map.mp hv
    exact hv0 q (mem_append_right _ hq)
  have hzero : (0 : Int64).toInt = 0 := rfl
  obtain ⟨paid1, hloop1, hwithin1⟩ := payLoop_within
    (p.perbaseBucket + p.perblockBucket + p.pervoteBucket) "main producer daily pay".toList hb0 hk0
    (fun q hq => hv0 q (mem_append_left _ hq)) within_start (by omega)
  obtain ⟨paid2, hloop2, hwithin2⟩ := payLoop_within
    (p.perbaseBucket + p.perblockBucket + p.pervoteBucket) "producer daily pay".toList
    hb0 (le_of_eq hzero.symm : 0 ≤ (0 : Int64).toInt)
    (fun q hq => hv0 q (mem_append_right _ hq)) hwithin1
    (by rw [hzero, mul_zero]; omega)
  refine ⟨paid2, ?_, hwithin2.mono (by omega) ?_ (by omega)⟩
  · unfold payProducers
    dsimp only
    rw [hloop1]
    exact hloop2
  · rw [hzero, mul_zero]
    omega

end Shares

theorem rest_exact {paid : Int64} (hlo : 0 ≤ paid.toInt) (hle : paid.toInt ≤ bucket.toInt) :
    (bucket - paid).toInt = bucket.toInt - paid.toInt ∧ ¬ bucket - paid < 0 ∧
      rest bucket paid = bucket - paid := by
  have hbounds := toInt_bounds bucket
  have hsub : (bucket - paid).toInt = bucket.toInt - paid.toInt :=
    toInt_sub_of_bounds (by omega) (by omega)
  have hnot : ¬ bucket - paid < 0 := by
    rw [Int64.lt_iff_toInt_lt, hsub, Int64.toInt_zero]
    omega
  exact ⟨hsub, hnot, if_neg hnot⟩

variable {p : Pay}

theorem drainBuckets_exact {paid : Payout}
    (h : Within p.perbaseBucket.toInt p.perblockBucket.toInt p.pervoteBucket.toInt paid) :
    (drainBuckets p paid).Nonneg ∧ (drainBuckets p paid).sum = p.sum - paidIn paid.sent := by
  obtain ⟨hb, _, hbrest⟩ := rest_exact h.base.1 h.base.2
  obtain ⟨hk, _, hkrest⟩ := rest_exact h.block.1 h.block.2
  obtain ⟨hv, _, hvrest⟩ := rest_exact h.vote.1 h.vote.2
  have hbase := h.base
  have hblock := h.block
  have hvote := h.vote
  have htotal := h.total
  unfold drainBuckets
  rw [hbrest, hkrest, hvrest, h.transfers]
  refine ⟨⟨?_, ?_, ?_⟩, ?_⟩
  · dsimp only
    omega
  · dsimp only
    omega
  · dsimp only
    omega
  · unfold Pay.sum
    dsimp only
    omega

/-! ## 4. New tokens -/

def ratesEnd : ℕ := 1956016800000000

variable {c : Ctx}

theorem toNat_now (h : c.currentTime.toNat < ratesEnd) :
    c.now.toNat = c.currentTime.toNat / 1000000 := by
  unfold ratesEnd at h
  simp only [Ctx.now, UInt64.toNat_toUInt32, UInt64.toNat_div, UInt64.reduceToNat]
  omega

theorem seoToken_ok (hepoch : 1578621600000000 ≤ c.currentTime.toNat)
    (hend : c.currentTime.toNat < ratesEnd) :
    ∃ seo, seoToken c.now = .ok seo ∧ 0 ≤ seo ∧ seo ≤ 100000000 := by
  have hnow := toNat_now hend
  have hidx : idxYear c.now = (c.currentTime.toNat / 1000000 - 1578621600 : ℤ) / 31449600 := by
    unfold idxYear blockInitialTimestamp
    have hnonneg : (0 : ℤ) ≤ c.now.toNat - 1578621600 := by omega
    rw [Int.tdiv_eq_ediv_of_nonneg hnonneg, hnow]
    rfl
  unfold ratesEnd at hend
  have hlo : 0 ≤ idxYear c.now := by omega
  have hhi : (idxYear c.now).toNat < ytaSeoYear.length := by
    have hlen : ytaSeoYear.length = 12 := rfl
    omega
  have hall : ∀ rate ∈ ytaSeoYear, 0 ≤ rate * ytaSeoBase ∧ rate * ytaSeoBase ≤ 100000000 := by
    decide
  unfold seoToken
  rw [if_neg (by omega), getElem?_eq_getElem hhi]
  exact ⟨_, rfl, hall _ (getElem_mem hhi)⟩

theorem newTokens_bounds {seo : ℤ} (usecs : UInt64) (hseo : 0 ≤ seo ∧ seo ≤ 100000000)
    (husecs : usecs.toNat < ratesEnd) :
    0 ≤ (newTokens seo usecs).toInt ∧
      (newTokens seo usecs).toInt * usecondsPerYear ≤ 1000000000000 * usecs.toNat := by
  have hyear : usecondsPerYear = 31449600000000 := rfl
  have hprod : seo * ytaPrecision * usecs.toNat ≤ 1000000000000 * usecs.toNat := by
    apply mul_le_mul_of_nonneg_right _ (Int.natCast_nonneg _)
    unfold ytaPrecision
    omega
  have hnonneg : 0 ≤ seo * ytaPrecision * usecs.toNat := by
    apply mul_nonneg _ (Int.natCast_nonneg _)
    unfold ytaPrecision
    omega
  unfold newTokens
  rw [hyear]
  generalize seo * ytaPrecision * usecs.toNat = product at hprod hnonneg
  unfold ratesEnd at husecs
  have hexact : (Int64.ofInt (product / 31449600000000)).toInt = product / 31449600000000 :=
    toInt_ofInt_of_bounds (by omega) (by omega)
  rw [hexact]
  omega

/-- The division of new tokens among the buckets loses nothing. -/
theorem divide_exact {tokens : Int64} (hlo : 0 ≤ tokens.toInt) (hhi : tokens.toInt < 2 ^ 60) :
    0 ≤ (tokens * 3 / 5).toInt ∧ 0 ≤ ((tokens - tokens * 3 / 5) / 2).toInt ∧
    0 ≤ (tokens - tokens * 3 / 5 - (tokens - tokens * 3 / 5) / 2).toInt ∧
    (tokens * 3 / 5).toInt + ((tokens - tokens * 3 / 5) / 2).toInt +
      (tokens - tokens * 3 / 5 - (tokens - tokens * 3 / 5) / 2).toInt = tokens.toInt := by
  have h3 : (3 : Int64).toInt = 3 := rfl
  have h5 : (5 : Int64).toInt = 5 := rfl
  have h2 : (2 : Int64).toInt = 2 := rfl
  have hmul : (tokens * 3).toInt = tokens.toInt * 3 := by
    rw [toInt_mul_of_bounds (by rw [h3]; omega) (by rw [h3]; omega), h3]
  have hbase : (tokens * 3 / 5).toInt = tokens.toInt * 3 / 5 := by
    rw [toInt_div_of_nonneg (by omega) (by omega), hmul, h5]
  have hprod : (tokens - tokens * 3 / 5).toInt = tokens.toInt - tokens.toInt * 3 / 5 := by
    rw [toInt_sub_of_bounds (by omega) (by omega), hbase]
  have hblock : ((tokens - tokens * 3 / 5) / 2).toInt =
      (tokens.toInt - tokens.toInt * 3 / 5) / 2 := by
    rw [toInt_div_of_nonneg (by omega) (by omega), hprod, h2]
  have hvote : (tokens - tokens * 3 / 5 - (tokens - tokens * 3 / 5) / 2).toInt =
      tokens.toInt - tokens.toInt * 3 / 5 - (tokens.toInt - tokens.toInt * 3 / 5) / 2 := by
    rw [toInt_sub_of_bounds (by omega) (by omega), hprod, hblock]
  rw [hbase, hblock, hvote]
  omega

/-- Filling the buckets adds what is issued, which is bounded by the time passed. -/
theorem fillBuckets_exact {now : UInt64} {seo : ℤ} (hp : p.Nonneg)
    (hseo : 0 ≤ seo ∧ seo ≤ 100000000) (hnow : now.toNat < ratesEnd)
    (hfill : p.lastPervoteBucketFill.toNat ≤ now.toNat)
    (hsum : p.sum * usecondsPerYear ≤ 1000000000000 * p.lastPervoteBucketFill.toNat) :
    ∃ filled sent, fillBuckets now seo p = .ok (filled, sent) ∧ filled.Nonneg ∧
      filled.sum = p.sum + issuedIn sent ∧ paidIn sent = 0 ∧
      filled.lastPervoteBucketFill.toNat ≤ now.toNat ∧
      p.lastPervoteBucketFill.toNat ≤ filled.lastPervoteBucketFill.toNat ∧
      issuedIn sent * usecondsPerYear ≤ 1000000000000 *
        (filled.lastPervoteBucketFill.toNat - p.lastPervoteBucketFill.toNat : ℤ) := by
  unfold fillBuckets
  dsimp only
  split
  · have husecs := toNat_sub_of_le hfill
    obtain ⟨hlo, htokens⟩ := newTokens_bounds (now - p.lastPervoteBucketFill) hseo (by omega)
    have hbase := hp.base
    have hblock := hp.block
    have hvote := hp.vote
    have hyear : usecondsPerYear = 31449600000000 := rfl
    unfold ratesEnd at hnow
    unfold Pay.sum at hsum ⊢
    rw [hyear] at hsum htokens ⊢
    generalize newTokens seo (now - p.lastPervoteBucketFill) = tokens at hlo htokens ⊢
    obtain ⟨h1, h2, h3, hdivide⟩ := divide_exact hlo (by omega)
    have hwindow : InWindow tokens := by
      unfold InWindow
      omega
    rw [Asset.make_core hwindow]
    have hbase' : (p.perbaseBucket + tokens * 3 / 5).toInt =
        p.perbaseBucket.toInt + (tokens * 3 / 5).toInt :=
      toInt_add_of_bounds (by omega) (by omega)
    have hvote' : (p.pervoteBucket + (tokens - tokens * 3 / 5 - (tokens - tokens * 3 / 5) / 2)).toInt =
        p.pervoteBucket.toInt + (tokens - tokens * 3 / 5 - (tokens - tokens * 3 / 5) / 2).toInt :=
      toInt_add_of_bounds (by omega) (by omega)
    have hblock' : (p.perblockBucket + (tokens - tokens * 3 / 5) / 2).toInt =
        p.perblockBucket.toInt + ((tokens - tokens * 3 / 5) / 2).toInt :=
      toInt_add_of_bounds (by omega) (by omega)
    have hissued : issuedIn [⟨self, .issue self (.core tokens)
        "issue tokens for producer pay".toList⟩, ⟨self, .transfer self (N "hddbasefound")
        (.core tokens) "fund total bucket".toList⟩] = tokens.toInt := by
      simp [issuedIn, issuedBy, Asset.value, Asset.core]
    refine ⟨_, _, rfl, ⟨?_, ?_, ?_⟩, ?_, ?_, ?_⟩
    · dsimp only
      omega
    · dsimp only
      omega
    · dsimp only
      omega
    · dsimp only
      omega
    · have hself : self ≠ N "hddbasefound" := by decide
      simp [paidIn, paidBy, hself]
    · dsimp only
      omega
  · exact ⟨p, [], rfl, hp, by simp [issuedIn], rfl, hfill, le_refl _, by simp [issuedIn]⟩

/-! ## 5. Runs -/

/-- The buckets, the time of the last call, and what has been issued and paid so far. -/
structure Payroll where
  pay : Pay
  now : UInt64
  issued : ℤ := 0
  paid : ℤ := 0

def Payroll.start (time : UInt64) : Payroll := ⟨{ lastPervoteBucketFill := time }, time, 0, 0⟩

/-- A call that is not earlier than the last one, nor than the epoch, and in a year that
    has a rate, with a producer on the first level and no negative votes. -/
structure Payday (p : Payroll) (c : Ctx) (s : AllProdsLevel) : Prop where
  auth : c.hasAuth rewardUser = true
  ordered : p.now.toNat ≤ c.currentTime.toNat
  epoch : 1578621600000000 ≤ c.currentTime.toNat
  rated : c.currentTime.toNat < ratesEnd
  main : 1 ≤ s.prodsL1.length
  votes : ∀ q ∈ s.prodsL1 ++ s.prodsL2, 0 ≤ q.totalVotes

def PayStep (p p' : Payroll) : Prop :=
  ∃ c s e sent, Payday p c s ∧ e.prodslevel = some s ∧
    rewardprods c e p.pay = .ok (p'.pay, sent) ∧ p'.now = c.currentTime ∧
    p'.issued = p.issued + issuedIn sent ∧ p'.paid = p.paid + paidIn sent

structure PayLaw (p : Payroll) : Prop where
  nonneg : p.pay.Nonneg
  conserved : p.pay.sum + p.paid = p.issued
  paid : 0 ≤ p.paid
  filled : p.pay.lastPervoteBucketFill.toNat ≤ p.now.toNat
  /-- At most a thousand times the base is issued in a year. -/
  bounded : p.issued * usecondsPerYear ≤ 1000000000000 * p.pay.lastPervoteBucketFill.toNat

theorem payLaw_start (time : UInt64) : PayLaw (.start time) := by
  refine ⟨⟨le_refl 0, le_refl 0, le_refl 0⟩, rfl, le_refl 0, le_refl _, ?_⟩
  simp only [Payroll.start, zero_mul]
  exact mul_nonneg (by decide) (Int.natCast_nonneg _)

/-- What a call does when the rewards have been started: fill, pay, and take what was
    paid out of the buckets. -/
structure Paid (c : Ctx) (p : Pay) (s : AllProdsLevel) (p' : Pay) (sent : List Sent) (filled : Pay)
    (issued : List Sent) (paid : Payout) : Prop where
  fill : ∃ seo, seoToken c.now = .ok seo ∧
    fillBuckets c.currentTime seo { p with lastClaimTime := c.currentTime } = .ok (filled, issued)
  pay : payProducers filled s = .ok paid
  result : p' = drainBuckets filled paid
  sends : sent = issued ++ paid.sent

/-- A call completes, and what was issued stays what was paid and what is left in the buckets. -/
theorem rewardprods_law {p : Payroll} {s : AllProdsLevel} {e : Election} (h : PayLaw p)
    (hday : Payday p c s) (hlists : e.prodslevel = some s) :
    ∃ pay sent, rewardprods c e p.pay = .ok (pay, sent) ∧
      PayLaw ⟨pay, c.currentTime, p.issued + issuedIn sent, p.paid + paidIn sent⟩ ∧
      (p.pay.lastPervoteBucketFill ≠ 0 → ∃ filled issued paid,
        Paid c p.pay s pay sent filled issued paid ∧
        Within filled.perbaseBucket.toInt filled.perblockBucket.toInt filled.pervoteBucket.toInt
          paid) := by
  have hauth : c.requireAuth rewardUser = .ok () := by
    simp [Ctx.requireAuth, ensure, hday.auth]
  have hmain : ¬ s.prodsL1.length < 1 := Nat.not_lt.mpr hday.main
  have hordered := hday.ordered
  have hfilled := h.filled
  have hconserved := h.conserved
  have hpaid := h.paid
  have hbounded := h.bounded
  unfold rewardprods
  rw [hauth]
  by_cases hstarted : p.pay.lastPervoteBucketFill = 0
  · refine ⟨p.pay, [], ?_, ⟨h.nonneg, ?_, ?_, hfilled.trans hordered, ?_⟩,
      fun hne => absurd hstarted hne⟩
    · rw [if_pos hstarted]
      rfl
    · simpa [issuedIn, paidIn] using hconserved
    · simpa [paidIn] using hpaid
    · simpa [issuedIn] using hbounded
  · obtain ⟨seo, hseo, hrate⟩ := seoToken_ok hday.epoch hday.rated
    have hyear : usecondsPerYear = 31449600000000 := rfl
    rw [hyear] at hbounded
    obtain ⟨filled, issued, hfill, hnonneg, hsum, hnopay, hlast, hmono, hissue⟩ :=
      fillBuckets_exact (p := { p.pay with lastClaimTime := c.currentTime })
        ⟨h.nonneg.base, h.nonneg.vote, h.nonneg.block⟩ hrate hday.rated (by dsimp only; omega)
        (by
          have hsame : Pay.sum { p.pay with lastClaimTime := c.currentTime } = p.pay.sum := rfl
          rw [hsame, hyear]
          dsimp only
          omega)
    have hsame : Pay.sum { p.pay with lastClaimTime := c.currentTime } = p.pay.sum := rfl
    rw [hsame] at hsum
    rw [hyear] at hissue
    dsimp only at hmono hissue
    have hrated := hday.rated
    unfold ratesEnd at hrated
    obtain ⟨paid, hpay, hwithin⟩ := payProducers_within hnonneg (by omega) hday.votes
    obtain ⟨hdrained, hrest⟩ := drainBuckets_exact hwithin
    have hpaidIn : 0 ≤ paidIn paid.sent := by
      have := hwithin.base.1
      have := hwithin.block.1
      have := hwithin.vote.1
      rw [hwithin.transfers, hwithin.total]
      omega
    refine ⟨drainBuckets filled paid, issued ++ paid.sent, ?_, ⟨hdrained, ?_, ?_, ?_, ?_⟩,
      fun _ => ⟨filled, issued, paid, ⟨⟨seo, hseo, hfill⟩, hpay, rfl, rfl⟩, hwithin⟩⟩
    · simp only [hstarted, if_false, hlists, hmain, hseo]
      change (fillBuckets c.currentTime seo { p.pay with lastClaimTime := c.currentTime } >>=
        fun r => payProducers r.1 s >>= fun paid =>
          pure (drainBuckets r.1 paid, r.2 ++ paid.sent)) = _
      rw [hfill]
      change (payProducers filled s >>= fun paid =>
        pure (drainBuckets filled paid, issued ++ paid.sent)) = _
      rw [hpay]
      rfl
    · dsimp only
      rw [hrest, issuedIn_append, paidIn_append, hwithin.nothingIssued, hnopay]
      omega
    · dsimp only
      rw [paidIn_append, hnopay]
      omega
    · exact hlast
    · dsimp only
      rw [issuedIn_append, hwithin.nothingIssued, hyear]
      have hkept : (drainBuckets filled paid).lastPervoteBucketFill = filled.lastPervoteBucketFill :=
        rfl
      rw [hkept]
      omega

theorem payLaw_run {time : UInt64} {p : Payroll} (hrun : Run.Steps PayStep (.start time) p) :
    PayLaw p := by
  refine Run.invariant (P := PayLaw) ?_ (payLaw_start time) hrun
  rintro p ⟨pay, now, issued, paid⟩ h ⟨c, s, e, sent, hday, hlists, hcall, hnow, hissued, hpaid⟩
  dsimp only at hcall hnow hissued hpaid
  obtain ⟨pay', sent', hcall', hlaw, _⟩ := rewardprods_law h hday hlists
  rw [hcall] at hcall'
  cases hcall'
  subst hnow hissued hpaid
  exact hlaw

/-- **The pay conserves what is issued.**  After any run of calls within the twelve
    years, the next call completes; the buckets change by what it issues less what it
    pays; it pays out of each bucket no more than there is, so that no rest is lifted to
    zero; and no more has been paid than issued. -/
theorem pay_conserved {time : UInt64} {p : Payroll} (hrun : Run.Steps PayStep (.start time) p)
    {c : Ctx} {s : AllProdsLevel} {e : Election} (hday : Payday p c s)
    (hlists : e.prodslevel = some s) :
    ∃ pay sent, rewardprods c e p.pay = .ok (pay, sent) ∧
      pay.sum = p.pay.sum + issuedIn sent - paidIn sent ∧
      (p.pay.lastPervoteBucketFill ≠ 0 → ∃ filled issued paid,
        Paid c p.pay s pay sent filled issued paid ∧
        paid.base.toInt ≤ filled.perbaseBucket.toInt ∧
        paid.vote.toInt ≤ filled.pervoteBucket.toInt ∧
        paid.block.toInt ≤ filled.perblockBucket.toInt ∧
        drainBuckets filled paid = { filled with
          perbaseBucket := filled.perbaseBucket - paid.base
          pervoteBucket := filled.pervoteBucket - paid.vote
          perblockBucket := filled.perblockBucket - paid.block }) ∧
      p.paid + paidIn sent ≤ p.issued + issuedIn sent := by
  have hlaw := payLaw_run hrun
  obtain ⟨pay, sent, hcall, hafter, hpaid⟩ := rewardprods_law hlaw hday hlists
  have hbefore := hlaw.conserved
  have hconserved := hafter.conserved
  have hnonneg := hafter.nonneg
  have hbase := hnonneg.base
  have hvote := hnonneg.vote
  have hblock := hnonneg.block
  dsimp only at hconserved hbase hvote hblock
  refine ⟨pay, sent, hcall, by omega, fun hstarted => ?_, ?_⟩
  · obtain ⟨filled, issued, paid, hdone, hwithin⟩ := hpaid hstarted
    refine ⟨filled, issued, paid, hdone, hwithin.base.2, hwithin.vote.2, hwithin.block.2, ?_⟩
    unfold drainBuckets
    rw [(rest_exact hwithin.base.1 hwithin.base.2).2.2,
      (rest_exact hwithin.vote.1 hwithin.vote.2).2.2,
      (rest_exact hwithin.block.1 hwithin.block.2).2.2]
  · unfold Pay.sum at hconserved
    omega

def paySample : AllProdsLevel :=
  ⟨[⟨N "bpone", 3, { type := 1 }, true, 0, false, 0⟩],
    [⟨N "bptwo", 1, { type := 2 }, true, 0, false, 0⟩]⟩

/-- The pay of the first day. -/
theorem pay_conserved_sample : ∃ pay sent,
    rewardprods (.permissive 1578708000000000) { prodslevel := some paySample }
      (Payroll.start 1578621600000000).pay = .ok (pay, sent) ∧
    issuedIn sent = 2747252747 ∧ pay.sum = 0 + issuedIn sent - paidIn sent := by
  have hday : Payday (.start 1578621600000000) (.permissive 1578708000000000) paySample := by
    refine ⟨rfl, by decide, by decide, by decide, by decide, ?_⟩
    decide
  have hissued : (rewardprods (.permissive 1578708000000000) { prodslevel := some paySample }
      (Payroll.start 1578621600000000).pay).map (fun r => issuedIn r.2) = .ok 2747252747 := by
    decide +kernel
  obtain ⟨pay, sent, hcall, hsum, _⟩ := pay_conserved (e := { prodslevel := some paySample })
    Relation.ReflTransGen.refl hday rfl
  rw [hcall] at hissued
  exact ⟨pay, sent, hcall, Except.ok.inj hissued, hsum⟩

/-- In the thirteenth year the call reads past the array. -/
theorem rates_exhausted :
    rewardprods (.permissive 1956016800000000) { prodslevel := some paySample }
      (Payroll.start 1578621600000000).pay = .error "read past yta_seo_year" := by
  rfl

end YottaChain.System
