/-
  **Two thirds plus one of the producers stand behind a proposed irreversible block.**

  A block confirms the range of blocks that its header names, and the count of each of
  them goes down by one.  The counts do not say who confirmed; that no producer is
  counted twice for one block rests on the test against double confirmation.  Its
  subtraction is one of 32 bits: with a range that is longer than the chain it wraps and
  the test passes.  As long as no range is longer than the chain, a count that is down
  by `m` has `m` different producers behind it (`Backed`).
-/
import Mathlib.Data.Finset.Card
import YottaChain.BlockHeaderState

namespace YottaChain.Headers

open Checked HeaderState List

/-! ## 1. Who confirms a block -/

/-- The block confirms the block number `k`. -/
def HeaderState.Covers (b : HeaderState) (k : Nat) : Prop :=
  b.blockNum.toNat ≤ k + b.confirmed.toNat ∧ k ≤ b.blockNum.toNat

instance (b : HeaderState) (k : Nat) : Decidable (b.Covers k) := inferInstanceAs (Decidable (_ ∧ _))

/-- The producers of the blocks that confirm the block number `k`. -/
def confirmers (blocks : List HeaderState) (k : Nat) : Finset Name :=
  ((blocks.filter fun b => b.Covers k).map HeaderState.producer).toFinset

variable {blocks : List HeaderState} {k : Nat}

theorem mem_confirmers {producer : Name} :
    producer ∈ confirmers blocks k ↔ ∃ b ∈ blocks, b.Covers k ∧ b.producer = producer := by
  simp only [confirmers, mem_toFinset, mem_map, mem_filter, decide_eq_true_eq]
  constructor
  · rintro ⟨b, ⟨hb, hcovers⟩, rfl⟩
    exact ⟨b, hb, hcovers, rfl⟩
  · rintro ⟨b, hb, hcovers, rfl⟩
    exact ⟨b, ⟨hb, hcovers⟩, rfl⟩

theorem confirmers_mono (b : HeaderState) (blocks : List HeaderState) (k : Nat) :
    confirmers blocks k ⊆ confirmers (b :: blocks) k := by
  intro producer hmem
  obtain ⟨b', hb', hrest⟩ := mem_confirmers.mp hmem
  exact mem_confirmers.mpr ⟨b', mem_cons_of_mem _ hb', hrest⟩

/-- A block that covers the number, of a producer who did not, is one confirmation more. -/
theorem card_confirmers_lt {b : HeaderState} (hcovers : b.Covers k)
    (hnew : b.producer ∉ confirmers blocks k) :
    (confirmers blocks k).card < (confirmers (b :: blocks) k).card := by
  refine Finset.card_lt_card ⟨confirmers_mono b blocks k, fun hsub => hnew ?_⟩
  exact hsub (mem_confirmers.mpr ⟨b, mem_cons_self .., hcovers, rfl⟩)

/-! ## 2. The invariant -/

def required (producers : List Name) : Nat := producers.length * 2 / 3 + 1

/-- A chain under one schedule: the map has the last block of each producer, and a count
    that is down by `m` has `m` confirmers. -/
structure Backed (producers : List Name) (blocks : List HeaderState) (s : HeaderState) :
    Prop where
  active : s.activeSchedule.producers = producers
  pending : s.pendingSchedule.producers = [] ∨ s.pendingSchedule.producers = producers
  members : ∀ b ∈ blocks, b.producer ∈ producers
  older : ∀ b ∈ blocks, b.blockNum.toNat ≤ s.blockNum.toNat
  numbered : ∀ b ∈ blocks, ∃ last, s.producerToLastProduced.find b.producer = some last ∧
    b.blockNum.toNat ≤ last.toNat
  short : s.confirmCount.length < s.blockNum.toNat
  counts : ∀ d c, s.confirmCount[d]? = some c → c ≠ 0 ∧
    required producers ≤ c.toNat + (confirmers blocks (s.blockNum.toNat - d)).card

def SameSchedule (s : HeaderState) (h : SignedBlockHeader) : Prop :=
  h.newProducers = none ∧ h.confirmed.toNat ≤ (s.blockNum + 1).toNat

instance (s : HeaderState) (h : SignedBlockHeader) : Decidable (SameSchedule s h) :=
  inferInstanceAs (Decidable (_ ∧ _))

theorem Backed.genesis (version : UInt32) (producers : List Name) (timestamp : UInt32) :
    Backed producers [] (genesis ⟨version, producers⟩ timestamp) where
  active := rfl
  pending := .inr rfl
  members := fun _ hb => absurd hb not_mem_nil
  older := fun _ hb => absurd hb not_mem_nil
  numbered := fun _ hb => absurd hb not_mem_nil
  short := Nat.zero_lt_one
  counts := fun _ _ hc => nomatch hc

section Block

variable {producers : List Name} {blocks : List HeaderState} {s s' : HeaderState}
  {h : SignedBlockHeader}

theorem HeaderState.Step.mem_producers (hstep : s.Step h s') :
    h.producer ∈ s.activeSchedule.producers :=
  mem_of_getElem? hstep.scheduled

variable {d : Nat}

/-- When the counts are shifted for a new block, the new one starts at what is required. -/
theorem Backed.grown (hb : Backed producers blocks s) (hsize : producers.length ≤ maxProducers)
    {c : UInt8}
    (hc : (growConfirmCount s.confirmCount (requiredConfs s.activeSchedule))[d]? = some c) :
    c ≠ 0 ∧ required producers ≤
      c.toNat + (confirmers blocks (s.blockNum.toNat + 1 - d)).card := by
  rcases growConfirmCount_getElem hc with ⟨_, rfl⟩ | ⟨e, rfl, he⟩
  · rw [← hb.active] at hsize
    have hconfs := requiredConfs_toNat hsize
    rw [hb.active] at hconfs
    refine ⟨fun hzero => ?_, ?_⟩
    · rw [hzero] at hconfs
      exact absurd hconfs (Nat.succ_ne_zero _).symm
    · rw [hconfs]
      exact Nat.le_add_right _ _
  · rw [Nat.add_sub_add_right]
    exact hb.counts e c he

theorem HeaderState.Step.covers (hstep : s.Step h s')
    (hnum : s'.blockNum.toNat = s.blockNum.toNat + 1) (hd : d ≤ h.confirmed.toNat) :
    s'.Covers (s.blockNum.toNat + 1 - d) := by
  unfold HeaderState.Covers
  rw [hstep.confirmed, hnum]
  omega

section Step

variable (hb : Backed producers blocks s) (hstep : s.Step h s')
  (hnum : s'.blockNum.toNat = s.blockNum.toNat + 1)

include hb hstep hnum

/-- The map has the last block of every producer, also when a promotion has built it anew. -/
theorem Backed.numbered_step :
    ∀ b ∈ s' :: blocks, ∃ last, s'.producerToLastProduced.find b.producer = some last ∧
      b.blockNum.toNat ≤ last.toNat := by
  intro b hmem
  have hnew : b.blockNum.toNat ≤ (s.blockNum + 1).toNat := by
    rw [← hstep.blockNum]
    rcases mem_cons.mp hmem with rfl | hold
    · exact Nat.le_refl _
    · rw [hnum]
      exact Nat.le_succ_of_le (hb.older b hold)
  by_cases hself : b.producer = h.producer
  · -- its last block is the new one, in whatever map
    refine ⟨s.blockNum + 1, ?_, hnew⟩
    rcases hstep.schedules with hpromoted | hcontinued
    · rw [hpromoted.lastProduced, FlatMap.find_assign, if_pos hself]
    · rw [hcontinued.lastProduced, produced, FlatMap.find_assign, if_pos hself]
  · have hold : b ∈ blocks := by
      rcases mem_cons.mp hmem with rfl | hold
      · exact absurd hstep.producer hself
      · exact hold
    obtain ⟨last, hlast, hle⟩ := hb.numbered b hold
    refine ⟨last, ?_, hle⟩
    have hproduced : (s.produced h).find b.producer = some last := by
      rw [produced, FlatMap.find_assign, if_neg hself, hlast]
    rcases hstep.schedules with hpromoted | hcontinued
    · have hpending := hb.pending.resolve_left hpromoted.nonempty
      rw [hpromoted.lastProduced, FlatMap.find_assign, if_neg hself, FlatMap.find_ofKeys, hpending,
        if_pos (hb.members b hold), hproduced]
      rfl
    · rw [hcontinued.lastProduced, hproduced]

variable (hallowed : SameSchedule s h)

include hallowed

/-- The producer of the new block has not confirmed any block of its range: the test refuses a
    range that reaches back to the producer's last block. -/
theorem Backed.fresh (hd : d ≤ h.confirmed.toNat) :
    s'.producer ∉ confirmers blocks (s.blockNum.toNat + 1 - d) := by
  intro hmem
  obtain ⟨b, hblock, ⟨_, hle⟩, hproducer⟩ := mem_confirmers.mp hmem
  obtain ⟨last, hlast, hblast⟩ := hb.numbered b hblock
  rw [hproducer, hstep.producer] at hlast
  have htest := UInt32.lt_iff_toNat_lt.mp (hstep.anew last hlast)
  have hrange : h.confirmed.toUInt32 ≤ s.blockNum + 1 := by
    rw [UInt32.le_iff_toNat_le, UInt16.toNat_toUInt32]
    exact hallowed.2
  rw [UInt32.toNat_sub_of_le _ _ hrange, ← hstep.blockNum, hnum, UInt16.toNat_toUInt32] at htest
  omega

/-- Each block that the new one covers has one confirmer more. -/
theorem Backed.card_lt (hd : d ≤ h.confirmed.toNat) :
    (confirmers blocks (s.blockNum.toNat + 1 - d)).card <
      (confirmers (s' :: blocks) (s.blockNum.toNat + 1 - d)).card :=
  card_confirmers_lt (hstep.covers hnum hd) (hb.fresh hstep hnum hallowed hd)

variable (hsize : producers.length ≤ maxProducers)

include hsize

/-- A count goes down by one where the block confirms, and there the block's producer is a new
    confirmer. -/
theorem Backed.counts_step :
    ∀ d c, s'.confirmCount[d]? = some c → c ≠ 0 ∧
      required producers ≤ c.toNat + (confirmers (s' :: blocks) (s'.blockNum.toNat - d)).card := by
  intro d c' hc'
  rw [hstep.counts] at hc'
  obtain ⟨c, hc, hfirst, hlater⟩ := confirmBlocks_getElem hc'
  obtain ⟨hne, hcount⟩ := hb.grown hsize hc
  rw [hnum]
  by_cases hd : d < h.confirmed.toNat + 1
  · obtain ⟨rfl, hnz⟩ := hfirst hd
    have hcard := hb.card_lt hstep hnum hallowed (Nat.le_of_lt_succ hd)
    rw [count_eq_succ hne] at hcount
    exact ⟨hnz, by omega⟩
  · rw [hlater (Nat.le_of_not_lt hd)]
    have hcard := Finset.card_le_card (confirmers_mono s' blocks (s.blockNum.toNat + 1 - d))
    exact ⟨hne, by omega⟩

/-- A count that reaches zero has all its confirmers. -/
theorem Backed.hit (hd : (s.confirmedCounts h).1 = some d) :
    required producers ≤ (confirmers (s' :: blocks) (s.blockNum.toNat + 1 - d)).card := by
  obtain ⟨hlt, ⟨c, hc, hone⟩, _⟩ := confirmBlocks_some hd
  obtain ⟨hne, hcount⟩ := hb.grown hsize hc
  have hcard := hb.card_lt hstep hnum hallowed (Nat.le_of_lt_succ hlt)
  rw [count_eq_succ hne, hone, UInt8.toNat_zero] at hcount
  omega

theorem Backed.step : Backed producers (s' :: blocks) s' where
  active := by
    rcases hstep.schedules with hpromoted | hcontinued
    · rw [hpromoted.active]
      exact hb.pending.resolve_left hpromoted.nonempty
    · rw [hcontinued.active]
      exact hb.active
  pending := by
    rcases hstep.schedules with hpromoted | hcontinued
    · exact .inl hpromoted.pending
    · rcases hcontinued.pending with ⟨_, hsame⟩ | hnew
      · rw [hsame]
        exact hb.pending
      · rw [hallowed.1] at hnew
        cases hnew
  members := by
    refine forall_mem_cons.mpr ⟨?_, hb.members⟩
    rw [hstep.producer, ← hb.active]
    exact hstep.mem_producers
  older := by
    refine forall_mem_cons.mpr ⟨Nat.le_refl _, fun b hold => ?_⟩
    rw [hnum]
    exact Nat.le_succ_of_le (hb.older b hold)
  numbered := hb.numbered_step hstep hnum
  short := by
    rw [hstep.counts, hnum]
    exact Nat.lt_of_le_of_lt (s.confirmedCounts_length_le h) (Nat.succ_lt_succ hb.short)
  counts := hb.counts_step hstep hnum hallowed hsize

end Step

/-- The block with the number zero, after the largest number: its range is itself. -/
theorem Backed.hit_last (hb : Backed producers blocks s) (hsize : producers.length ≤ maxProducers)
    (hstep : s.Step h s') (hlast : s'.blockNum = 0) (hallowed : SameSchedule s h)
    (hd : (s.confirmedCounts h).1 = some d) :
    d = 0 ∧ required producers ≤ (confirmers (s' :: blocks) 0).card := by
  have hconfirmed : h.confirmed.toNat = 0 := by
    have hrange := hallowed.2
    rw [← hstep.blockNum, hlast] at hrange
    exact Nat.le_zero.mp hrange
  obtain ⟨hlt, ⟨c, hc, hone⟩, _⟩ := confirmBlocks_some hd
  rw [hconfirmed, Nat.zero_add, Nat.lt_one_iff] at hlt
  refine ⟨hlt, ?_⟩
  rw [hlt] at hc
  -- the count of the block itself starts at what is required, and is one
  obtain ⟨hne, hcount⟩ := hb.grown hsize hc
  rcases growConfirmCount_getElem hc with ⟨_, hstart⟩ | ⟨e, he, _⟩
  · rw [← hb.active] at hsize
    have hconfs := requiredConfs_toNat hsize
    rw [← hstart, count_eq_succ hne, hone, hb.active] at hconfs
    have hcovers : s'.Covers 0 := by
      unfold HeaderState.Covers
      rw [hlast, hstep.confirmed, hconfirmed]
      exact ⟨Nat.le_refl _, Nat.le_refl _⟩
    have hmem : s'.producer ∈ confirmers (s' :: blocks) 0 :=
      mem_confirmers.mpr ⟨s', mem_cons_self .., hcovers, rfl⟩
    calc required producers = 1 := hconfs.symm
      _ ≤ (confirmers (s' :: blocks) 0).card := Finset.card_pos.mpr ⟨_, hmem⟩
  · cases he

end Block

/-- A chain under one schedule is backed, as long as there are slots. -/
theorem Backed.of_chain {version timestamp : UInt32} {producers : List Name}
    (hsize : producers.length ≤ maxProducers) {s : HeaderState}
    (hchain : Chain SameSchedule (Headers.genesis ⟨version, producers⟩ timestamp) blocks s) :
    Backed producers blocks s ∧ s.Early ∨ s.Late :=
  Chain.invariant (Backed.genesis version producers timestamp) (Nat.le_add_left ..)
    (fun _ _ _ _ hb hallowed hstep hnum => hb.step hstep hnum hallowed hsize) hchain

/-! ## 3. The result -/

/-- A block that changes the proposed irreversible block has two thirds plus one of the producers
    behind the block that it proposes. -/
theorem proposed_block_is_backed {version timestamp : UInt32} {producers : List Name}
    (hsize : producers.length ≤ maxProducers) {blocks : List HeaderState} {s s' : HeaderState}
    {h : SignedBlockHeader}
    (hchain : Chain SameSchedule (genesis ⟨version, producers⟩ timestamp) blocks s)
    (hallowed : SameSchedule s h) (hnext : s.next h = .ok s')
    (hchange : s'.dposProposedIrreversibleBlocknum ≠ s.dposProposedIrreversibleBlocknum) :
    producers.length * 2 / 3 + 1 ≤
      (confirmers (s' :: blocks) s'.dposProposedIrreversibleBlocknum.toNat).card := by
  have hstep := next_ok hnext
  rcases Backed.of_chain hsize hchain with ⟨hb, hearly⟩ | hlate
  · cases hd : (s.confirmedCounts h).1 with
    | none => exact absurd (hstep.proposed_of_none hd) hchange
    | some =>
      rcases hstep.number hearly with ⟨hnum, _⟩ | ⟨hwrap, _⟩
      · rw [hstep.proposed_toNat hnum (Nat.le_of_lt hb.short) hd]
        exact hb.hit hstep hnum hallowed hsize hd
      · have hzero : s'.blockNum = 0 := by
          apply UInt32.toNat_inj.mp
          rw [hstep.blockNum, UInt32.toNat_add, UInt32.toNat_one, hwrap]
          rfl
        obtain ⟨rfl, hcard⟩ := hb.hit_last hsize hstep hzero hallowed hd
        rw [hstep.proposed_of_some hd, hzero]
        exact hcard
  · exact absurd hlate hstep.not_late

def sampleGenesis : HeaderState := genesis ⟨0, [N "a", N "b"]⟩ 0
def sampleHeader : SignedBlockHeader := ⟨1, N "a", 0, 0, none, 0⟩

theorem proposed_block_is_backed_sample : ∃ blocks s s',
    Chain SameSchedule sampleGenesis blocks s ∧
    s.next ⟨12, N "b", 1, 0, none, 0⟩ = .ok s' ∧ s'.dposProposedIrreversibleBlocknum = 2 ∧
    2 ≤ (confirmers (s' :: blocks) s'.dposProposedIrreversibleBlocknum.toNat).card := by
  obtain ⟨⟨blocks, s⟩, hreplay, hview⟩ := exists_of_map_eq_ok
    (x := replay SameSchedule [sampleHeader] [] sampleGenesis)
    (f := fun out => (decide (SameSchedule out.2 ⟨12, N "b", 1, 0, none, 0⟩),
      out.2.dposProposedIrreversibleBlocknum,
      (out.2.next ⟨12, N "b", 1, 0, none, 0⟩).map dposProposedIrreversibleBlocknum))
    (b := (true, 0, .ok 2)) (by decide +kernel)
  obtain ⟨hallowed, hview⟩ := Prod.mk.inj hview
  obtain ⟨hbefore, hmap⟩ := Prod.mk.inj hview
  obtain ⟨s', hnext, hafter⟩ := exists_of_map_eq_ok hmap
  have hchain := Chain.genesis.of_replay hreplay
  have hchange : s'.dposProposedIrreversibleBlocknum ≠ s.dposProposedIrreversibleBlocknum := by
    rw [hbefore, hafter]
    decide
  refine ⟨blocks, s, s', hchain, hnext, hafter, ?_⟩
  exact proposed_block_is_backed (by decide) hchain (of_decide_eq_true hallowed) hnext hchange

/-- With a range of four blocks, block 3 passes the test (3 - 4 wraps), and its producer is
    counted for block 2 a second time. -/
theorem range_beyond_genesis_counts_twice : ∃ blocks s s',
    Chain (fun _ h => h.newProducers = none) sampleGenesis blocks s ∧
    s.next ⟨2, N "a", 4, 0, none, 0⟩ = .ok s' ∧
    s.dposProposedIrreversibleBlocknum = 0 ∧ s'.dposProposedIrreversibleBlocknum = 2 ∧
    confirmers (s' :: blocks) 2 = {N "a"} := by
  obtain ⟨⟨blocks, s⟩, hreplay, hview⟩ := exists_of_map_eq_ok
    (x := replay (fun _ h => h.newProducers = none) [sampleHeader] [] sampleGenesis)
    (f := fun out => (out.2.dposProposedIrreversibleBlocknum,
      (out.2.next ⟨2, N "a", 4, 0, none, 0⟩).map fun s' =>
        (s'.dposProposedIrreversibleBlocknum, confirmers (s' :: out.1) 2)))
    (b := (0, .ok (2, {N "a"}))) (by decide +kernel)
  obtain ⟨hbefore, hmap⟩ := Prod.mk.inj hview
  obtain ⟨s', hnext, hafter⟩ := exists_of_map_eq_ok hmap
  obtain ⟨hproposed, hconfirmers⟩ := Prod.mk.inj hafter
  exact ⟨blocks, s, s', Chain.genesis.of_replay hreplay, hnext, hbefore, hproposed, hconfirmers⟩

end YottaChain.Headers
