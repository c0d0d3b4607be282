/-
  **When the irreversible block number goes back.**

  The irreversible number of a block is taken a third into the sorted numbers that the
  producers imply, each by its last block.  A block raises the number of its own producer
  only, so along one schedule the irreversible number cannot fall.  A promotion takes a
  new set of producers: those who stay keep their numbers, and if too many of them are
  behind, the next block has a smaller irreversible number than its parent.
-/
import YottaChain.BlockHeaderState

namespace YottaChain.Headers

open Checked HeaderState List

/-! ## 1. A third into the sorted list -/

instance isTransLe : IsTrans UInt32 fun a b => a ≤ b := ⟨fun _ _ _ => UInt32.le_trans⟩
instance totalLe : Std.Total fun a b : UInt32 => a ≤ b := ⟨UInt32.le_total⟩

variable {m : FlatMap Name UInt32}

theorem calcDposLastIrreversible_le {b : UInt32} (h : ∀ e ∈ m.entries, e.2 ≤ b) :
    calcDposLastIrreversible m ≤ b := by
  unfold calcDposLastIrreversible
  rw [getD_eq_getElem?_getD]
  cases hvalue : ((m.entries.map Prod.snd).insertionSort fun a b => a ≤ b)[
      ((m.entries.map Prod.snd).length - 1) / 3]? with
  | none => exact UInt32.le_iff_toNat_le.mpr (Nat.zero_le _)
  | some =>
    have hmem := (perm_insertionSort _ _).mem_iff.mp (mem_of_getElem? hvalue)
    obtain ⟨e, he, rfl⟩ := mem_map.mp hmem
    exact h e he

/-- At least `x` exactly if at most a third of the entries is below `x`. -/
theorem le_calcDposLastIrreversible_iff (hne : 0 < m.entries.length) (x : UInt32) :
    x ≤ calcDposLastIrreversible m ↔
      m.entries.countP (fun e => decide (¬ x ≤ e.2)) ≤ (m.entries.length - 1) / 3 := by
  have hperm := perm_insertionSort (fun a b : UInt32 => a ≤ b) (m.entries.map Prod.snd)
  have hindex : ((m.entries.map Prod.snd).length - 1) / 3 <
      ((m.entries.map Prod.snd).insertionSort fun a b => a ≤ b).length := by
    rw [hperm.length_eq, length_map]
    omega
  have hsorted := pairwise_insertionSort (fun a b : UInt32 => a ≤ b) (m.entries.map Prod.snd)
  unfold calcDposLastIrreversible
  rw [KeyedList.le_getD_iff (r := fun a b => a ≤ b) x 0 hsorted hindex, hperm.countP_eq,
    countP_map, length_map]
  rfl

/-! ## 2. The irreversible number stays below the proposed one -/

structure Bounded (s : HeaderState) : Prop where
  /-- The counts belong to blocks after the proposed one. -/
  room : s.dposProposedIrreversibleBlocknum.toNat + s.confirmCount.length ≤ s.blockNum.toNat
  implied : ∀ e ∈ s.producerToLastImpliedIrb.entries, e.2 ≤ s.dposProposedIrreversibleBlocknum
  irreversible : s.dposIrreversibleBlocknum ≤ s.dposProposedIrreversibleBlocknum

theorem Bounded.genesis (initialSchedule : ProducerSchedule) (timestamp : UInt32) :
    Bounded (genesis initialSchedule timestamp) where
  room := Nat.zero_le _
  implied := fun _ he => absurd he not_mem_nil
  irreversible := UInt32.le_refl _

section Block

variable {s s' : HeaderState} {h : SignedBlockHeader}

/-- The new proposed number, and that the counts still belong to later blocks. -/
theorem Bounded.proposed_step (hb : Bounded s) (hstep : s.Step h s')
    (hnum : s'.blockNum.toNat = s.blockNum.toNat + 1) :
    s.dposProposedIrreversibleBlocknum ≤ s'.dposProposedIrreversibleBlocknum ∧
      s'.dposProposedIrreversibleBlocknum.toNat + s'.confirmCount.length ≤ s'.blockNum.toNat := by
  have hroom := hb.room
  rw [hstep.counts, hnum]
  cases hd : (s.confirmedCounts h).1 with
  | none =>
    rw [hstep.proposed_of_none hd]
    have hremain := s.confirmedCounts_length_le h
    exact ⟨UInt32.le_refl _, by omega⟩
  | some d =>
    -- the counts that remain are those of the `d` blocks after the proposed one
    obtain ⟨hle, hremain⟩ := confirmedCounts_some hd
    rw [UInt32.le_iff_toNat_le, hremain, hstep.proposed_toNat hnum (by omega) hd]
    omega

theorem Bounded.implied_step (hb : Bounded s) (h : SignedBlockHeader) :
    ∀ e ∈ (s.implied h).entries, e.2 ≤ s.dposProposedIrreversibleBlocknum :=
  FlatMap.forall_assign (P := fun v => v ≤ s.dposProposedIrreversibleBlocknum) hb.implied
    h.producer (UInt32.le_refl _)

theorem Bounded.irreversible_step (hb : Bounded s) (hstep : s.Step h s') :
    s'.dposIrreversibleBlocknum ≤ s.dposProposedIrreversibleBlocknum := by
  rw [hstep.irreversible]
  exact calcDposLastIrreversible_le (hb.implied_step h)

theorem Bounded.step (hb : Bounded s) (hstep : s.Step h s')
    (hnum : s'.blockNum.toNat = s.blockNum.toNat + 1) : Bounded s' where
  room := (hb.proposed_step hstep hnum).2
  irreversible := UInt32.le_trans (hb.irreversible_step hstep) (hb.proposed_step hstep hnum).1
  implied := by
    have hgrows := (hb.proposed_step hstep hnum).1
    rcases hstep.schedules with hpromoted | hcontinued
    · rw [hpromoted.lastImplied]
      refine FlatMap.forall_ofKeys (P := fun v => v ≤ s'.dposProposedIrreversibleBlocknum)
        (fun producer => ?_) _
      cases hfind : (s.implied h).find producer with
      | none => exact UInt32.le_trans (hb.irreversible_step hstep) hgrows
      | some =>
        exact UInt32.le_trans (hb.implied_step h _ (FlatMap.find_eq_some.mp hfind)) hgrows
    · rw [hcontinued.lastImplied]
      intro e he
      exact UInt32.le_trans (hb.implied_step h e he) hgrows

end Block

variable {s : HeaderState}

theorem Bounded.of_chain {allowed : HeaderState → SignedBlockHeader → Prop}
    {initialSchedule : ProducerSchedule} {timestamp : UInt32} {blocks : List HeaderState}
    (hchain : Chain allowed (Headers.genesis initialSchedule timestamp) blocks s) :
    Bounded s ∧ s.Early ∨ s.Late :=
  Chain.invariant (I := fun _ s => Bounded s) (Bounded.genesis initialSchedule timestamp)
    (Nat.le_add_left ..) (fun _ _ _ _ hb _ hstep hnum => hb.step hstep hnum) hchain

/-! ## 3. When it falls -/

/-- Of the producers in the map, the given one apart, at most a third implies a number below the
    irreversible one. -/
def HeaderState.FewBehind (s : HeaderState) (producer : Name) : Prop :=
  (s.producerToLastImpliedIrb.others producer).countP
      (fun e => decide (¬ s.dposIrreversibleBlocknum ≤ e.2)) ≤
    (s.producerToLastImpliedIrb.others producer).length / 3

instance (s : HeaderState) (producer : Name) : Decidable (s.FewBehind producer) :=
  inferInstanceAs (Decidable (_ ≤ _))

theorem HeaderState.implied_length_pos (s : HeaderState) (h : SignedBlockHeader) :
    0 < (s.implied h).entries.length :=
  Nat.succ_pos _

/-- A block that leaves the schedule leaves few producers behind. -/
theorem HeaderState.Continued.fewBehind {s' : HeaderState} {h : SignedBlockHeader}
    (hstep : s.Step h s') (hcontinued : s.Continued h s') (producer : Name) :
    s'.FewBehind producer := by
  have hbehind := (le_calcDposLastIrreversible_iff (s.implied_length_pos h)
    s'.dposIrreversibleBlocknum).mp (UInt32.le_of_eq hstep.irreversible)
  unfold FewBehind
  rw [← hcontinued.lastImplied] at hbehind
  have hcount := List.Sublist.countP_le
    (p := fun e : Name × UInt32 => decide (¬ s'.dposIrreversibleBlocknum ≤ e.2))
    (s'.producerToLastImpliedIrb.others_sublist producer)
  have hlength := s'.producerToLastImpliedIrb.length_le_others producer
  omega

/-- The irreversible number of a block is at least that of its parent exactly if few producers
    are behind. -/
theorem finality_moves_forward_iff {allowed : HeaderState → SignedBlockHeader → Prop}
    {initialSchedule : ProducerSchedule} {timestamp : UInt32} {blocks : List HeaderState}
    {s s' : HeaderState} {h : SignedBlockHeader}
    (hchain : Chain allowed (genesis initialSchedule timestamp) blocks s)
    (hnext : s.next h = .ok s') :
    s.dposIrreversibleBlocknum ≤ s'.dposIrreversibleBlocknum ↔ s.FewBehind h.producer := by
  have hstep := next_ok hnext
  rcases Bounded.of_chain hchain with ⟨hb, _⟩ | hlate
  · rw [hstep.irreversible, le_calcDposLastIrreversible_iff (s.implied_length_pos h)]
    unfold HeaderState.implied FlatMap.assign HeaderState.FewBehind
    -- the block's own producer implies the proposed number, which is not behind
    rw [countP_cons_of_neg (by simp [hb.irreversible]), length_cons, Nat.add_sub_cancel]
  · exact absurd hlate hstep.not_late

/-- The new schedules of a header have from one to `maxProducers` different producers. -/
def ProperSchedules (_ : HeaderState) (h : SignedBlockHeader) : Prop :=
  ∀ schedule ∈ h.newProducers, schedule.producers ≠ [] ∧
    schedule.producers.length ≤ maxProducers ∧ schedule.producers.Nodup

instance (s : HeaderState) (h : SignedBlockHeader) : Decidable (ProperSchedules s h) :=
  Option.decidableForallMem h.newProducers

/-- From one producer to four, of which the third never makes a block, to the first and third. -/
def sampleSchedules : List SignedBlockHeader :=
  [⟨1, N "a", 0, 0, none, 0⟩,
   ⟨2, N "a", 0, 0, some ⟨1, [N "a", N "b", N "c", N "d"]⟩, 0⟩,
   ⟨3, N "a", 0, 0, none, 0⟩,
   ⟨4, N "a", 0, 1, some ⟨2, [N "a", N "c"]⟩, 0⟩,
   ⟨12, N "b", 1, 1, none, 0⟩,
   ⟨36, N "d", 2, 1, none, 0⟩,
   ⟨48, N "a", 2, 1, none, 0⟩,
   ⟨60, N "b", 2, 1, none, 0⟩,
   ⟨84, N "d", 2, 1, none, 0⟩]

theorem finality_moves_forward_iff_sample : ∃ blocks s s',
    Chain ProperSchedules (genesis ⟨0, [N "a"]⟩ 0) blocks s ∧
    s.next ⟨84, N "d", 2, 1, none, 0⟩ = .ok s' ∧ s.FewBehind (N "d") ∧
    s.dposIrreversibleBlocknum ≤ s'.dposIrreversibleBlocknum := by
  obtain ⟨⟨blocks, s⟩, hreplay, hview⟩ := exists_of_map_eq_ok
    (x := replay ProperSchedules (sampleSchedules.take 8) [] (genesis ⟨0, [N "a"]⟩ 0))
    (f := fun out => (decide (out.2.FewBehind (N "d")),
      (out.2.next ⟨84, N "d", 2, 1, none, 0⟩).map dposIrreversibleBlocknum))
    (b := (true, .ok 5)) (by decide +kernel)
  obtain ⟨hfew, hmap⟩ := Prod.mk.inj hview
  obtain ⟨s', hnext, _⟩ := exists_of_map_eq_ok hmap
  have hchain := Chain.genesis.of_replay hreplay
  refine ⟨blocks, s, s', hchain, hnext, of_decide_eq_true hfew, ?_⟩
  exact (finality_moves_forward_iff hchain hnext).mpr (of_decide_eq_true hfew)

/-- The schedule of two producers becomes active with block 10; the third producer still implies
    block 3, and so block 11 goes back from 5 to 3. -/
theorem promotion_moves_finality_back : ∃ blocks s s',
    Chain ProperSchedules (genesis ⟨0, [N "a"]⟩ 0) blocks s ∧
    s.next ⟨96, N "a", 0, 2, none, 0⟩ = .ok s' ∧
    s.blockNum = 10 ∧ s.dposIrreversibleBlocknum = 5 ∧ s'.dposIrreversibleBlocknum = 3 := by
  obtain ⟨⟨blocks, s⟩, hreplay, hview⟩ := exists_of_map_eq_ok
    (x := replay ProperSchedules sampleSchedules [] (genesis ⟨0, [N "a"]⟩ 0))
    (f := fun out => (out.2.blockNum, out.2.dposIrreversibleBlocknum,
      (out.2.next ⟨96, N "a", 0, 2, none, 0⟩).map dposIrreversibleBlocknum))
    (b := (10, 5, .ok 3)) (by decide +kernel)
  obtain ⟨hnum, hview⟩ := Prod.mk.inj hview
  obtain ⟨hbefore, hmap⟩ := Prod.mk.inj hview
  obtain ⟨s', hnext, hafter⟩ := exists_of_map_eq_ok hmap
  exact ⟨blocks, s, s', Chain.genesis.of_replay hreplay, hnext, hnum, hbefore, hafter⟩

/-! ## 4. Only a promotion makes it fall -/

/-- **Finality falls only right after a promotion**: if a block has a lower irreversible number
    than its parent, then the parent made a new schedule active. -/
theorem finality_falls_after_promotion {allowed : HeaderState → SignedBlockHeader → Prop}
    {initialSchedule : ProducerSchedule} {timestamp : UInt32} {blocks : List HeaderState}
    {s s' s'' : HeaderState} {h h' : SignedBlockHeader}
    (hchain : Chain allowed (genesis initialSchedule timestamp) blocks s) (hallowed : allowed s h)
    (hnext : s.next h = .ok s') (hnext' : s'.next h' = .ok s'')
    (hfalls : s''.dposIrreversibleBlocknum < s'.dposIrreversibleBlocknum) : s.Promoted h s' := by
  have hstep := next_ok hnext
  have hstep' := next_ok hnext'
  refine hstep.schedules.resolve_right fun hcontinued => UInt32.not_le.mpr hfalls ?_
  rcases Bounded.of_chain (hchain.block h hallowed hnext) with ⟨hb, _⟩ | hlate
  · rw [hstep'.irreversible, le_calcDposLastIrreversible_iff (s'.implied_length_pos h')]
    unfold HeaderState.implied FlatMap.assign
    rw [countP_cons_of_neg (by simp [hb.irreversible]), length_cons, Nat.add_sub_cancel]
    exact hcontinued.fewBehind hstep h'.producer
  · exact absurd hlate hstep'.not_late

theorem finality_falls_after_promotion_sample : ∃ blocks s s' s'',
    Chain ProperSchedules (genesis ⟨0, [N "a"]⟩ 0) blocks s ∧
    s.next ⟨84, N "d", 2, 1, none, 0⟩ = .ok s' ∧ s'.next ⟨96, N "a", 0, 2, none, 0⟩ = .ok s'' ∧
    s''.dposIrreversibleBlocknum < s'.dposIrreversibleBlocknum ∧
    s.Promoted ⟨84, N "d", 2, 1, none, 0⟩ s' := by
  obtain ⟨⟨blocks, s⟩, hreplay, hview⟩ := exists_of_map_eq_ok
    (x := replay ProperSchedules (sampleSchedules.take 8) [] (genesis ⟨0, [N "a"]⟩ 0))
    (f := fun out => (out.2.next ⟨84, N "d", 2, 1, none, 0⟩).map fun s' =>
      (s'.dposIrreversibleBlocknum,
        (s'.next ⟨96, N "a", 0, 2, none, 0⟩).map dposIrreversibleBlocknum))
    (b := .ok (5, .ok 3)) (by decide +kernel)
  obtain ⟨s', hnext, hview⟩ := exists_of_map_eq_ok hview
  obtain ⟨hbefore, hmap⟩ := Prod.mk.inj hview
  obtain ⟨s'', hnext', hafter⟩ := exists_of_map_eq_ok hmap
  have hfalls : s''.dposIrreversibleBlocknum < s'.dposIrreversibleBlocknum := by
    rw [hbefore, hafter]
    decide
  have hchain := Chain.genesis.of_replay hreplay
  refine ⟨blocks, s, s', s'', hchain, hnext, hnext', hfalls, ?_⟩
  exact finality_falls_after_promotion hchain (by rintro _ ⟨⟩) hnext hnext' hfalls

end YottaChain.Headers
