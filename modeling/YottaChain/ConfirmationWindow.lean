/-
  **What the entries of `confirm_count` stand for.**

  The window holds one count for each of the last blocks, at most
  `maximum_tracked_dpos_confirmations` of them.  The count of a block is what its schedule
  requires less the blocks that have covered it since (`StandsFor`), and it never reaches
  zero inside the window: a count that does takes its block and all older ones with it.

  Block numbers have 32 bits.  A chain that uses every slot there is can wrap them, and the
  law ends there.
-/
import YottaChain.Confirmations
import YottaChain.Irreversibility

namespace YottaChain.Headers

open Checked HeaderState List

/-! ## 1. Chains whose numbers do not wrap -/

section Short

variable {allowed : HeaderState → SignedBlockHeader → Prop} {g s : HeaderState}
  {blocks : List HeaderState}

theorem HeaderState.Step.number_of_lt {s s' : HeaderState} {h : SignedBlockHeader}
    (hstep : s.Step h s') (hlt : s.blockNum.toNat + 1 < 2 ^ 32) :
    s'.blockNum.toNat = s.blockNum.toNat + 1 := by
  rw [hstep.blockNum, UInt32.toNat_add, UInt32.toNat_one]
  exact Nat.mod_eq_of_lt hlt

theorem Chain.newest (hchain : Chain allowed g blocks s) : (blocks[0]?).getD g = s := by
  cases hchain with
  | genesis | block => rfl

/-- What every block keeps, a chain of fewer blocks than there are numbers keeps. -/
theorem Chain.invariant_of_length {I : List HeaderState → HeaderState → Prop}
    (hnumber : g.blockNum = 1) (hstart : I [] g)
    (hstep : ∀ blocks s s' h, Chain allowed g blocks s → I blocks s → allowed s h → s.Step h s' →
      s'.blockNum.toNat = s.blockNum.toNat + 1 → I (s' :: blocks) s')
    (hchain : Chain allowed g blocks s) (hlength : blocks.length + 1 < 2 ^ 32) :
    s.blockNum.toNat = blocks.length + 1 ∧ I blocks s := by
  induction hchain with
  | genesis =>
    rw [hnumber]
    exact ⟨rfl, hstart⟩
  | block h hprefix hallowed hnext ih =>
    rw [length_cons] at hlength
    obtain ⟨hnum, hI⟩ := ih (Nat.lt_of_succ_lt hlength)
    have hblock := next_ok hnext
    have hnext' := hblock.number_of_lt (by rw [hnum]; exact hlength)
    refine ⟨?_, hstep _ _ _ h hprefix hI hallowed hblock hnext'⟩
    rw [hnext', hnum, length_cons]

end Short

/-! ## 2. The window -/

/-- The count `c`, `d` places from the newest, is that of the block `d` places from the newest:
    what the schedule of its parent requires, less the blocks that cover it. -/
def StandsFor (g : HeaderState) (blocks : List HeaderState) (d : Nat) (c : UInt8) : Prop :=
  ∃ b, blocks[d]? = some b ∧
    c.toNat + blocks.countP (fun e => decide (e.Covers b.blockNum.toNat)) =
      required ((blocks[d + 1]?).getD g).activeSchedule.producers

structure Window (g : HeaderState) (blocks : List HeaderState) (s : HeaderState) : Prop where
  size : s.confirmCount.length ≤ maximumTrackedDposConfirmations
  positive : ∀ c ∈ s.confirmCount, 0 < c
  stands : ∀ d c, s.confirmCount[d]? = some c → StandsFor g blocks d c
  /-- The block `d` places from the newest has the number that is `d` less. -/
  numbered : ∀ d b, blocks[d]? = some b → b.blockNum.toNat + d = s.blockNum.toNat

/-- No schedule of a header has more than `maxProducers` producers. -/
def SmallSchedules (_ : HeaderState) (h : SignedBlockHeader) : Prop :=
  ∀ schedule ∈ h.newProducers, schedule.producers.length ≤ maxProducers

instance (s : HeaderState) (h : SignedBlockHeader) : Decidable (SmallSchedules s h) :=
  Option.decidableForallMem h.newProducers

def HeaderState.Small (s : HeaderState) : Prop :=
  s.activeSchedule.producers.length ≤ maxProducers ∧
    s.pendingSchedule.producers.length ≤ maxProducers

theorem Window.genesis (initialSchedule : ProducerSchedule) (timestamp : UInt32) :
    Window (genesis initialSchedule timestamp) [] (genesis initialSchedule timestamp) where
  size := Nat.zero_le _
  positive := fun _ hc => absurd hc not_mem_nil
  stands := fun _ _ hc => nomatch hc
  numbered := fun _ _ hb => nomatch hb

theorem growConfirmCount_size {counts : List UInt8} {required : UInt8}
    (h : counts.length ≤ maximumTrackedDposConfirmations) :
    (growConfirmCount counts required).length ≤ maximumTrackedDposConfirmations := by
  unfold growConfirmCount
  split_ifs with hlt
  · exact hlt
  · rw [length_cons, length_dropLast]
    unfold maximumTrackedDposConfirmations at *
    omega

section Block

variable {g s s' : HeaderState} {blocks : List HeaderState} {h : SignedBlockHeader}

theorem HeaderState.Step.small (hstep : s.Step h s') (hallowed : SmallSchedules s h)
    (hsmall : s.Small) : s'.Small := by
  rcases hstep.schedules with hpromoted | hcontinued
  · unfold HeaderState.Small
    rw [hpromoted.active, hpromoted.pending]
    exact ⟨hsmall.2, Nat.zero_le _⟩
  · unfold HeaderState.Small
    rw [hcontinued.active]
    refine ⟨hsmall.1, ?_⟩
    rcases hcontinued.pending with ⟨_, hsame⟩ | hnew
    · rw [hsame]
      exact hsmall.2
    · exact hallowed _ hnew

variable {d : Nat}

/-- Before the new block confirms anything: its own count is what is required, and the others
    are one place further from the newest. -/
theorem Window.grown (hw : Window g blocks s) (hnewest : (blocks[0]?).getD g = s) (hsmall : s.Small)
    (hnum : s'.blockNum.toNat = s.blockNum.toNat + 1) {c : UInt8}
    (hc : (growConfirmCount s.confirmCount (requiredConfs s.activeSchedule))[d]? = some c) :
    c ≠ 0 ∧ ∃ b, (s' :: blocks)[d]? = some b ∧ b.blockNum.toNat + d = s'.blockNum.toNat ∧
      c.toNat + blocks.countP (fun e => decide (e.Covers b.blockNum.toNat)) =
        required (((s' :: blocks)[d + 1]?).getD g).activeSchedule.producers := by
  rcases growConfirmCount_getElem hc with ⟨rfl, rfl⟩ | ⟨e, rfl, he⟩
  · have hconfs := requiredConfs_toNat hsmall.1
    refine ⟨fun hzero => ?_, s', rfl, rfl, ?_⟩
    · rw [hzero] at hconfs
      exact absurd hconfs (Nat.succ_ne_zero _).symm
    · -- no earlier block covers the new number
      have hnone : blocks.countP (fun e => decide (e.Covers s'.blockNum.toNat)) = 0 := by
        rw [countP_eq_zero]
        intro b hb hcovers
        obtain ⟨i, hi, hget⟩ := getElem_of_mem hb
        have hnumber := hw.numbered i b (hget ▸ getElem?_eq_getElem hi)
        have hle := (of_decide_eq_true hcovers).2
        omega
      rw [hnone, getElem?_cons_succ, hnewest, hconfs]
      rfl
  · obtain ⟨b, hb, hcount⟩ := hw.stands e c he
    have hnumber := hw.numbered e b hb
    refine ⟨fun hzero => ?_, b, hb, by omega, hcount⟩
    rw [hzero] at he
    exact absurd (hw.positive 0 (mem_of_getElem? he)) (UInt8.lt_irrefl 0)

/-- The new block covers the blocks that are at most `confirmed` places before it. -/
theorem HeaderState.Step.covers_iff (hstep : s.Step h s') {b : HeaderState}
    (hnumber : b.blockNum.toNat + d = s'.blockNum.toNat) :
    s'.Covers b.blockNum.toNat ↔ d < h.confirmed.toNat + 1 := by
  unfold HeaderState.Covers
  rw [hstep.confirmed]
  omega

theorem Window.stands_step (hw : Window g blocks s) (hnewest : (blocks[0]?).getD g = s)
    (hsmall : s.Small) (hstep : s.Step h s') (hnum : s'.blockNum.toNat = s.blockNum.toNat + 1)
    {c' : UInt8} (hc' : s'.confirmCount[d]? = some c') :
    0 < c' ∧ StandsFor g (s' :: blocks) d c' := by
  rw [hstep.counts] at hc'
  obtain ⟨c, hc, hfirst, hlater⟩ := confirmBlocks_getElem hc'
  obtain ⟨hne, b, hb, hnumber, hcount⟩ := hw.grown hnewest hsmall hnum hc
  have hcovers := hstep.covers_iff hnumber
  by_cases hd : d < h.confirmed.toNat + 1
  · obtain ⟨rfl, hpos⟩ := hfirst hd
    refine ⟨UInt8.pos_iff_ne_zero.mpr hpos, b, hb, ?_⟩
    rw [countP_cons_of_pos (by simp [hcovers, hd]), ← hcount, count_eq_succ hne]
    omega
  · rw [hlater (Nat.le_of_not_lt hd)]
    refine ⟨UInt8.pos_iff_ne_zero.mpr hne, b, hb, ?_⟩
    rw [countP_cons_of_neg (by simp [hcovers, hd]), hcount]

theorem Window.step (hw : Window g blocks s) (hnewest : (blocks[0]?).getD g = s)
    (hsmall : s.Small) (hstep : s.Step h s')
    (hnum : s'.blockNum.toNat = s.blockNum.toNat + 1) : Window g (s' :: blocks) s' where
  size := by
    rw [hstep.counts]
    exact Nat.le_trans (confirmBlocks_length_le _ _) (growConfirmCount_size hw.size)
  positive := by
    intro c hc
    obtain ⟨d, hd, hget⟩ := getElem_of_mem hc
    exact (hw.stands_step hnewest hsmall hstep hnum
      (hget ▸ getElem?_eq_getElem hd)).1
  stands := fun _ _ hc => (hw.stands_step hnewest hsmall hstep hnum hc).2
  numbered := by
    intro d b hb
    cases d with
    | zero =>
      cases hb
      rfl
    | succ d =>
      have hnumber := hw.numbered d b hb
      omega

end Block

/-! ## 3. The last block number -/

variable {s : HeaderState} {h : SignedBlockHeader}

theorem HeaderState.exists_next (htimestamp : h.timestamp ≠ 0)
    (hextensions : h.headerExtensions = 0) (hlater : s.timestamp < h.timestamp)
    (hscheduled : s.getScheduledProducer h.timestamp = some h.producer)
    (hversion : s.activeSchedule.version = h.scheduleVersion)
    (hanew : s.confirmsAnew (s.blockNum + 1) h)
    (hnew : ∀ schedule ∈ h.newProducers, s.pendingSchedule.producers = [] ∧
      schedule.version = s.activeSchedule.version + 1) : ∃ s', s.next h = .ok s' := by
  simp only [next, generateNext, ok_iff, if_pos htimestamp, hscheduled]
  cases hproducers : h.newProducers with
  | none =>
    exact ⟨_, htimestamp, hextensions, hlater, _, ⟨fun _ => hlater, rfl⟩, rfl, hversion, hanew, rfl⟩
  | some schedule =>
    obtain ⟨hpending, hsucc⟩ := hnew schedule hproducers
    have hset : ((s.beforePromotion h).maybePromotePending.1.applyNewProducers
        (s.beforePromotion h).maybePromotePending.2 (some schedule)) =
        .ok { s.beforePromotion h with
          pendingSchedule := schedule, pendingScheduleLibNum := s.blockNum + 1 } := by
      have hwaits : (s.beforePromotion h).maybePromotePending = (s.beforePromotion h, false) :=
        if_neg fun hready => hready.1 hpending
      rw [hwaits]
      simp only [applyNewProducers, setNewProducers, ok_iff]
      exact ⟨trivial, hsucc, hpending, rfl⟩
    exact ⟨_, htimestamp, hextensions, hlater, _, ⟨fun _ => hlater, rfl⟩, rfl, hversion, hanew, hset⟩

theorem HeaderState.announced_lib {s' : HeaderState} {schedule : ProducerSchedule}
    (hnext : s.next h = .ok s') (hnew : h.newProducers = some schedule) :
    s'.pendingScheduleLibNum = s.blockNum + 1 := by
  obtain ⟨_, hpromote⟩ := next_eq_ok hnext
  rw [hnew] at hpromote
  simp only [applyNewProducers, setNewProducers, ok_iff] at hpromote
  obtain ⟨hfalse, _, _, rfl⟩ := hpromote
  unfold maybePromotePending at hfalse ⊢
  split at hfalse
  · cases hfalse
  · rename_i hwaits
    rw [if_neg hwaits]
    rfl

/-- Producer `a` has made a block in every slot, and each was final with the next. -/
structure Solo (s : HeaderState) : Prop where
  slots : s.timestamp.toNat + 1 = s.blockNum.toNat
  active : s.activeSchedule = ⟨0, [N "a"]⟩
  counts : s.confirmCount = []
  proposed : s.dposProposedIrreversibleBlocknum = s.blockNum
  produced : s.producerToLastProduced.find (N "a") = some s.blockNum
  stranger : s.producerToLastProduced.find (N "b") = none
  implied : s.producerToLastImpliedIrb.others (N "a") = []

def soloHeader (s : HeaderState) (newProducers : Option ProducerSchedule) : SignedBlockHeader :=
  ⟨s.timestamp + 1, N "a", 0, 0, newProducers, 0⟩

namespace Solo

variable {s s' : HeaderState} {newProducers : Option ProducerSchedule}

theorem exists_next (hs : Solo s) (newProducers : Option ProducerSchedule)
    (hlt : s.blockNum.toNat + 1 < 2 ^ 32)
    (hnew : ∀ schedule ∈ newProducers, s.pendingSchedule.producers = [] ∧ schedule.version = 1) :
    ∃ s', s.next (soloHeader s newProducers) = .ok s' := by
  have hslots := hs.slots
  have hslot : (s.timestamp + 1).toNat = s.timestamp.toNat + 1 := by
    rw [UInt32.toNat_add, UInt32.toNat_one]
    exact Nat.mod_eq_of_lt (by omega)
  have hnumber : (s.blockNum + 1).toNat = s.blockNum.toNat + 1 := by
    rw [UInt32.toNat_add, UInt32.toNat_one]
    exact Nat.mod_eq_of_lt hlt
  apply HeaderState.exists_next
  · intro hzero
    have := congrArg UInt32.toNat hzero
    exact absurd (hslot.symm.trans this) (Nat.succ_ne_zero _)
  · rfl
  · rw [UInt32.lt_iff_toNat_lt]
    exact hslot ▸ Nat.lt_succ_self _
  · unfold getScheduledProducer
    rw [hs.active]
    have hfirst : (s.timestamp + 1).toNat % (1 * producerRepetitions) / producerRepetitions = 0 :=
      Nat.div_eq_of_lt (Nat.mod_lt _ (by decide))
    exact congrArg (fun i => [N "a"][i]?) hfirst
  · rw [hs.active]
    rfl
  · intro last hlast
    rw [soloHeader, hs.produced] at hlast
    cases hlast
    rw [UInt32.lt_iff_toNat_lt]
    show s.blockNum.toNat < (s.blockNum + 1 - 0).toNat
    rw [UInt32.sub_zero, hnumber]
    exact Nat.lt_succ_self _
  · rw [hs.active]
    exact hnew

/-- Each block is proposed at once, and makes its parent irreversible. -/
theorem block (hs : Solo s) (hstep : s.Step (soloHeader s newProducers) s') :
    s'.confirmCount = [] ∧ s'.dposProposedIrreversibleBlocknum = s'.blockNum ∧
      s'.dposIrreversibleBlocknum = s.blockNum := by
  have hcounts : s.confirmedCounts (soloHeader s newProducers) = (some 0, []) := by
    unfold confirmedCounts
    rw [hs.counts, hs.active]
    rfl
  refine ⟨?_, ?_, ?_⟩
  · rw [hstep.counts, hcounts]
  · rw [hstep.proposed, hcounts, hstep.blockNum]
    exact UInt32.sub_zero _
  · have himplied : (s.implied (soloHeader s newProducers)).entries = [(N "a", s.blockNum)] := by
      rw [← hs.proposed]
      exact congrArg (List.cons _) hs.implied
    rw [hstep.irreversible, calcDposLastIrreversible, himplied]
    simp

theorem continued (hs : Solo s) (hlt : s.blockNum.toNat + 1 < 2 ^ 32)
    (hstep : s.Step (soloHeader s newProducers) s')
    (hcontinued : s.Continued (soloHeader s newProducers) s') : Solo s' where
  slots := by
    have hslots := hs.slots
    rw [hstep.number_of_lt hlt, hstep.timestamp, soloHeader, UInt32.toNat_add, UInt32.toNat_one,
      Nat.mod_eq_of_lt (by omega)]
    omega
  active := hcontinued.active.trans hs.active
  counts := (hs.block hstep).1
  proposed := (hs.block hstep).2.1
  produced := by
    rw [hcontinued.lastProduced, HeaderState.produced, FlatMap.find_assign, hstep.blockNum]
    exact if_pos rfl
  stranger := by
    rw [hcontinued.lastProduced, HeaderState.produced, FlatMap.find_assign]
    have hne : N "b" ≠ N "a" := by decide
    exact (if_neg hne).trans hs.stranger
  implied := by
    rw [hcontinued.lastImplied]
    exact (FlatMap.others_assign_self _ _ _).trans hs.implied

theorem start : ∃ blocks s, Chain SmallSchedules (genesis ⟨0, [N "a"]⟩ 0) blocks s ∧ Solo s ∧
    s.pendingSchedule.producers = [] ∧ s.blockNum.toNat = 2 := by
  obtain ⟨⟨blocks, s⟩, hreplay, hview⟩ := exists_of_map_eq_ok
    (x := replay SmallSchedules [⟨1, N "a", 0, 0, none, 0⟩] [] (genesis ⟨0, [N "a"]⟩ 0))
    (f := fun out => decide (out.2.timestamp = 1 ∧ out.2.blockNum = 2 ∧
      out.2.activeSchedule = ⟨0, [N "a"]⟩ ∧ out.2.confirmCount = [] ∧
      out.2.dposProposedIrreversibleBlocknum = 2 ∧ out.2.pendingSchedule.producers = [] ∧
      out.2.producerToLastProduced.find (N "a") = some 2 ∧
      out.2.producerToLastProduced.find (N "b") = none ∧
      out.2.producerToLastImpliedIrb.others (N "a") = []))
    (b := true) (by decide +kernel)
  obtain ⟨hslot, hnumber, hactive, hcounts, hproposed, hpending, hproduced, hstranger, himplied⟩ :=
    of_decide_eq_true hview
  refine ⟨blocks, s, Chain.genesis.of_replay hreplay, ?_, hpending, by rw [hnumber]; rfl⟩
  constructor
  · rw [hslot, hnumber]
    rfl
  · exact hactive
  · exact hcounts
  · rw [hproposed, hnumber]
  · rw [hproduced, hnumber]
  · exact hstranger
  · exact himplied

theorem long (n : Nat) (hn : n + 3 < 2 ^ 32) :
    ∃ blocks s, Chain SmallSchedules (genesis ⟨0, [N "a"]⟩ 0) blocks s ∧ Solo s ∧
      s.pendingSchedule.producers = [] ∧ s.blockNum.toNat = n + 2 := by
  induction n with
  | zero => exact start
  | succ _ ih =>
    obtain ⟨blocks, s, hchain, hs, hpending, hnumber⟩ := ih (Nat.lt_of_succ_lt hn)
    have hlt : s.blockNum.toNat + 1 < 2 ^ 32 := by omega
    obtain ⟨s', hnext⟩ := hs.exists_next none hlt (fun _ h => nomatch h)
    have hstep := next_ok hnext
    have hcontinued : s.Continued (soloHeader s none) s' :=
      hstep.schedules.resolve_left fun hpromoted => hpromoted.nonempty hpending
    refine ⟨s' :: blocks, s', .block _ hchain (fun _ h => by cases h) hnext,
      hs.continued hlt hstep hcontinued, ?_, ?_⟩
    · rcases hcontinued.pending with ⟨_, hsame⟩ | hnew
      · rw [hsame]
        exact hpending
      · cases hnew
    · rw [hstep.number_of_lt hlt, hnumber]

end Solo

/-- At the last number but one producer `a` announces a schedule with `b` alone, and the block
    of the last number makes it the active one. -/
theorem Solo.handed_over : ∃ blocks s,
    Chain SmallSchedules (genesis ⟨0, [N "a"]⟩ 0) blocks s ∧ s.timestamp.toNat = 2 ^ 32 - 2 ∧
    s.blockNum.toNat = 2 ^ 32 - 1 ∧ s.activeSchedule = ⟨1, [N "b"]⟩ ∧ s.confirmCount = [] ∧
    s.dposProposedIrreversibleBlocknum = s.blockNum ∧
    ∃ last, s.producerToLastProduced.find (N "b") = some last ∧ last.toNat = 2 ^ 32 - 2 := by
  obtain ⟨blocks, s, hchain, hs, hpending, hnumber⟩ := Solo.long (2 ^ 32 - 5) (by decide)
  have hlt : s.blockNum.toNat + 1 < 2 ^ 32 := by omega
  obtain ⟨s1, hnext1⟩ := hs.exists_next (some ⟨1, [N "b"]⟩) hlt (by
    intro schedule hschedule
    cases hschedule
    exact ⟨hpending, rfl⟩)
  have hstep1 := next_ok hnext1
  have hcontinued : s.Continued (soloHeader s (some ⟨1, [N "b"]⟩)) s1 :=
    hstep1.schedules.resolve_left fun hpromoted => hpromoted.nonempty hpending
  have hs1 := hs.continued hlt hstep1 hcontinued
  have hnumber1 := hstep1.number_of_lt hlt
  have hpending1 : s1.pendingSchedule = ⟨1, [N "b"]⟩ := by
    rcases hcontinued.pending with ⟨hnone, _⟩ | hnew
    · cases hnone
    · exact (Option.some.inj hnew).symm
  have hlib : s1.pendingScheduleLibNum = s1.blockNum :=
    (announced_lib hnext1 rfl).trans hstep1.blockNum.symm
  have hlt1 : s1.blockNum.toNat + 1 < 2 ^ 32 := by omega
  obtain ⟨s2, hnext2⟩ := hs1.exists_next none hlt1 (fun _ h => nomatch h)
  have hstep2 := next_ok hnext2
  have hnumber2 := hstep2.number_of_lt hlt1
  obtain ⟨hcounts, hproposed, hirreversible⟩ := hs1.block hstep2
  have hpromoted : s1.Promoted (soloHeader s1 none) s2 := by
    refine hstep2.schedules.resolve_right fun hcontinued2 => ?_
    have hwaits := hcontinued2.waits (by rw [hpending1]; decide)
    rw [hirreversible, hlib] at hwaits
    exact UInt32.lt_irrefl _ hwaits
  refine ⟨s2 :: s1 :: blocks, s2, .block _ (.block _ hchain ?_ hnext1) ?_ hnext2, ?_, ?_, ?_,
    hcounts, hproposed, s2.dposIrreversibleBlocknum, ?_, ?_⟩
  · intro schedule hschedule
    cases hschedule
    decide
  · intro schedule hschedule
    cases hschedule
  · have hslots := hs1.slots
    rw [hstep2.timestamp, soloHeader, UInt32.toNat_add, UInt32.toNat_one]
    omega
  · omega
  · rw [hpromoted.active, hpending1]
  · have hne : N "b" ≠ N "a" := by decide
    rw [hpromoted.lastProduced, FlatMap.find_assign, soloHeader, if_neg hne, hpending1,
      FlatMap.find_ofKeys, if_pos (mem_singleton.mpr rfl), HeaderState.produced,
      FlatMap.find_assign, if_neg hne, hs1.stranger]
    rfl
  · rw [hirreversible]
    omega

def lastHeader : SignedBlockHeader := ⟨0xFFFFFFFF, N "b", 1, 1, none, 0⟩

/-! ## 4. The result -/

/-- The state of a chain whose numbers have not wrapped: its window, and the bounds between the
    irreversible, the proposed and the newest block number. -/
theorem Window.of_chain {initialSchedule : ProducerSchedule} {timestamp : UInt32}
    (hinitial : initialSchedule.producers.length ≤ maxProducers) {blocks : List HeaderState}
    (hchain : Chain SmallSchedules (Headers.genesis initialSchedule timestamp) blocks s)
    (hlength : blocks.length + 1 < 2 ^ 32) :
    s.blockNum.toNat = blocks.length + 1 ∧
      Window (Headers.genesis initialSchedule timestamp) blocks s ∧ s.Small ∧ Bounded s := by
  refine Chain.invariant_of_length (I := fun blocks s =>
    Window (Headers.genesis initialSchedule timestamp) blocks s ∧ s.Small ∧ Bounded s) rfl
    ⟨.genesis _ _, ⟨hinitial, hinitial⟩, .genesis _ _⟩ ?_ hchain hlength
  rintro blocks s s' h hprefix ⟨hw, hsmall, hb⟩ hallowed hstep hnum
  exact ⟨hw.step hprefix.newest hsmall hstep hnum, hstep.small hallowed hsmall, hb.step hstep hnum⟩

/-- **The confirmation window.**  After every chain of fewer than `2 ^ 32 - 1` blocks the window
    has at most 1024 entries, all positive, and each stands for its block; the proposed number is
    at most the block number less the size of the window, the irreversible one is at most the
    proposed one, and no further block lowers the proposed one. -/
theorem confirmation_window {initialSchedule : ProducerSchedule} {timestamp : UInt32}
    (hinitial : initialSchedule.producers.length ≤ maxProducers) {blocks : List HeaderState}
    {s : HeaderState}
    (hchain : Chain SmallSchedules (genesis initialSchedule timestamp) blocks s)
    (hlength : blocks.length + 1 < 2 ^ 32) :
    Window (genesis initialSchedule timestamp) blocks s ∧
    s.dposProposedIrreversibleBlocknum.toNat + s.confirmCount.length ≤ s.blockNum.toNat ∧
    s.dposIrreversibleBlocknum ≤ s.dposProposedIrreversibleBlocknum ∧
    ∀ h s', s.next h = .ok s' → blocks.length + 2 < 2 ^ 32 →
      s.dposProposedIrreversibleBlocknum ≤ s'.dposProposedIrreversibleBlocknum := by
  obtain ⟨hnumber, hw, _, hb⟩ := Window.of_chain hinitial hchain hlength
  refine ⟨hw, hb.room, hb.irreversible, ?_⟩
  intro h s' hnext hmore
  have hstep := next_ok hnext
  exact (hb.proposed_step hstep (hstep.number_of_lt (by rw [hnumber]; exact hmore))).1

/-- Two producers in turn, with two blocks each: the first block of a turn confirms those of the
    turn before. -/
def sampleTurns : List SignedBlockHeader :=
  [⟨1, N "a", 0, 0, none, 0⟩, ⟨2, N "a", 0, 0, none, 0⟩, ⟨12, N "b", 2, 0, none, 0⟩,
    ⟨13, N "b", 0, 0, none, 0⟩, ⟨24, N "a", 2, 0, none, 0⟩]

/-- The window was cut twice: of five blocks one is left in it. -/
theorem confirmation_window_sample : ∃ blocks s,
    Chain SmallSchedules sampleGenesis blocks s ∧ blocks.length = 5 ∧ s.confirmCount = [1] ∧
    s.dposProposedIrreversibleBlocknum = 5 ∧ s.dposIrreversibleBlocknum = 3 ∧
    Window sampleGenesis blocks s := by
  obtain ⟨⟨blocks, s⟩, hreplay, hview⟩ := exists_of_map_eq_ok
    (x := replay SmallSchedules sampleTurns [] sampleGenesis)
    (f := fun out => (out.1.length, out.2.confirmCount, out.2.dposProposedIrreversibleBlocknum,
      out.2.dposIrreversibleBlocknum)) (b := (5, [1], 5, 3)) (by decide +kernel)
  simp only [Prod.mk.injEq] at hview
  obtain ⟨hlength, hcounts, hproposed, hirreversible⟩ := hview
  have hchain := Chain.genesis.of_replay hreplay
  refine ⟨blocks, s, hchain, hlength, hcounts, hproposed, hirreversible, ?_⟩
  exact (confirmation_window (by decide) hchain (by rw [hlength]; decide)).1

/-- In the last slot the number wraps, and the proposed number falls back to zero. -/
theorem proposed_number_wraps : ∃ blocks s h s',
    Chain SmallSchedules (genesis ⟨0, [N "a"]⟩ 0) blocks s ∧ SmallSchedules s h ∧
    s.next h = .ok s' ∧ s'.dposProposedIrreversibleBlocknum < s.dposProposedIrreversibleBlocknum := by
  obtain ⟨blocks, s, hchain, hslot, hnumber, hactive, hcounts, hproposed, last, hlast, hvalue⟩ :=
    Solo.handed_over
  have htimestamp : s.timestamp = 0xFFFFFFFE := UInt32.toNat_inj.mp hslot
  have hblock : s.blockNum = 0xFFFFFFFF := UInt32.toNat_inj.mp hnumber
  have hproduced : last = 0xFFFFFFFE := UInt32.toNat_inj.mp hvalue
  have hexists : ∃ s', s.next lastHeader = .ok s' := by
    apply HeaderState.exists_next
    · decide
    · rfl
    · rw [htimestamp]
      decide
    · rw [getScheduledProducer, hactive]
      rfl
    · rw [hactive]
      rfl
    · -- the number of the new block is zero, and so the test compares with the last number
      rw [confirmsAnew, lastHeader, hlast, hblock, hproduced]
      intro last' hlast'
      cases hlast'
      decide
    · intro schedule hschedule
      cases hschedule
  obtain ⟨s', hnext⟩ := hexists
  have hstep := next_ok hnext
  refine ⟨blocks, s, lastHeader, s', hchain, (fun _ h => by cases h), hnext, ?_⟩
  have hconfirmed : (s.confirmedCounts lastHeader).1 = some 0 := by
    rw [confirmedCounts, hcounts, hactive]
    rfl
  rw [hstep.proposed, hconfirmed, hproposed, hblock]
  decide

end YottaChain.Headers
