/-
  **The header state machine** (`block_header_state.cpp`).

  A header state is what a node keeps of the head of a chain to decide which header may
  follow: the schedules, who produced and confirmed up to where, and the irreversible
  block numbers.  `next` makes the state of the next block from a header, or refuses it.

  A header is taken to link to the state it is given to and to be signed by its
  producer; ids, digests, signing keys, Merkle roots and the BFT number are left out.
  `confirm_count` is kept with the newest block first.
-/
import YottaChain.Chain
import YottaChain.FlatMap

namespace YottaChain.Headers

open Checked

/-! ## 1. States and headers -/

def producerRepetitions : Nat := 12
def maxProducers : Nat := 125
def maximumTrackedDposConfirmations : Nat := 1024

structure ProducerSchedule where
  version : UInt32
  producers : List Name
deriving DecidableEq

structure HeaderState where
  blockNum : UInt32
  /-- The slot of `header.timestamp`. -/
  timestamp : UInt32
  producer : Name
  confirmed : UInt16
  dposProposedIrreversibleBlocknum : UInt32
  dposIrreversibleBlocknum : UInt32
  pendingScheduleLibNum : UInt32
  pendingSchedule : ProducerSchedule
  activeSchedule : ProducerSchedule
  producerToLastProduced : FlatMap Name UInt32
  producerToLastImpliedIrb : FlatMap Name UInt32
  /-- How many confirmations each of the last blocks still needs, newest block first. -/
  confirmCount : List UInt8

structure SignedBlockHeader where
  timestamp : UInt32
  producer : Name
  confirmed : UInt16
  scheduleVersion : UInt32
  newProducers : Option ProducerSchedule
  /-- The number of header extensions. -/
  headerExtensions : Nat

namespace HeaderState

/-! ## 2. The next state -/

def getScheduledProducer (s : HeaderState) (slot : UInt32) : Option Name :=
  let n := s.activeSchedule.producers.length
  s.activeSchedule.producers[slot.toNat % (n * producerRepetitions) / producerRepetitions]?

/-- `calc_dpos_last_irreversible`: a third into the sorted list. -/
def calcDposLastIrreversible (implied : FlatMap Name UInt32) : UInt32 :=
  let blocknums := implied.entries.map Prod.snd
  (blocknums.insertionSort fun a b => a ≤ b).getD ((blocknums.length - 1) / 3) 0

def requiredConfs (schedule : ProducerSchedule) : UInt8 :=
  UInt8.ofNat (schedule.producers.length * 2 / 3 + 1)

def growConfirmCount (counts : List UInt8) (required : UInt8) : List UInt8 :=
  if counts.length < maximumTrackedDposConfirmations then required :: counts
  else required :: counts.dropLast

/-- `generate_next`; the default time stamp stands for the next slot. -/
def generateNext (s : HeaderState) (slot : UInt32) : Checked HeaderState := do
  ensure (slot ≠ 0 → s.timestamp < slot) "next block must be in the future"
  let slot := if slot ≠ 0 then slot else s.timestamp + 1
  match s.getScheduledProducer slot with
  | none => .error "no producer is scheduled"
  | some producer =>
      let blockNum := s.blockNum + 1
      let implied := s.producerToLastImpliedIrb.assign producer s.dposProposedIrreversibleBlocknum
      pure {
        blockNum := blockNum
        timestamp := slot
        producer := producer
        confirmed := 1
        dposProposedIrreversibleBlocknum := s.dposProposedIrreversibleBlocknum
        dposIrreversibleBlocknum := calcDposLastIrreversible implied
        pendingScheduleLibNum := s.pendingScheduleLibNum
        pendingSchedule := s.pendingSchedule
        activeSchedule := s.activeSchedule
        producerToLastProduced := s.producerToLastProduced.assign producer blockNum
        producerToLastImpliedIrb := implied
        confirmCount := growConfirmCount s.confirmCount (requiredConfs s.activeSchedule) }

/-- The loop of `set_confirmed` with `n` more blocks to confirm: the distance from the head of
    the block whose count reaches zero, if one does, and the counts that remain. -/
def confirmBlocks : Nat → List UInt8 → Option Nat × List UInt8
  | 0, counts => (none, counts)
  | _ + 1, [] => (none, [])
  | n + 1, count :: counts =>
      if count - 1 = 0 then (some 0, [])
      else
        let out := confirmBlocks n counts
        (out.1.map (· + 1), (count - 1) :: out.2)

def setConfirmed (s : HeaderState) (numPrevBlocks : UInt16) : HeaderState :=
  let out := confirmBlocks (numPrevBlocks.toNat + 1) s.confirmCount
  { s with
    confirmed := numPrevBlocks
    confirmCount := out.2
    dposProposedIrreversibleBlocknum :=
      match out.1 with
      | none => s.dposProposedIrreversibleBlocknum
      | some distance => s.blockNum - UInt32.ofNat distance }

def inherited (s : HeaderState) (old : FlatMap Name UInt32) : FlatMap Name UInt32 :=
  .ofKeys (fun producer => (old.find producer).getD s.dposIrreversibleBlocknum)
    s.pendingSchedule.producers

/-- `maybe_promote_pending`, and whether it did. -/
def maybePromotePending (s : HeaderState) : HeaderState × Bool :=
  if s.pendingSchedule.producers ≠ [] ∧
      s.pendingScheduleLibNum ≤ s.dposIrreversibleBlocknum then
    ({ s with
      activeSchedule := s.pendingSchedule
      pendingSchedule := { s.pendingSchedule with producers := [] }
      producerToLastProduced := (s.inherited s.producerToLastProduced).assign s.producer s.blockNum
      producerToLastImpliedIrb := s.inherited s.producerToLastImpliedIrb }, true)
  else (s, false)

def setNewProducers (s : HeaderState) (pending : ProducerSchedule) : Checked HeaderState := do
  ensure (pending.version = s.activeSchedule.version + 1)
    "wrong producer schedule version specified"
  ensure (s.pendingSchedule.producers = [])
    "cannot set new pending producers until last pending is confirmed"
  pure { s with pendingSchedule := pending, pendingScheduleLibNum := s.blockNum }

def confirmsAnew (s : HeaderState) (blockNum : UInt32) (h : SignedBlockHeader) : Prop :=
  ∀ last ∈ s.producerToLastProduced.find h.producer, last < blockNum - h.confirmed.toUInt32

instance (s : HeaderState) (blockNum : UInt32) (h : SignedBlockHeader) :
    Decidable (s.confirmsAnew blockNum h) :=
  Option.decidableForallMem (s.producerToLastProduced.find h.producer)

def applyNewProducers (s : HeaderState) (promoted : Bool) :
    Option ProducerSchedule → Checked HeaderState
  | none => .ok s
  | some schedule => do
      ensure (promoted = false)
        "cannot set pending producer schedule in the same block in which pending was promoted to active"
      s.setNewProducers schedule

def next (s : HeaderState) (h : SignedBlockHeader) : Checked HeaderState := do
  ensure (h.timestamp ≠ 0) ""
  ensure (h.headerExtensions = 0) "no supported extensions"
  ensure (s.timestamp < h.timestamp) "block must be later in time"
  let result ← s.generateNext h.timestamp
  ensure (result.producer = h.producer) "wrong producer specified"
  ensure (s.activeSchedule.version = h.scheduleVersion)
    "schedule_version in signed block is corrupted"
  ensure (s.confirmsAnew result.blockNum h) "producer ${prod} double-confirming known range"
  let promoted := (result.setConfirmed h.confirmed).maybePromotePending
  promoted.1.applyNewProducers promoted.2 h.newProducers

end HeaderState

/-- The state of the first block: the initial schedule is both active and pending. -/
def genesis (initialSchedule : ProducerSchedule) (timestamp : UInt32) : HeaderState where
  blockNum := 1
  timestamp := timestamp
  producer := 0
  confirmed := 1
  dposProposedIrreversibleBlocknum := 0
  dposIrreversibleBlocknum := 0
  pendingScheduleLibNum := 0
  pendingSchedule := initialSchedule
  activeSchedule := initialSchedule
  producerToLastProduced := ∅
  producerToLastImpliedIrb := ∅
  confirmCount := []

/-! ## 3. What one block does -/

namespace HeaderState

def confirmedCounts (s : HeaderState) (h : SignedBlockHeader) : Option Nat × List UInt8 :=
  confirmBlocks (h.confirmed.toNat + 1)
    (growConfirmCount s.confirmCount (requiredConfs s.activeSchedule))

def produced (s : HeaderState) (h : SignedBlockHeader) : FlatMap Name UInt32 :=
  s.producerToLastProduced.assign h.producer (s.blockNum + 1)

def implied (s : HeaderState) (h : SignedBlockHeader) : FlatMap Name UInt32 :=
  s.producerToLastImpliedIrb.assign h.producer s.dposProposedIrreversibleBlocknum

structure Promoted (s : HeaderState) (h : SignedBlockHeader) (s' : HeaderState) : Prop where
  active : s'.activeSchedule = s.pendingSchedule
  nonempty : s.pendingSchedule.producers ≠ []
  pending : s'.pendingSchedule.producers = []
  lastProduced : s'.producerToLastProduced = (FlatMap.ofKeys (fun producer =>
    ((s.produced h).find producer).getD s'.dposIrreversibleBlocknum)
      s.pendingSchedule.producers).assign h.producer (s.blockNum + 1)
  lastImplied : s'.producerToLastImpliedIrb = FlatMap.ofKeys (fun producer =>
    ((s.implied h).find producer).getD s'.dposIrreversibleBlocknum) s.pendingSchedule.producers

/-- The block leaves the active schedule; it may bring a pending one. -/
structure Continued (s : HeaderState) (h : SignedBlockHeader) (s' : HeaderState) : Prop where
  active : s'.activeSchedule = s.activeSchedule
  waits : s.pendingSchedule.producers ≠ [] → s'.dposIrreversibleBlocknum < s.pendingScheduleLibNum
  pending : h.newProducers = none ∧ s'.pendingSchedule = s.pendingSchedule ∨
    h.newProducers = some s'.pendingSchedule
  lastProduced : s'.producerToLastProduced = s.produced h
  lastImplied : s'.producerToLastImpliedIrb = s.implied h

structure Step (s : HeaderState) (h : SignedBlockHeader) (s' : HeaderState) : Prop where
  later : s.timestamp < h.timestamp
  timestamp : s'.timestamp = h.timestamp
  scheduled : s.getScheduledProducer h.timestamp = some h.producer
  anew : s.confirmsAnew (s.blockNum + 1) h
  blockNum : s'.blockNum = s.blockNum + 1
  producer : s'.producer = h.producer
  confirmed : s'.confirmed = h.confirmed
  counts : s'.confirmCount = (s.confirmedCounts h).2
  proposed : s'.dposProposedIrreversibleBlocknum =
    match (s.confirmedCounts h).1 with
    | none => s.dposProposedIrreversibleBlocknum
    | some distance => s.blockNum + 1 - UInt32.ofNat distance
  irreversible : s'.dposIrreversibleBlocknum = calcDposLastIrreversible (s.implied h)
  schedules : s.Promoted h s' ∨ s.Continued h s'

def beforePromotion (s : HeaderState) (h : SignedBlockHeader) : HeaderState where
  blockNum := s.blockNum + 1
  timestamp := h.timestamp
  producer := h.producer
  confirmed := h.confirmed
  dposProposedIrreversibleBlocknum :=
    match (s.confirmedCounts h).1 with
    | none => s.dposProposedIrreversibleBlocknum
    | some distance => s.blockNum + 1 - UInt32.ofNat distance
  dposIrreversibleBlocknum := calcDposLastIrreversible (s.implied h)
  pendingScheduleLibNum := s.pendingScheduleLibNum
  pendingSchedule := s.pendingSchedule
  activeSchedule := s.activeSchedule
  producerToLastProduced := s.produced h
  producerToLastImpliedIrb := s.implied h
  confirmCount := (s.confirmedCounts h).2

variable {s' : HeaderState} {h : SignedBlockHeader}

theorem next_eq_ok {s : HeaderState} (hnext : s.next h = .ok s') :
    (s.timestamp < h.timestamp ∧ s.getScheduledProducer h.timestamp = some h.producer ∧
      s.confirmsAnew (s.blockNum + 1) h) ∧
    (s.beforePromotion h).maybePromotePending.1.applyNewProducers
      (s.beforePromotion h).maybePromotePending.2 h.newProducers = .ok s' := by
  simp only [next, ok_iff] at hnext
  obtain ⟨hslot, _, hlater, result, hresult, hproducer, _, hanew, hpromote⟩ := hnext
  simp only [generateNext, ok_iff, if_pos hslot] at hresult
  obtain ⟨_, hresult⟩ := hresult
  cases hscheduled : s.getScheduledProducer h.timestamp with
  | none =>
    rw [hscheduled] at hresult
    cases hresult
  | some =>
    rw [hscheduled] at hresult
    cases hresult
    cases hproducer
    exact ⟨⟨hlater, rfl, hanew⟩, hpromote⟩

theorem next_ok {s : HeaderState} (hnext : s.next h = .ok s') : s.Step h s' := by
  obtain ⟨⟨hlater, hscheduled, hanew⟩, hpromote⟩ := next_eq_ok hnext
  unfold maybePromotePending at hpromote
  split_ifs at hpromote with hready
  · cases hnew : h.newProducers with
    | none =>
      rw [hnew] at hpromote
      cases hpromote
      exact ⟨hlater, rfl, hscheduled, hanew, rfl, rfl, rfl, rfl, rfl, rfl,
        .inl ⟨rfl, hready.1, rfl, rfl, rfl⟩⟩
    | some =>
      rw [hnew] at hpromote
      simp only [applyNewProducers, ok_iff] at hpromote
      obtain ⟨⟨hfalse, _⟩, _⟩ := hpromote
  · have hnot : s.pendingSchedule.producers ≠ [] →
        calcDposLastIrreversible (s.implied h) < s.pendingScheduleLibNum := by
      intro hne
      exact UInt32.not_le.mp fun hle => hready ⟨hne, hle⟩
    cases hnew : h.newProducers with
    | none =>
      rw [hnew] at hpromote
      cases hpromote
      exact ⟨hlater, rfl, hscheduled, hanew, rfl, rfl, rfl, rfl, rfl, rfl,
        .inr ⟨rfl, hnot, .inl ⟨hnew, rfl⟩, rfl, rfl⟩⟩
    | some =>
      rw [hnew] at hpromote
      simp only [applyNewProducers, setNewProducers, ok_iff] at hpromote
      obtain ⟨_, _, _, _, rfl⟩ := hpromote
      exact ⟨hlater, rfl, hscheduled, hanew, rfl, rfl, rfl, rfl, rfl, rfl,
        .inr ⟨rfl, hnot, .inr hnew, rfl, rfl⟩⟩

end HeaderState

/-! ## 4. Chains -/

/-- The blocks after a genesis state, newest first, and the state of the last one.  Every
    header is one that `allowed` admits. -/
inductive Chain (allowed : HeaderState → SignedBlockHeader → Prop) (g : HeaderState) :
    List HeaderState → HeaderState → Prop where
  | genesis : Chain allowed g [] g
  | block {blocks : List HeaderState} {s s' : HeaderState} (h : SignedBlockHeader) :
      Chain allowed g blocks s → allowed s h → s.next h = .ok s' →
      Chain allowed g (s' :: blocks) s'

/-- Extend a chain by headers: its blocks and its last state. -/
def replay (allowed : HeaderState → SignedBlockHeader → Prop)
    [∀ s h, Decidable (allowed s h)] :
    List SignedBlockHeader → List HeaderState → HeaderState →
      Checked (List HeaderState × HeaderState)
  | [], blocks, s => .ok (blocks, s)
  | h :: headers, blocks, s => do
      ensure (allowed s h) "not allowed"
      let s' ← s.next h
      replay allowed headers (s' :: blocks) s'

variable {s g : HeaderState} {blocks : List HeaderState}

theorem Chain.of_replay {allowed : HeaderState → SignedBlockHeader → Prop}
    [∀ s h, Decidable (allowed s h)] {headers : List SignedBlockHeader}
    {out : List HeaderState × HeaderState} (hchain : Chain allowed g blocks s)
    (hout : replay allowed headers blocks s = .ok out) : Chain allowed g out.1 out.2 := by
  induction headers generalizing blocks s with
  | nil =>
    cases hout
    exact hchain
  | cons h _ ih =>
    simp only [replay, ok_iff] at hout
    obtain ⟨hallowed, s', hnext, hrest⟩ := hout
    exact ih (.block h hchain hallowed hnext) hrest

def HeaderState.Late (s : HeaderState) : Prop := s.timestamp.toNat = 2 ^ 32 - 1

def HeaderState.Early (s : HeaderState) : Prop := s.blockNum.toNat ≤ s.timestamp.toNat + 1

variable {s' : HeaderState} {h : SignedBlockHeader}

theorem HeaderState.Step.not_late (hstep : s.Step h s') : ¬ s.Late := by
  intro hlate
  have hlater := UInt32.lt_iff_toNat_lt.mp hstep.later
  have hbound := h.timestamp.toNat_lt
  unfold HeaderState.Late at hlate
  omega

/-- The block number grows by one, except perhaps in the last slot there is. -/
theorem HeaderState.Step.number (hstep : s.Step h s') (hearly : s.Early) :
    s'.blockNum.toNat = s.blockNum.toNat + 1 ∧ s'.Early ∨ s.blockNum.toNat + 1 = 2 ^ 32 ∧ s'.Late := by
  have hlater := UInt32.lt_iff_toNat_lt.mp hstep.later
  have hbound := h.timestamp.toNat_lt
  have hnum := s.blockNum.toNat_lt
  unfold HeaderState.Early HeaderState.Late at *
  rw [hstep.blockNum, hstep.timestamp, UInt32.toNat_add]
  by_cases hwrap : s.blockNum.toNat + 1 = 2 ^ 32
  · right
    omega
  · left
    rw [UInt32.toNat_one, Nat.mod_eq_of_lt (by omega)]
    omega

/-- What every block keeps, a chain keeps, as long as there are slots. -/
theorem Chain.invariant {allowed : HeaderState → SignedBlockHeader → Prop}
    {I : List HeaderState → HeaderState → Prop} (hstart : I [] g) (hearly : g.Early)
    (hstep : ∀ blocks s s' h, I blocks s → allowed s h → s.Step h s' →
      s'.blockNum.toNat = s.blockNum.toNat + 1 → I (s' :: blocks) s')
    (hchain : Chain allowed g blocks s) : I blocks s ∧ s.Early ∨ s.Late := by
  induction hchain with
  | genesis => exact .inl ⟨hstart, hearly⟩
  | block h _ hallowed hnext ih =>
    have hblock := HeaderState.next_ok hnext
    rcases ih with ⟨hI, hearly'⟩ | hlate
    · rcases hblock.number hearly' with ⟨hnum, hearly''⟩ | ⟨_, hlate⟩
      · exact .inl ⟨hstep _ _ _ h hI hallowed hblock hnum, hearly''⟩
      · exact .inr hlate
    · exact absurd hlate hblock.not_late

/-! ## 5. Counting confirmations -/

namespace HeaderState

variable {counts : List UInt8} {d n : Nat}

/-- A count that remains was one of the counts; the first `n` have gone down by one. -/
theorem confirmBlocks_getElem {c' : UInt8} (h : (confirmBlocks n counts).2[d]? = some c') :
    ∃ c, counts[d]? = some c ∧ (d < n → c' = c - 1 ∧ c - 1 ≠ 0) ∧ (n ≤ d → c' = c) := by
  induction n, counts using confirmBlocks.induct generalizing d with
  | case1 => exact ⟨c', h, fun hd => absurd hd (Nat.not_lt_zero _), fun _ => rfl⟩
  | case2 => cases h
  | case3 _ _ _ hzero =>
    rw [confirmBlocks, if_pos hzero] at h
    cases h
  | case4 _ count _ hne ih =>
    rw [confirmBlocks, if_neg hne] at h
    cases d with
    | zero =>
      cases h
      exact ⟨count, rfl, fun _ => ⟨rfl, hne⟩, fun hn => absurd hn (Nat.not_succ_le_zero _)⟩
    | succ =>
      obtain ⟨c, hc, hlt, hge⟩ := ih h
      exact ⟨c, hc, fun hd => hlt (Nat.lt_of_succ_lt_succ hd),
        fun hn => hge (Nat.le_of_succ_le_succ hn)⟩

/-- The count that reached zero was one of the first `n`, and was one; the counts of the newer
    blocks remain. -/
theorem confirmBlocks_some (h : (confirmBlocks n counts).1 = some d) :
    d < n ∧ (∃ c, counts[d]? = some c ∧ c - 1 = 0) ∧ (confirmBlocks n counts).2.length = d := by
  induction n, counts using confirmBlocks.induct generalizing d with
  | case1 | case2 => cases h
  | case3 n count _ hzero =>
    rw [confirmBlocks, if_pos hzero] at h ⊢
    cases h
    exact ⟨Nat.succ_pos n, ⟨count, rfl, hzero⟩, rfl⟩
  | case4 _ _ _ hne ih =>
    rw [confirmBlocks, if_neg hne] at h ⊢
    obtain ⟨d', hd', rfl⟩ := Option.map_eq_some_iff.mp h
    obtain ⟨hlt, hcount, hlength⟩ := ih hd'
    exact ⟨Nat.succ_lt_succ hlt, hcount, congrArg (· + 1) hlength⟩

theorem confirmBlocks_length_le (n : Nat) (counts : List UInt8) :
    (confirmBlocks n counts).2.length ≤ counts.length := by
  induction n, counts using confirmBlocks.induct with
  | case1 | case2 => exact Nat.le_refl _
  | case3 _ _ _ hzero =>
    rw [confirmBlocks, if_pos hzero]
    exact Nat.zero_le _
  | case4 _ _ _ hne ih =>
    rw [confirmBlocks, if_neg hne]
    exact Nat.succ_le_succ ih

variable {c : UInt8}

theorem growConfirmCount_getElem {required : UInt8}
    (h : (growConfirmCount counts required)[d]? = some c) :
    d = 0 ∧ c = required ∨ ∃ e, d = e + 1 ∧ counts[e]? = some c := by
  have hcons : ∀ l : List UInt8, (∀ (e : Nat), l[e]? = some c → counts[e]? = some c) →
      (required :: l)[d]? = some c →
      d = 0 ∧ c = required ∨ ∃ e, d = e + 1 ∧ counts[e]? = some c := by
    intro l hl hd
    cases d with
    | zero => exact .inl ⟨rfl, (Option.some.inj hd).symm⟩
    | succ e => exact .inr ⟨e, rfl, hl e hd⟩
  unfold growConfirmCount at h
  split at h
  · exact hcons counts (fun _ he => he) h
  · refine hcons counts.dropLast (fun e he => ?_) h
    rw [List.getElem?_dropLast] at he
    split at he
    · exact he
    · cases he

theorem growConfirmCount_length_le (counts : List UInt8) (required : UInt8) :
    (growConfirmCount counts required).length ≤ counts.length + 1 := by
  unfold growConfirmCount
  split
  · exact Nat.le_refl _
  · rw [List.length_cons, List.length_dropLast]
    omega

theorem count_eq_succ (h : c ≠ 0) : c.toNat = (c - 1).toNat + 1 := by
  have hpos : c.toNat ≠ 0 := fun hzero => h (UInt8.toNat_inj.mp hzero)
  have hle : (1 : UInt8) ≤ c := UInt8.le_iff_toNat_le.mpr (Nat.one_le_iff_ne_zero.mpr hpos)
  rw [UInt8.toNat_sub_of_le _ _ hle, UInt8.toNat_one]
  omega

theorem requiredConfs_toNat {schedule : ProducerSchedule}
    (h : schedule.producers.length ≤ maxProducers) :
    (requiredConfs schedule).toNat = schedule.producers.length * 2 / 3 + 1 := by
  unfold maxProducers at h
  rw [requiredConfs, UInt8.toNat_ofNat']
  exact Nat.mod_eq_of_lt (by omega)

theorem confirmedCounts_length_le (s : HeaderState) (h : SignedBlockHeader) :
    (s.confirmedCounts h).2.length ≤ s.confirmCount.length + 1 :=
  Nat.le_trans (confirmBlocks_length_le _ _) (growConfirmCount_length_le _ _)

variable {s : HeaderState} {h : SignedBlockHeader}

/-- The block that has its confirmations is one of those that are counted, and the counts that
    remain are those of the blocks after it. -/
theorem confirmedCounts_some (hd : (s.confirmedCounts h).1 = some d) :
    d ≤ s.confirmCount.length ∧ (s.confirmedCounts h).2.length = d := by
  obtain ⟨_, ⟨c, hc, _⟩, hremain⟩ := confirmBlocks_some hd
  refine ⟨Nat.le_of_lt_succ ?_, hremain⟩
  exact Nat.lt_of_lt_of_le (List.getElem?_eq_some_iff.mp hc).1 (growConfirmCount_length_le _ _)

variable {s' : HeaderState}

theorem Step.proposed_of_none (hstep : s.Step h s') (hd : (s.confirmedCounts h).1 = none) :
    s'.dposProposedIrreversibleBlocknum = s.dposProposedIrreversibleBlocknum := by
  rw [hstep.proposed, hd]

theorem Step.proposed_of_some (hstep : s.Step h s') (hd : (s.confirmedCounts h).1 = some d) :
    s'.dposProposedIrreversibleBlocknum = s'.blockNum - UInt32.ofNat d := by
  rw [hstep.proposed, hd, hstep.blockNum]

/-- With no more counts than blocks, the subtraction is exact. -/
theorem Step.proposed_toNat (hstep : s.Step h s') (hnum : s'.blockNum.toNat = s.blockNum.toNat + 1)
    (hcounts : s.confirmCount.length ≤ s.blockNum.toNat) (hd : (s.confirmedCounts h).1 = some d) :
    s'.dposProposedIrreversibleBlocknum.toNat = s.blockNum.toNat + 1 - d := by
  have hle : d ≤ s.blockNum.toNat := Nat.le_trans (confirmedCounts_some hd).1 hcounts
  have hsmall : (UInt32.ofNat d).toNat = d :=
    UInt32.toNat_ofNat_of_lt' (Nat.lt_of_le_of_lt hle s.blockNum.toNat_lt)
  rw [hstep.proposed_of_some hd, UInt32.toNat_sub_of_le, hsmall, hnum]
  rw [UInt32.le_iff_toNat_le, hsmall, hnum]
  exact Nat.le_succ_of_le hle

end HeaderState

end YottaChain.Headers
