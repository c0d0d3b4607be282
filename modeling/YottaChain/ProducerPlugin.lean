/-
  **The producer plugin** (`producer_plugin.cpp`): when a producer of this node makes its
  next block, and the watermarks that keep it from signing two blocks of one number.

  A watermark is the number of the last block that the node made for a producer.
  `start_block` makes no block for a producer whose mark is not below the next number, so
  along a run the numbers rise as long as every signed block leaves its mark and no mark
  falls.  `produce_block` never lowers a mark, but it writes one only after the commit of
  the signed block; `on_block` writes the number of the block it is given to the mark of
  every producer that the next block installs, whatever the mark was.

  Signing keys are left out: `canSign` says whether the node has the key under which a
  schedule lists a producer, and a key is taken to belong to one producer.
-/
import YottaChain.BlockHeaderState
import Mathlib.Data.Nat.ModEq

namespace YottaChain.Production

open Checked Headers List

/-! ## 1. The next slot of a producer -/

def currentBlockNum (hbs : HeaderState) (pending : Bool) : UInt32 :=
  if pending then hbs.blockNum + 1 else hbs.blockNum

def minimumOffset (hbs : HeaderState) (pending : Bool) (marks : Table Name UInt32)
    (producerName : Name) : UInt32 :=
  match marks.find producerName with
  | none => 1
  | some watermark =>
      let blockNum := currentBlockNum hbs pending
      if blockNum < watermark then watermark - blockNum + 1 else 1

/-- `calculate_next_block_time`; the distance between the producers is a `size_t`. -/
def calculateNextBlockTime (hbs : HeaderState) (pending : Bool) (marks : Table Name UInt32)
    (producerName : Name) (slot : UInt32) : Option UInt64 :=
  let schedule := hbs.activeSchedule.producers
  match schedule.findIdx? (· == producerName) with
  | none => none
  | some producerIndex =>
      let minimumSlot := slot + minimumOffset hbs pending marks producerName
      let minimumIndex :=
        minimumSlot.toNat % (schedule.length * producerRepetitions) / producerRepetitions
      if producerIndex = minimumIndex then some (blockTime minimumSlot)
      else
        let distance := UInt64.ofNat producerIndex - UInt64.ofNat minimumIndex
        -- check for unsigned underflow
        let distance := if UInt64.ofNat producerIndex < distance
          then distance + UInt64.ofNat schedule.length else distance
        let first := minimumSlot - minimumSlot % UInt32.ofNat producerRepetitions
        some (blockTime
          (first.toUInt64 + distance * UInt64.ofNat producerRepetitions).toUInt32)

def slotsToWait (hbs : HeaderState) (pending : Bool) (marks : Table Name UInt32)
    (producerName : Name) : Nat :=
  let b := (currentBlockNum hbs pending).toNat
  match marks.find producerName with
  | none => 1
  | some w => if b < w.toNat then w.toNat - b + 1 else 1

/-- The turns between the producer of a slot and the `i`-th one, of `n` producers. -/
def turnsUntil (n i slot : Nat) : Nat := (i + n - slot / producerRepetitions % n) % n

section Turns

variable {n i m : Nat}

theorem turnsUntil_lt (hi : i < n) : turnsUntil n i m < n := Nat.mod_lt _ (by omega)

theorem turn_reached (hi : i < n) : (m / producerRepetitions + turnsUntil n i m) % n = i := by
  have hlt : m / producerRepetitions % n < n := Nat.mod_lt _ (by omega)
  rw [turnsUntil, Nat.add_mod_mod, ← Nat.mod_add_mod,
    show m / producerRepetitions % n + (i + n - m / producerRepetitions % n) = i + n by omega,
    Nat.add_mod_right, Nat.mod_eq_of_lt hi]

/-- No earlier turn is the `i`-th producer's. -/
theorem turnsUntil_le (hi : i < n) {e : Nat} (h : (m / producerRepetitions + e) % n = i) :
    turnsUntil n i m ≤ e := by
  by_contra hlt
  have hmod : e ≡ turnsUntil n i m [MOD n] :=
    Nat.ModEq.add_left_cancel' (m / producerRepetitions) (h.trans (turn_reached hi).symm)
  have heq := hmod.eq_of_lt_of_lt (lt_trans (by omega) (turnsUntil_lt (m := m) hi))
    (turnsUntil_lt hi)
  omega

end Turns

theorem index_eq (slot n : Nat) :
    slot % (n * producerRepetitions) / producerRepetitions = slot / producerRepetitions % n :=
  Nat.mod_mul_left_div_self slot producerRepetitions n

variable {p : Name} {i : Nat}

theorem getScheduledProducer_eq_some_iff {s : HeaderState}
    (hnodup : s.activeSchedule.producers.Nodup) (hget : s.activeSchedule.producers[i]? = some p)
    (slot : UInt32) :
    s.getScheduledProducer slot = some p ↔
      slot.toNat / producerRepetitions % s.activeSchedule.producers.length = i := by
  obtain ⟨hi, rfl⟩ := List.getElem?_eq_some_iff.mp hget
  have hlt := Nat.mod_lt (slot.toNat / producerRepetitions) (Nat.zero_lt_of_lt hi)
  simp only [HeaderState.getScheduledProducer, index_eq, getElem?_eq_getElem hlt,
    Option.some.injEq, hnodup.getElem_inj_iff]

theorem toNat_distance {n j : Nat} (hi : i < n) (hj : j < n) (hsmall : (i + n - j) % n < 2 ^ 32)
    (hj32 : j < 2 ^ 32) :
    (if UInt64.ofNat i < UInt64.ofNat i - UInt64.ofNat j
      then UInt64.ofNat i - UInt64.ofNat j + UInt64.ofNat n
      else UInt64.ofNat i - UInt64.ofNat j).toNat = (i + n - j) % n := by
  have hlt_iff : UInt64.ofNat i < UInt64.ofNat i - UInt64.ofNat j ↔
      (UInt64.ofNat i).toNat < (UInt64.ofNat i - UInt64.ofNat j).toNat := UInt64.lt_iff_toNat_lt
  rcases Nat.lt_or_ge i j with hij | hij
  · have hmod : (i + n - j) % n = i + n - j := Nat.mod_eq_of_lt (by omega)
    rw [hmod] at hsmall ⊢
    rw [if_pos (hlt_iff.mpr (by simp only [UInt64.toNat_sub, UInt64.toNat_ofNat']; omega))]
    simp only [UInt64.toNat_add, UInt64.toNat_sub, UInt64.toNat_ofNat']
    omega
  · have hmod : (i + n - j) % n = i - j := by
      rw [show i + n - j = (i - j) + n by omega, Nat.add_mod_right, Nat.mod_eq_of_lt (by omega)]
    rw [hmod] at hsmall ⊢
    rw [if_neg (fun h => absurd (hlt_iff.mp h)
      (by simp only [UInt64.toNat_sub, UInt64.toNat_ofNat']; omega))]
    simp only [UInt64.toNat_sub, UInt64.toNat_ofNat']
    omega

theorem toNat_minimumOffset {hbs : HeaderState} {pending : Bool} {marks : Table Name UInt32}
    (h : slotsToWait hbs pending marks p < 2 ^ 32) :
    (minimumOffset hbs pending marks p).toNat = slotsToWait hbs pending marks p := by
  revert h
  unfold slotsToWait minimumOffset
  rcases marks.find p with _ | w
  · intro _
    rfl
  · simp only [UInt32.lt_iff_toNat_lt]
    split
    · intro h
      simp only [UInt32.toNat_add, UInt32.toNat_sub, UInt32.reduceToNat]
      have hw := w.toNat_lt
      omega
    · intro _
      rfl

theorem toNat_alignedSlot {slot : UInt32} {distance : UInt64} {m d : Nat}
    (hslot : slot.toNat = m) (hd : distance.toNat = d)
    (hroom : m - m % producerRepetitions + producerRepetitions * d < 2 ^ 32) :
    ((slot - slot % UInt32.ofNat producerRepetitions).toUInt64 +
      distance * UInt64.ofNat producerRepetitions).toUInt32.toNat =
      producerRepetitions * (m / producerRepetitions + d) := by
  have h64 : (UInt64.ofNat producerRepetitions).toNat = 12 := rfl
  have h32 : (UInt32.ofNat producerRepetitions).toNat = 12 := rfl
  have hlt := slot.toNat_lt
  simp only [UInt64.toNat_toUInt32, UInt64.toNat_add, UInt64.toNat_mul, UInt32.toNat_toUInt64,
    UInt32.toNat_sub, UInt32.toNat_mod, hslot, hd, h64, h32]
  simp only [producerRepetitions] at hroom ⊢
  omega

/-- The producer wakes up for the first of its slots that its watermark leaves it, as long as
    the sums of slots stay within 32 bits. -/
theorem wakes_for_earliest_slot (hbs : HeaderState) (pending : Bool) (marks : Table Name UInt32)
    (slot : UInt32) (p : Name) (hp : p ∈ hbs.activeSchedule.producers)
    (hnodup : hbs.activeSchedule.producers.Nodup)
    (hwait : slot.toNat + slotsToWait hbs pending marks p < 2 ^ 32)
    (hturn :
      let m := slot.toNat + slotsToWait hbs pending marks p
      m - m % producerRepetitions + producerRepetitions *
        turnsUntil hbs.activeSchedule.producers.length
          (hbs.activeSchedule.producers.idxOf p) m < 2 ^ 32) :
    ∃ next : UInt32,
      calculateNextBlockTime hbs pending marks p slot = some (blockTime next) ∧
      IsLeast {s : UInt32 | slot.toNat + slotsToWait hbs pending marks p ≤ s.toNat ∧
        hbs.getScheduledProducer s = some p} next := by
  have hfind : hbs.activeSchedule.producers.findIdx? (· == p) =
      some (hbs.activeSchedule.producers.idxOf p) :=
    findIdx?_eq_some_iff_findIdx_eq.mpr ⟨idxOf_lt_length_of_mem hp, rfl⟩
  have hmin : (slot + minimumOffset hbs pending marks p).toNat =
      slot.toNat + slotsToWait hbs pending marks p := by
    rw [UInt32.toNat_add, toNat_minimumOffset (by omega), Nat.mod_eq_of_lt hwait]
  have hi := idxOf_lt_length_of_mem hp
  have hscheduled := getScheduledProducer_eq_some_iff hnodup (getElem?_idxOf hp)
  generalize hbs.activeSchedule.producers.idxOf p = i at *
  generalize slot.toNat + slotsToWait hbs pending marks p = m at *
  have hreached := turn_reached (m := m) hi
  -- every slot of the producer from `m` on is that many turns away
  have hlower : ∀ s : UInt32, m ≤ s.toNat → hbs.getScheduledProducer s = some p →
      m / producerRepetitions + turnsUntil hbs.activeSchedule.producers.length i m ≤
        s.toNat / producerRepetitions := by
    intro s hle hs
    have hdiv : m / producerRepetitions ≤ s.toNat / producerRepetitions := Nat.div_le_div_right hle
    have hturns := turnsUntil_le (m := m) hi
      (e := s.toNat / producerRepetitions - m / producerRepetitions)
      (by rw [Nat.add_sub_cancel' hdiv]; exact (hscheduled s).mp hs)
    omega
  simp only [calculateNextBlockTime, hfind, hmin, index_eq]
  split
  · next heq =>
    refine ⟨slot + minimumOffset hbs pending marks p, rfl, ⟨hmin.ge, ?_⟩, ?_⟩
    · rw [hscheduled, hmin, ← heq]
    · intro s hs
      rw [UInt32.le_iff_toNat_le, hmin]
      exact hs.1
  · next hne =>
    have hj : m / producerRepetitions % hbs.activeSchedule.producers.length <
        hbs.activeSchedule.producers.length := Nat.mod_lt _ (by omega)
    have hdistance := toNat_distance hi hj
      (show turnsUntil hbs.activeSchedule.producers.length i m < 2 ^ 32 by
        simp only [producerRepetitions] at hturn
        omega)
      (lt_of_le_of_lt ((Nat.mod_le _ _).trans (Nat.div_le_self _ _)) hwait)
    change _ = turnsUntil hbs.activeSchedule.producers.length i m at hdistance
    have hpos : turnsUntil hbs.activeSchedule.producers.length i m ≠ 0 := by
      intro hzero
      rw [hzero, Nat.add_zero] at hreached
      exact hne hreached.symm
    refine ⟨_, rfl, ?_⟩
    have hval := toNat_alignedSlot hmin hdistance hturn
    refine ⟨⟨?_, ?_⟩, ?_⟩
    · rw [hval]
      simp only [producerRepetitions] at hpos ⊢
      omega
    · rw [hscheduled, hval, Nat.mul_div_cancel_left _ (by decide)]
      exact hreached
    · intro s hs
      rw [UInt32.le_iff_toNat_le, hval]
      exact (Nat.mul_le_mul_left _ (hlower s hs.1 hs.2)).trans (Nat.mul_div_le _ _)

/-- The head has number 5 and the second of two producers the mark 8. -/
theorem wakes_for_earliest_slot_sample :
    let hbs := { genesis ⟨0, [1, 2]⟩ 0 with blockNum := 5 }
    ∃ next : UInt32,
      calculateNextBlockTime hbs false ((∅ : Table Name UInt32).put 2 8) 2 0 =
        some (blockTime next) ∧
      IsLeast {s : UInt32 | 0 + 4 ≤ s.toNat ∧ hbs.getScheduledProducer s = some 2} next :=
  wakes_for_earliest_slot { genesis ⟨0, [1, 2]⟩ 0 with blockNum := 5 } false
    ((∅ : Table Name UInt32).put 2 8) 0 2 (by decide) (by decide) (by decide +kernel)
    (by decide +kernel)

/-! ## 2. Watermarks -/

structure Config where
  /-- `_producers`: the producers of this node. -/
  producers : List Name
  startTime : UInt64
  canSign : HeaderState → Name → Bool

structure Plugin where
  marks : Table Name UInt32
  lastSignedBlockTime : UInt64
  lastSignedBlockNum : UInt32
  /-- The head and the pending block of the controller. -/
  head : HeaderState
  pending : Option HeaderState
  /-- `_pending_block_mode` is `producing`. -/
  producing : Bool
  /-- The blocks signed so far, by producer and number. -/
  signed : List (Name × UInt32)

def Plugin.initial (head : HeaderState) : Plugin := ⟨∅, 0, 0, head, none, false, []⟩

/-- The producers of this node that the block after `bsp` installs.  If that block can not be
    made, the exception ends `on_block` before a mark is written. -/
def newProducers (c : Config) (bsp : HeaderState) : List Name :=
  if 4294967295 - bsp.timestamp < 1 then [] else
  match bsp.generateNext (bsp.timestamp + 1) with
  | .error _ => []
  | .ok next =>
      let newBs := next.maybePromotePending
      if newBs.2 ∧ bsp.activeSchedule.version ≠ newBs.1.activeSchedule.version then
        newBs.1.activeSchedule.producers.filter fun p =>
          p ∈ c.producers ∧ p ∉ bsp.activeSchedule.producers
      else []

def setMarks (marks : Table Name UInt32) (hbn : UInt32) (newProducers : List Name) :
    Table Name UInt32 :=
  newProducers.foldl (fun marks p => marks.put p hbn) marks

/-- How far `produce_block` comes. -/
inductive Commit where
  /-- The block is not signed. -/
  | unsigned
  /-- The block is signed and `commit_block` throws; it may have become the head by then. -/
  | thrown (isHead : Bool)
  | committed

namespace Plugin

/-- `on_block` looks only at blocks after those it has signed. -/
def ignores (c : Config) (s : Plugin) (bsp : HeaderState) : Bool :=
  blockTime bsp.timestamp ≤ s.lastSignedBlockTime ∨ blockTime bsp.timestamp ≤ c.startTime ∨
    bsp.blockNum ≤ s.lastSignedBlockNum

def confirms (c : Config) (bsp : HeaderState) : Bool :=
  c.producers.any fun p =>
    p ∈ bsp.activeSchedule.producers ∧ p ≠ bsp.producer ∧ c.canSign bsp p

def onBlock (c : Config) (s : Plugin) (bsp : HeaderState) : Plugin :=
  if s.ignores c bsp then s
  else
    { s with
      lastSignedBlockTime :=
        if confirms c bsp then blockTime bsp.timestamp else s.lastSignedBlockTime
      lastSignedBlockNum := if confirms c bsp then bsp.blockNum else s.lastSignedBlockNum
      marks := setMarks s.marks bsp.blockNum (newProducers c bsp) }

def excluded (s : Plugin) (producer : Name) : Bool :=
  (s.marks.find producer).any fun watermark => s.head.blockNum + 1 ≤ watermark

/-- `start_block`.  Production is `enabled` unless it is switched off or paused or the
    irreversible block is too old; a node that does not produce waits if its head is `stale`.
    The controller starts no block, or one with the number, time and producer of
    `generate_next`; what it says of confirmations and schedules is given by `started`. -/
def startBlock (c : Config) (s : Plugin) (slot : UInt32) (enabled stale : Bool)
    (started : Option HeaderState) : Plugin :=
  match s.head.getScheduledProducer slot, s.head.generateNext slot with
  | some scheduled, .ok next =>
      let producing := enabled && decide (scheduled ∈ c.producers) && c.canSign s.head scheduled &&
        !s.excluded scheduled
      if !producing && stale then { s with producing := false }
      else
        { s with
          producing := producing && decide (next.producer = scheduled)
          pending := started.map fun rest =>
            { rest with
              blockNum := next.blockNum, timestamp := next.timestamp, producer := next.producer } }
  | _, _ => { s with pending := none, producing := false }

/-- `produce_block`, with the handler of `maybe_produce_block`, which aborts the block.  The
    commit hands the block to `on_block`; the mark is written after it. -/
def produceBlock (c : Config) (s : Plugin) (outcome : Commit) : Plugin :=
  match s.producing, s.pending, outcome with
  | true, some pbs, .committed =>
      let s := { s with head := pbs, pending := none }.onBlock c pbs
      { s with
        marks := s.marks.put pbs.producer pbs.blockNum
        signed := s.signed ++ [(pbs.producer, pbs.blockNum)] }
  | true, some pbs, .thrown isHead =>
      { s with
        head := if isHead then pbs else s.head
        pending := none
        signed := s.signed ++ [(pbs.producer, pbs.blockNum)] }
  | _, _, _ => { s with pending := none }

end Plugin

inductive Event where
  /-- A block is applied, be it of a fork that is switched to, and becomes the head. -/
  | accepted (bsp : HeaderState)
  /-- Blocks are popped. -/
  | popped (head : HeaderState)
  | startBlock (slot : UInt32) (enabled stale : Bool) (started : Option HeaderState)
  | produceBlock (outcome : Commit)

def Plugin.apply (c : Config) (s : Plugin) : Event → Plugin
  | .accepted bsp => { s with head := bsp, pending := none }.onBlock c bsp
  | .popped head => { s with head := head, pending := none }
  | .startBlock slot enabled stale started => s.startBlock c slot enabled stale started
  | .produceBlock outcome => s.produceBlock c outcome

def InstallsBelow (c : Config) (s : Plugin) (bsp : HeaderState) : Prop :=
  s.ignores c bsp = false → ∀ p ∈ newProducers c bsp, ∀ w ∈ s.marks.find p, w ≤ bsp.blockNum

/-- Whatever `on_block` is given in the step installs only producers without higher marks, and
    no commit throws after the block has been signed. -/
def Event.Safe (c : Config) (s : Plugin) : Event → Prop
  | .accepted bsp => InstallsBelow c s bsp
  | .produceBlock .committed => ∀ pbs ∈ s.pending, InstallsBelow c s pbs
  | .produceBlock (.thrown _) => s.producing = false ∨ s.pending = none
  | _ => True

instance (c : Config) (s : Plugin) (bsp : HeaderState) : Decidable (InstallsBelow c s bsp) :=
  -- the marks and the producers are looked through one by one, not all numbers and names
  have (p : Name) : Decidable (∀ w ∈ s.marks.find p, w ≤ bsp.blockNum) :=
    Option.decidableForallMem (s.marks.find p)
  have : Decidable (∀ p ∈ newProducers c bsp, ∀ w ∈ s.marks.find p, w ≤ bsp.blockNum) :=
    List.decidableBAll _ _
  inferInstanceAs (Decidable (s.ignores c bsp = false → _))

instance (c : Config) (s : Plugin) : (e : Event) → Decidable (e.Safe c s)
  | .accepted bsp => inferInstanceAs (Decidable (InstallsBelow c s bsp))
  | .popped _ => inferInstanceAs (Decidable True)
  | .startBlock _ _ _ _ => inferInstanceAs (Decidable True)
  | .produceBlock .unsigned => inferInstanceAs (Decidable True)
  | .produceBlock (.thrown _) =>
      have : Decidable (s.pending = none) := decidable_of_iff _ Option.isNone_iff_eq_none
      inferInstanceAs (Decidable (s.producing = false ∨ s.pending = none))
  | .produceBlock .committed =>
      inferInstanceAs (Decidable (∀ pbs ∈ s.pending, InstallsBelow c s pbs))

def SafeStep (c : Config) (s s' : Plugin) : Prop := ∃ e : Event, e.Safe c s ∧ s' = s.apply c e

def SafeRun (c : Config) : Plugin → List Event → Prop
  | _, [] => True
  | s, e :: events => e.Safe c s ∧ SafeRun c (s.apply c e) events

instance decidableSafeRun (c : Config) : (s : Plugin) → (events : List Event) →
    Decidable (SafeRun c s events)
  | _, [] => inferInstanceAs (Decidable True)
  | s, e :: events =>
      have := decidableSafeRun c (s.apply c e) events
      inferInstanceAs (Decidable (e.Safe c s ∧ SafeRun c (s.apply c e) events))

theorem SafeRun.steps {c : Config} {events : List Event} {s : Plugin}
    (h : SafeRun c s events) : Run.Steps (SafeStep c) s (events.foldl (Plugin.apply c) s) := by
  induction events generalizing s with
  | nil => exact .refl
  | cons e events ih => exact .head ⟨e, h.1, rfl⟩ (ih h.2)

/-! ## 3. Marks that only rise -/

def Rises (marks marks' : Table Name UInt32) : Prop :=
  ∀ p w, marks.find p = some w → ∃ w', marks'.find p = some w' ∧ w ≤ w'

theorem Rises.refl (marks : Table Name UInt32) : Rises marks marks :=
  fun _ w h => ⟨w, h, UInt32.le_refl w⟩

theorem Rises.trans {m1 m2 m3 : Table Name UInt32} (h : Rises m1 m2) (h' : Rises m2 m3) :
    Rises m1 m3 := by
  intro p w hw
  obtain ⟨w2, hw2, hle⟩ := h p w hw
  obtain ⟨w3, hw3, hle'⟩ := h' p w2 hw2
  exact ⟨w3, hw3, UInt32.le_trans hle hle'⟩

theorem Rises.put {marks : Table Name UInt32} {n : UInt32} (h : ∀ w ∈ marks.find p, w ≤ n) :
    Rises marks (marks.put p n) := by
  intro q w hw
  rw [Table.find_put]
  split
  · next heq => exact ⟨n, rfl, h w (heq ▸ hw)⟩
  · exact ⟨w, hw, UInt32.le_refl w⟩

theorem find_setMarks (hbn : UInt32) (l : List Name) (marks : Table Name UInt32) (p : Name) :
    (setMarks marks hbn l).find p = if p ∈ l then some hbn else marks.find p := by
  induction l generalizing marks with
  | nil => rfl
  | cons q l ih =>
    rw [setMarks, foldl_cons, ← setMarks, ih, Table.find_put]
    by_cases hl : p ∈ l <;> by_cases hq : p = q <;> simp [hl, hq]

namespace Plugin

variable {c : Config} {s : Plugin} {bsp : HeaderState}

/-- `on_block` leaves the pending block and the record of what was signed. -/
theorem onBlock_frame (c : Config) (s : Plugin) (bsp : HeaderState) :
    (s.onBlock c bsp).pending = s.pending ∧ (s.onBlock c bsp).signed = s.signed := by
  rw [onBlock]
  split <;> exact ⟨rfl, rfl⟩

theorem marks_onBlock (c : Config) (s : Plugin) (bsp : HeaderState) :
    (s.onBlock c bsp).marks = if s.ignores c bsp then s.marks
      else setMarks s.marks bsp.blockNum (newProducers c bsp) := by
  rw [onBlock]
  by_cases h : s.ignores c bsp = true
  · rw [if_pos h, if_pos h]
  · rw [if_neg h, if_neg h]

variable {w : UInt32}

theorem mark_onBlock {p : Name} (h : (s.onBlock c bsp).marks.find p = some w) :
    s.marks.find p = some w ∨ w = bsp.blockNum := by
  rw [marks_onBlock] at h
  split at h
  · exact .inl h
  · rw [find_setMarks] at h
    split at h
    · exact .inr (Option.some.inj h).symm
    · exact .inl h

theorem onBlock_rises (h : InstallsBelow c s bsp) : Rises s.marks (s.onBlock c bsp).marks := by
  intro p w hw
  rw [marks_onBlock]
  split
  · exact ⟨w, hw, UInt32.le_refl w⟩
  · next hignores =>
    rw [find_setMarks]
    split
    · next hp => exact ⟨bsp.blockNum, rfl, h (by simpa using hignores) p hp w hw⟩
    · exact ⟨w, hw, UInt32.le_refl w⟩

def Increasing (signed : List (Name × UInt32)) : Prop :=
  signed.Pairwise fun b b' => b.1 = b'.1 → b.2 < b'.2

structure Guarded (s : Plugin) : Prop where
  /-- A block that is being produced is above the mark of its producer. -/
  pending_above : s.producing = true →
    ∀ pbs ∈ s.pending, ∀ w ∈ s.marks.find pbs.producer, w < pbs.blockNum
  signed_below : ∀ b ∈ s.signed, ∃ w, s.marks.find b.1 = some w ∧ b.2 ≤ w
  increasing : Increasing s.signed

theorem guarded_initial (head : HeaderState) : (initial head).Guarded :=
  ⟨fun h => (nomatch h), fun _ h => (nomatch h), List.Pairwise.nil⟩

variable {s' : Plugin}

theorem Guarded.of_rises (h : s.Guarded) (hpending : s'.pending = none)
    (hsigned : s'.signed = s.signed) (hrises : Rises s.marks s'.marks) : s'.Guarded := by
  refine ⟨fun _ pbs hpbs => ?_, fun b hb => ?_, hsigned ▸ h.increasing⟩
  · rw [hpending] at hpbs
    cases hpbs
  · obtain ⟨w, hw, hle⟩ := h.signed_below b (hsigned ▸ hb)
    obtain ⟨w', hw', hle'⟩ := hrises b.1 w hw
    exact ⟨w', hw', UInt32.le_trans hle hle'⟩

theorem blockNum_generateNext {next : HeaderState} {slot : UInt32}
    (h : bsp.generateNext slot = .ok next) : next.blockNum = bsp.blockNum + 1 := by
  simp only [HeaderState.generateNext, bind_eq_ok] at h
  obtain ⟨_, _, hstate⟩ := h
  cases hscheduled : bsp.getScheduledProducer (if slot ≠ 0 then slot else bsp.timestamp + 1) with
  | none =>
    rw [hscheduled] at hstate
    cases hstate
  | some =>
    rw [hscheduled] at hstate
    cases hstate
    rfl

theorem lt_of_not_excluded {p : Name} (h : s.excluded p = false) (hw : s.marks.find p = some w) :
    w < s.head.blockNum + 1 := by
  simpa [excluded, hw] using h

theorem startBlock_frame (slot : UInt32) (enabled stale : Bool) (started : Option HeaderState) :
    (s.startBlock c slot enabled stale started).marks = s.marks ∧
      (s.startBlock c slot enabled stale started).signed = s.signed := by
  rw [startBlock]
  split
  · dsimp only
    split <;> exact ⟨rfl, rfl⟩
  · exact ⟨rfl, rfl⟩

theorem Guarded.startBlock (h : s.Guarded) (slot : UInt32) (enabled stale : Bool)
    (started : Option HeaderState) : (s.startBlock c slot enabled stale started).Guarded := by
  have hframe := startBlock_frame (c := c) (s := s) slot enabled stale started
  refine ⟨?_, hframe.1 ▸ hframe.2 ▸ h.signed_below, hframe.2 ▸ h.increasing⟩
  rw [hframe.1, Plugin.startBlock]
  split
  · next scheduled next _ hnext =>
    dsimp only
    split
    · intro hfalse
      cases hfalse
    · -- the started block has the number after the head's, which no mark reaches
      intro hproducing pbs hpbs w hw
      obtain ⟨rest, _, rfl⟩ := Option.map_eq_some_iff.mp hpbs
      simp only [Bool.and_eq_true, Bool.not_eq_true', decide_eq_true_eq] at hproducing
      obtain ⟨⟨_, hopen⟩, hsame⟩ := hproducing
      change s.marks.find next.producer = some w at hw
      change w < next.blockNum
      rw [blockNum_generateNext hnext]
      exact lt_of_not_excluded (hsame ▸ hopen) hw
  · intro hfalse
    cases hfalse

theorem Guarded.produceBlock (h : s.Guarded) {outcome : Commit}
    (hsafe : (Event.produceBlock outcome).Safe c s) :
    (s.produceBlock c outcome).Guarded ∧ Rises s.marks (s.produceBlock c outcome).marks := by
  unfold Plugin.produceBlock
  split
  · next pbs hproducing hpending =>
    have habove := h.pending_above hproducing pbs hpending
    generalize hs1 : { s with head := pbs, pending := none } = s1
    have hmarks : s1.marks = s.marks := by rw [← hs1]
    have hsigned : s1.signed = s.signed := by rw [← hs1]
    have hinstalls : InstallsBelow c s1 pbs := by
      rw [← hs1]
      exact hsafe pbs hpending
    obtain ⟨hnone, hframe⟩ := onBlock_frame c s1 pbs
    have hle : ∀ w ∈ (s1.onBlock c pbs).marks.find pbs.producer, w ≤ pbs.blockNum := by
      intro w hw
      rcases mark_onBlock hw with hold | rfl
      · exact UInt32.le_of_lt (habove w (hmarks ▸ hold))
      · exact UInt32.le_refl _
    have hrises : Rises s.marks ((s1.onBlock c pbs).marks.put pbs.producer pbs.blockNum) :=
      hmarks ▸ (onBlock_rises hinstalls).trans (Rises.put hle)
    refine ⟨⟨fun _ b hb => ?_, fun b hb => ?_, ?_⟩, hrises⟩
    · change b ∈ (s1.onBlock c pbs).pending at hb
      rw [hnone, ← hs1] at hb
      cases hb
    · change b ∈ (s1.onBlock c pbs).signed ++ [(pbs.producer, pbs.blockNum)] at hb
      rw [hframe, hsigned, mem_append, mem_singleton] at hb
      rcases hb with hb | rfl
      · obtain ⟨w, hw, hbw⟩ := h.signed_below b hb
        obtain ⟨w', hw', hww'⟩ := hrises b.1 w hw
        exact ⟨w', hw', UInt32.le_trans hbw hww'⟩
      · exact ⟨pbs.blockNum, Table.find_put_self _ _ _, UInt32.le_refl _⟩
    · change Increasing ((s1.onBlock c pbs).signed ++ [(pbs.producer, pbs.blockNum)])
      rw [hframe, hsigned, Increasing, pairwise_append]
      refine ⟨h.increasing, pairwise_singleton _ _, fun b hb b' hb' hsame => ?_⟩
      obtain rfl := mem_singleton.mp hb'
      obtain ⟨w, hw, hbw⟩ := h.signed_below b hb
      have hname : b.1 = pbs.producer := hsame
      exact UInt32.lt_of_le_of_lt hbw (habove w (hname ▸ hw))
  · next hproducing hpending =>
    rcases hsafe with hidle | hnone
    · exact absurd (hidle.symm.trans hproducing) Bool.false_ne_true
    · cases hnone.symm.trans hpending
  · exact ⟨h.of_rises rfl rfl (Rises.refl _), Rises.refl _⟩

theorem Guarded.step (h : s.Guarded) (hstep : SafeStep c s s') :
    s'.Guarded ∧ Rises s.marks s'.marks := by
  obtain ⟨e, hsafe, rfl⟩ := hstep
  cases e with
  | accepted bsp =>
    obtain ⟨hnone, hframe⟩ := onBlock_frame c { s with head := bsp, pending := none } bsp
    have hrises : Rises s.marks ({ s with head := bsp, pending := none }.onBlock c bsp).marks :=
      onBlock_rises (s := { s with head := bsp, pending := none }) hsafe
    exact ⟨h.of_rises hnone hframe hrises, hrises⟩
  | popped head => exact ⟨h.of_rises rfl rfl (Rises.refl _), Rises.refl _⟩
  | startBlock slot enabled stale started =>
    refine ⟨h.startBlock slot enabled stale started, ?_⟩
    change Rises s.marks (s.startBlock c slot enabled stale started).marks
    rw [(startBlock_frame slot enabled stale started).1]
    exact Rises.refl _
  | produceBlock outcome => exact h.produceBlock hsafe

end Plugin

/-- In every run in which blocks install only producers without higher marks and no commit
    throws after the block has been signed, no watermark is ever lost or lowered, and the
    numbers of the blocks signed for a producer rise. -/
theorem signs_once_per_number (c : Config) (head : HeaderState) {s s' : Plugin}
    (hrun : Run.Steps (SafeStep c) (Plugin.initial head) s)
    (hrun' : Run.Steps (SafeStep c) s s') :
    Rises s.marks s'.marks ∧ Plugin.Increasing s'.signed := by
  have hguarded : s.Guarded := Run.invariant (P := Plugin.Guarded)
    (fun _ _ h hstep => (h.step hstep).1) (Plugin.guarded_initial head) hrun
  have hboth := Run.invariant (P := fun t => t.Guarded ∧ Rises s.marks t.marks)
    (fun t t' h hstep => ⟨(h.1.step hstep).1, h.2.trans (h.1.step hstep).2⟩)
    ⟨hguarded, Rises.refl _⟩ hrun'
  exact ⟨hboth.2, hboth.1.increasing⟩

section Samples

def sampleNode : Config := ⟨[7], 0, fun _ _ => true⟩

def lastOfSchedule (blockNum timestamp : UInt32) : HeaderState :=
  { genesis ⟨0, [9]⟩ timestamp with
    blockNum := blockNum, producer := 9, pendingSchedule := ⟨1, [7]⟩ }

def firstOfSchedule (blockNum timestamp : UInt32) : HeaderState :=
  { genesis ⟨1, [7]⟩ timestamp with blockNum := blockNum, producer := 9 }

def ownBlock (timestamp : UInt32) : List Event :=
  [.startBlock timestamp true false (some (firstOfSchedule 0 0)), .produceBlock .committed]

def forkEvents (blockNum timestamp : UInt32) : List Event :=
  [.accepted (lastOfSchedule blockNum timestamp),
    .accepted (firstOfSchedule (blockNum + 1) (timestamp + 1))] ++ ownBlock (timestamp + 2)

def sampleRun (events : List Event) : Plugin :=
  events.foldl (Plugin.apply sampleNode) (Plugin.initial (genesis ⟨0, [9]⟩ 0))

/-- After the node has made the blocks 3 and 4 both are popped; it makes no second block 3. -/
theorem signs_once_per_number_sample :
    let events := forkEvents 1 1 ++ ownBlock 4 ++ [.popped (firstOfSchedule 2 2)] ++ ownBlock 5
    (sampleRun events).signed = [(7, 3), (7, 4)] ∧
      Rises (sampleRun (forkEvents 1 1)).marks (sampleRun events).marks ∧
      Plugin.Increasing (sampleRun events).signed := by
  intro events
  have hbefore : SafeRun sampleNode (sampleRun []) (forkEvents 1 1) := by decide +kernel
  have hafter : SafeRun sampleNode (sampleRun (forkEvents 1 1))
      (ownBlock 4 ++ [.popped (firstOfSchedule 2 2)] ++ ownBlock 5) := by decide +kernel
  exact ⟨by decide +kernel, signs_once_per_number sampleNode (genesis ⟨0, [9]⟩ 0) hbefore.steps
    hafter.steps⟩

/-- The node makes the blocks 3, 4 and 5 for 7 on one fork.  The fork that is switched to
    installs 7 after block 3: the mark 5 becomes 3, and the node makes another block 5.  A block
    whose commit throws leaves no mark at all, and its number is signed again. -/
theorem number_signed_twice :
    let fork := forkEvents 1 1 ++ ownBlock 4 ++ ownBlock 5
    (sampleRun fork).marks.find 7 = some 5 ∧
    (sampleRun (fork ++ [.accepted (lastOfSchedule 3 11)])).marks.find 7 = some 3 ∧
    (sampleRun (fork ++ forkEvents 3 11)).signed = [(7, 3), (7, 4), (7, 5), (7, 5)] ∧
    (sampleRun (forkEvents 1 1 ++ [.startBlock 4 true false (some (firstOfSchedule 0 0)),
      .produceBlock (.thrown false)] ++ ownBlock 5)).signed = [(7, 3), (7, 4), (7, 4)] := by
  decide +kernel

end Samples

end YottaChain.Production
