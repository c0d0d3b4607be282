/-
  **The builder of the lottery tables, seen as lists of tickets.**

  A `Round` is what the lottery tables are for: the tickets in use, the tickets
  collected so far for the next generation, and the internal id that is looked
  at next.  `Round.scan` looks at one id, `Round.publish` puts the collected
  tickets into use, and `Round.build` is one call of the builder.

  `Build.Shows` relates the tables to a round: every list of tickets is stored as
  a ladder in its buffer, and the counters of `mscore2ex` are its length and
  height.  `Shows.build` is the refinement: a call of `onbuild` does to the tables
  what `Round.build` does to the round.  Nothing later looks at the buffers, the
  scopes or the two copies of the code that exchanges them.
-/
import YottaChain.MinerRegistry
import YottaChain.MinerSlots
import YottaChain.Ladder
import Mathlib.Data.UInt

namespace YottaChain.HddPool

open Checked Ladder FixedWidth UInt64

/-! ## 1. Rounds -/

abbrev Ticket := UInt64 × UInt64

def entrant (s : Tables) (k : UInt64) : Option (UInt64 × Miner) :=
  match s.miner2.find k with
  | none => none
  | some slot =>
      if slot.minerid = 0 then none
      else
        match s.miner.find slot.minerid with
        | none => none
        | some row => if row.status = 0 ∧ 0 < row.maxSpace then some (slot.minerid, row) else none

def tickets1 (s : Tables) (k : UInt64) : List Ticket :=
  match entrant s k with
  | none => []
  | some (m, row) => if 0 < weight1 row then [(m, weight1 row)] else []

def tickets2 (s : Tables) (k : UInt64) : List Ticket :=
  match entrant s k with
  | none => []
  | some (m, row) => [(m, weight2 row)]

structure Round where
  side : UInt8
  proc : UInt64
  drawn1 : List Ticket
  drawn2 : List Ticket
  active1 : List Ticket
  active2 : List Ticket

namespace Round

def scan (s : Tables) (r : Round) : Round :=
  { r with proc := r.proc + 1, drawn1 := r.drawn1 ++ tickets1 s r.proc
           drawn2 := r.drawn2 ++ tickets2 s r.proc }

def publish (r : Round) : Round := ⟨if r.side = 0 then 1 else 0, 1, [], [], r.drawn1, r.drawn2⟩

/-- Look at `n` ids, or at the rest of the table if that is less. -/
def scans (s : Tables) (max : UInt64) : ℕ → Round → Round
  | 0, r => r
  | n + 1, r => if max < (r.scan s).proc then (r.scan s).publish else scans s max n (r.scan s)

def build (s : Tables) (max : UInt64) (r : Round) : Round :=
  if max < r.proc then r.publish else scans s max 3 r

structure Fits (r : Round) : Prop where
  drawn1 : r.drawn1.length < r.proc.toNat
  drawn2 : r.drawn2.length < r.proc.toNat

end Round

variable {s : Tables} {k : UInt64}

theorem entrant_eq_some {m : UInt64} {row : Miner} :
    entrant s k = some (m, row) ↔
      ∃ slot, s.miner2.find k = some slot ∧ slot.minerid = m ∧ m ≠ 0 ∧
        s.miner.find m = some row ∧ row.status = 0 ∧ 0 < row.maxSpace := by
  unfold entrant
  rcases hslot : s.miner2.find k with _ | slot
  · simp
  · by_cases hzero : slot.minerid = 0
    · simp only [hzero, if_true]
      constructor
      · intro h
        cases h
      · rintro ⟨slot', h, hm, hne, _⟩
        cases h
        exact absurd (hm.symm.trans hzero) hne
    · simp only [hzero, if_false]
      rcases hrow : s.miner.find slot.minerid with _ | row'
      · constructor
        · intro h
          cases h
        · rintro ⟨slot', h, rfl, _, h', _⟩
          cases h
          rw [hrow] at h'
          cases h'
      · constructor
        · intro h
          dsimp only at h
          split at h
          · rename_i hin
            simp only [Option.some.injEq, Prod.mk.injEq] at h
            obtain ⟨rfl, rfl⟩ := h
            exact ⟨slot, rfl, rfl, hzero, hrow, hin⟩
          · cases h
        · rintro ⟨slot', h, rfl, _, h', hin⟩
          cases h
          rw [hrow] at h'
          cases h'
          exact if_pos hin

theorem length_tickets1_le (s : Tables) (k : UInt64) : (tickets1 s k).length ≤ 1 := by
  unfold tickets1
  rcases entrant s k with _ | ⟨m, row⟩
  · simp
  · dsimp only
    split <;> simp

theorem length_tickets2_le (s : Tables) (k : UInt64) : (tickets2 s k).length ≤ 1 := by
  unfold tickets2
  rcases entrant s k with _ | ⟨m, row⟩
  · simp
  · simp

theorem mem_tickets1 {t : Ticket} :
    t ∈ tickets1 s k ↔ ∃ row, entrant s k = some (t.1, row) ∧ t.2 = weight1 row ∧
      0 < weight1 row := by
  unfold tickets1
  rcases entrant s k with _ | ⟨m, row⟩
  · simp
  · dsimp only
    by_cases hw : 0 < weight1 row
    · simp [hw, Prod.ext_iff, eq_comm]
    · simp [hw]

theorem mem_tickets2 {t : Ticket} :
    t ∈ tickets2 s k ↔ ∃ row, entrant s k = some (t.1, row) ∧ t.2 = weight2 row := by
  unfold tickets2
  rcases entrant s k with _ | ⟨m, row⟩
  · simp
  · simp [Prod.ext_iff, eq_comm]

/-! ## 2. The buffers of one table -/

def rungs (t : Table (Scope × UInt64) MScore) (scope : Scope) (k : ℕ) : Option Ticket :=
  (t.find (scope, UInt64.ofNat k)).map fun row => (row.minerid, row.range)

/-- The two buffers of a table hold the tickets `a` in use and the tickets `p`
    collected so far; the rows count from 1. -/
structure Buffers (t : Table (Scope × UInt64) MScore) (active build : Scope)
    (count buildCount prev : UInt64) (a p : List Ticket) : Prop where
  ground : ∀ scope, t.find (scope, 0) = none
  active : Rungs (rungs t active) a
  count : count.toNat = a.length
  building : Rungs (rungs t build) p
  buildCount : buildCount.toNat = p.length
  prev : prev = height p p.length

theorem rungs_put_ne (t : Table (Scope × UInt64) MScore) {scope scope' : Scope} {j : ℕ}
    (row : MScore) (h : scope ≠ scope' ∨ UInt64.ofNat j ≠ k) :
    rungs (t.put (scope', k) row) scope j = rungs t scope j := by
  rw [rungs, Table.find_put_ne, rungs]
  intro heq
  simp only [Prod.mk.injEq] at heq
  rcases h with h | h
  · exact h heq.1
  · exact h heq.2

theorem Buffers.add {t : Table (Scope × UInt64) MScore} {active build : Scope}
    {count buildCount prev : UInt64} {a p : List Ticket}
    (h : Buffers t active build count buildCount prev a p) (hne : active ≠ build)
    (hlen : p.length + 1 < 2 ^ 64) (m w : UInt64) :
    Buffers (t.put (build, buildCount + 1) ⟨m, prev + w⟩) active build count (buildCount + 1)
      (prev + w) a (p ++ [(m, w)]) := by
  have hcount : (buildCount + 1).toNat = p.length + 1 := by
    rw [toNat_add_of_lt (by rw [h.buildCount]; exact hlen), h.buildCount, toNat_one]
  have hkey : UInt64.ofNat (p.length + 1) = buildCount + 1 := by
    rw [← hcount, UInt64.ofNat_toNat]
  refine ⟨?_, ?_, h.count, ?_, ?_, ?_⟩
  · intro scope
    rw [Table.find_put_ne _ _ ?_, h.ground]
    intro heq
    simp only [Prod.mk.injEq] at heq
    rw [← heq.2] at hcount
    exact absurd hcount (by simp)
  · apply h.active.congr
    intro k _ _
    exact rungs_put_ne t _ (.inl hne)
  · apply h.building.push
    · intro k hk
      apply rungs_put_ne t _ (.inr _)
      intro heq
      have hk' := congrArg UInt64.toNat heq
      rw [hcount, toNat_ofNat_of_lt' (by rw [UInt64.size]; omega)] at hk'
      omega
    · rw [rungs, hkey, Table.find_put_self, h.prev]
      rfl
  · rw [hcount]
    simp
  · simp only [List.length_append, List.length_singleton]
    rw [height_push, h.prev]

theorem Buffers.swap {t : Table (Scope × UInt64) MScore} {active build : Scope}
    {count buildCount prev : UInt64} {a p : List Ticket}
    (h : Buffers t active build count buildCount prev a p) :
    Buffers t build active buildCount 0 0 p [] where
  ground := h.ground
  active := h.building
  count := h.buildCount
  building := .nil _
  buildCount := rfl
  prev := rfl

/-! ## 3. The tables show a round -/

def Tables.lottery (s : Tables) : Build := ⟨s.mscore1, s.mscore2, s.mscore2ex.getD {}⟩

structure Build.Shows (b : Build) (r : Round) : Prop where
  side : b.ex.currentS = r.side
  proc : b.ex.buildProcId = r.proc
  table1 : Buffers b.mscore1 b.ex.activeScope b.ex.buildScope b.ex.activeCount1
    b.ex.buildCount1 b.ex.prevBuildRange1 r.active1 r.drawn1
  table2 : Buffers b.mscore2 b.ex.activeScope b.ex.buildScope b.ex.activeCount2
    b.ex.buildCount2 b.ex.prevBuildRange2 r.active2 r.drawn2

theorem activeScope_ne_buildScope (g : MScore2Ex) : g.activeScope ≠ g.buildScope := by
  unfold MScore2Ex.activeScope MScore2Ex.buildScope
  split <;> simp

/-! A flip exchanges the scopes and takes the counts over. -/

theorem flip_currentS (g : MScore2Ex) : g.flip.currentS = if g.currentS = 0 then 1 else 0 := by
  by_cases hs : g.currentS = 0
  · simp [MScore2Ex.flip, hs]
  · simp [MScore2Ex.flip, hs]

theorem flip_activeScope (g : MScore2Ex) : g.flip.activeScope = g.buildScope := by
  by_cases hs : g.currentS = 0
  · simp [MScore2Ex.flip, MScore2Ex.activeScope, MScore2Ex.buildScope, hs]
  · simp [MScore2Ex.flip, MScore2Ex.activeScope, MScore2Ex.buildScope, hs]

theorem flip_buildScope (g : MScore2Ex) : g.flip.buildScope = g.activeScope := by
  by_cases hs : g.currentS = 0
  · simp [MScore2Ex.flip, MScore2Ex.activeScope, MScore2Ex.buildScope, hs]
  · simp [MScore2Ex.flip, MScore2Ex.activeScope, MScore2Ex.buildScope, hs]

theorem flip_activeCount1 (g : MScore2Ex) : g.flip.activeCount1 = g.buildCount1 := by
  by_cases hs : g.currentS = 0
  · simp [MScore2Ex.flip, MScore2Ex.activeCount1, hs]
  · simp [MScore2Ex.flip, MScore2Ex.activeCount1, hs]

theorem flip_activeCount2 (g : MScore2Ex) : g.flip.activeCount2 = g.buildCount2 := by
  by_cases hs : g.currentS = 0
  · simp [MScore2Ex.flip, MScore2Ex.activeCount2, hs]
  · simp [MScore2Ex.flip, MScore2Ex.activeCount2, hs]

variable {b : Build} {r : Round}

theorem Build.Shows.flip (h : b.Shows r) : Build.Shows { b with ex := b.ex.flip } r.publish := by
  refine ⟨?_, rfl, ?_, ?_⟩
  · show b.ex.flip.currentS = _
    rw [flip_currentS, h.side]
    rfl
  · simp only [flip_activeScope, flip_buildScope, flip_activeCount1]
    exact h.table1.swap
  · simp only [flip_activeScope, flip_buildScope, flip_activeCount2]
    exact h.table2.swap

theorem Build.visit_eq (s : Tables) (scope : Scope) (b : Build) :
    Build.visit s scope b = match entrant s b.ex.buildProcId with
      | none => b
      | some (m, row) => Build.addScore2 scope m (weight2 row)
          (if 0 < weight1 row then Build.addScore1 scope m (weight1 row) b else b) := by
  unfold Build.visit entrant
  rcases s.miner2.find b.ex.buildProcId with _ | slot
  · rfl
  · by_cases hzero : slot.minerid = 0
    · simp only [hzero, if_true]
    · simp only [hzero, if_false]
      rcases s.miner.find slot.minerid with _ | row
      · rfl
      · unfold Build.addMiner
        by_cases hin : row.status = 0 ∧ 0 < row.maxSpace
        · simp only [hin, and_self, if_true]
        · simp only [hin, if_false]

theorem Build.Shows.addScore1 (h : b.Shows r) (hlen : r.drawn1.length + 1 < 2 ^ 64) (m w : UInt64) :
    (Build.addScore1 b.ex.buildScope m w b).Shows { r with drawn1 := r.drawn1 ++ [(m, w)] } :=
  ⟨h.side, h.proc, h.table1.add (activeScope_ne_buildScope _) hlen m w, h.table2⟩

theorem Build.Shows.addScore2 (h : b.Shows r) (hlen : r.drawn2.length + 1 < 2 ^ 64) (m w : UInt64) :
    (Build.addScore2 b.ex.buildScope m w b).Shows { r with drawn2 := r.drawn2 ++ [(m, w)] } :=
  ⟨h.side, h.proc, h.table1, h.table2.add (activeScope_ne_buildScope _) hlen m w⟩

def Build.advance (b : Build) : Build :=
  { b with ex := { b.ex with buildProcId := b.ex.buildProcId + 1 } }

theorem Build.loop_succ (s : Tables) (scope : Scope) (max : UInt64) (n : ℕ) (b : Build) :
    Build.loop s scope max (n + 1) b =
      if max < (Build.visit s scope b).advance.ex.buildProcId then
        { (Build.visit s scope b).advance with ex := (Build.visit s scope b).advance.ex.flip }
      else Build.loop s scope max n (Build.visit s scope b).advance := rfl

/-- Looking at one id does to the buffers what `Round.scan` does to the round. -/
theorem Build.Shows.scan (h : b.Shows r) (hfits : r.Fits) (s : Tables) :
    (Build.visit s b.ex.buildScope b).advance.Shows (r.scan s) := by
  have hlt := r.proc.toNat_lt
  have hlen1 : r.drawn1.length + 1 < 2 ^ 64 := by
    have := hfits.drawn1
    omega
  have hlen2 : r.drawn2.length + 1 < 2 ^ 64 := by
    have := hfits.drawn2
    omega
  -- the same without the last increment
  have hvisit : (Build.visit s b.ex.buildScope b).Shows
      { r with drawn1 := r.drawn1 ++ tickets1 s r.proc
               drawn2 := r.drawn2 ++ tickets2 s r.proc } := by
    rw [Build.visit_eq, h.proc, tickets1, tickets2]
    rcases entrant s r.proc with _ | ⟨m, row⟩
    · simpa using h
    · dsimp only
      by_cases hw : 0 < weight1 row
      · simp only [hw, if_true]
        exact (h.addScore1 hlen1 m (weight1 row)).addScore2 hlen2 m (weight2 row)
      · simp only [hw, if_false, List.append_nil]
        exact h.addScore2 hlen2 m (weight2 row)
  exact ⟨hvisit.side, congrArg (· + 1) hvisit.proc, hvisit.table1, hvisit.table2⟩

variable {max : UInt64} {P : Round → Prop}

theorem toNat_succ_proc {proc : UInt64} (hmax : max.toNat + 1 < 2 ^ 64) (hle : proc ≤ max) :
    (proc + 1).toNat = proc.toNat + 1 := by
  have := le_iff_toNat_le.mp hle
  exact toNat_add_of_lt (by rw [toNat_one]; omega)

theorem Round.Fits.scan (h : r.Fits) (s : Tables) (hmax : max.toNat + 1 < 2 ^ 64)
    (hle : r.proc ≤ max) : (r.scan s).Fits := by
  have hproc := toNat_succ_proc hmax hle
  have h1 := length_tickets1_le s r.proc
  have h2 := length_tickets2_le s r.proc
  have hd1 := h.drawn1
  have hd2 := h.drawn2
  constructor
  · simp only [Round.scan, List.length_append]
    omega
  · simp only [Round.scan, List.length_append]
    omega

theorem Build.visit_scope (s : Tables) (scope : Scope) (b : Build) :
    (Build.visit s scope b).ex.buildScope = b.ex.buildScope := by
  rw [Build.visit_eq]
  rcases entrant s b.ex.buildProcId with _ | ⟨m, row⟩
  · rfl
  · dsimp only
    split <;> rfl

theorem Build.Shows.loop (hmax : max.toNat + 1 < 2 ^ 64) (n : ℕ) (h : b.Shows r) (hfits : r.Fits)
    (hle : r.proc ≤ max) : (Build.loop s b.ex.buildScope max n b).Shows (r.scans s max n) := by
  induction n generalizing b r with
  | zero => exact h
  | succ n ih =>
    have hscan := h.scan hfits s
    have hscope : (Build.visit s b.ex.buildScope b).advance.ex.buildScope = b.ex.buildScope :=
      Build.visit_scope s b.ex.buildScope b
    rw [Build.loop_succ, Round.scans, hscan.proc]
    by_cases hend : max < (r.scan s).proc
    · simp only [hend, if_true]
      exact hscan.flip
    · simp only [hend, if_false]
      have hrest := ih hscan (hfits.scan s hmax hle) (UInt64.not_lt.mp hend)
      rwa [hscope] at hrest

/-- One call of the builder does to the tables what `Round.build` does to the round. -/
theorem Build.Shows.build (hmax : max.toNat + 1 < 2 ^ 64) (h : s.lottery.Shows r) (hfits : r.Fits) :
    (buildTables s max).lottery.Shows (r.build s max) := by
  unfold buildTables Round.build
  rw [← h.proc]
  by_cases hend : max < (s.mscore2ex.getD {}).buildProcId
  · simp only [hend, if_true, Tables.lottery]
    exact h.flip
  · simp only [hend, if_false, Tables.lottery]
    refine h.loop hmax 3 hfits ?_
    rw [← h.proc]
    exact UInt64.not_lt.mp hend

/-! ## 4. Rounds along a run -/

/-- What a scan keeps is kept up to the end of the call, or up to the publication
    in it. -/
theorem Round.scans_rule {Q : Round → Prop} (hscan : ∀ r, P r → r.proc ≤ max → P (r.scan s))
    (hpublish : ∀ r, P r → max < r.proc → Q r.publish) (n : ℕ) (h : P r) (hle : r.proc ≤ max) :
    P (r.scans s max n) ∨ Q (r.scans s max n) := by
  induction n generalizing r with
  | zero => exact .inl h
  | succ n ih =>
    have h' := hscan r h hle
    rw [Round.scans]
    by_cases hend : max < (r.scan s).proc
    · rw [if_pos hend]
      exact .inr (hpublish _ h' hend)
    · rw [if_neg hend]
      exact ih h' (UInt64.not_lt.mp hend)

theorem Round.build_rule {m : UInt64} {Q : Round → Prop}
    (hscan : ∀ r, P r → r.proc ≤ m → P (r.scan s)) (hpublish : ∀ r, P r → m < r.proc → Q r.publish)
    (h : P r) : P (r.build s m) ∨ Q (r.build s m) := by
  rw [Round.build]
  by_cases hend : m < r.proc
  · rw [if_pos hend]
    exact .inr (hpublish r h hend)
  · rw [if_neg hend]
    exact Round.scans_rule hscan hpublish 3 h (UInt64.not_lt.mp hend)

/-- What a scan and a publication keep, a call of the builder keeps. -/
theorem Round.build_keeps (hscan : ∀ r, P r → r.proc ≤ max → P (r.scan s))
    (hpublish : ∀ r, P r → max < r.proc → P r.publish) (h : P r) : P (r.build s max) := by
  rcases Round.build_rule hscan hpublish h with h' | h'
  · exact h'
  · exact h'

inductive Turn (s : Tables) (r : Round) : Action → Round → Prop
  | still {a} : Turn s r a r
  | build {slot} (g : Miner2Ex) (hex : s.miner2ex = some g) :
      Turn s r (.onbuild slot) (r.build s g.maxTableCount)

/-- The scan never runs beyond the table, and no list has more tickets than the
    table has rows. -/
structure Bounded (s : Tables) (r : Round) : Prop where
  fits : r.Fits
  proc_le : r.proc.toNat ≤ s.slots.head.maxTableCount.toNat + 1
  active1 : r.active1.length ≤ s.slots.head.maxTableCount.toNat
  active2 : r.active2.length ≤ s.slots.head.maxTableCount.toNat

theorem Bounded.build (h : Bounded s r) {g : Miner2Ex} (hex : s.miner2ex = some g)
    (hmax : g.maxTableCount.toNat + 1 < 2 ^ 64) : Bounded s (r.build s g.maxTableCount) := by
  have hhead : s.slots.head = g := by simp [Slots.head, Tables.slots, hex]
  refine Round.build_keeps ?_ ?_ h
  · intro r hr hle
    have hproc := toNat_succ_proc hmax hle
    refine ⟨hr.fits.scan s hmax hle, ?_, hr.active1, hr.active2⟩
    rw [hhead]
    show (r.proc + 1).toNat ≤ _
    have := le_iff_toNat_le.mp hle
    omega
  · intro r hr _
    have hle := hr.proc_le
    have h1 := hr.fits.drawn1
    have h2 := hr.fits.drawn2
    refine ⟨⟨?_, ?_⟩, ?_, ?_, ?_⟩
    · exact Nat.zero_lt_one
    · exact Nat.zero_lt_one
    · show 1 ≤ _
      omega
    · show r.drawn1.length ≤ _
      omega
    · show r.drawn2.length ≤ _
      omega

/-- The lottery tables change only when the builder works. -/
theorem Effect.lottery_cases {fp : Doubles} {s' : Tables} {a : Action} (h : Effect fp s a s') :
    s'.lottery = s.lottery ∨ ∃ slot p g, a = .onbuild slot ∧ s.miner2ex = some g ∧
      s' = buildTables { s with newmparam := some p } g.maxTableCount := by
  cases h with
  | quiet _ _ _ hlot =>
    left
    rw [Tables.lottery, hlot.mscore1, hlot.mscore2, hlot.mscore2ex, Tables.lottery]
  | build p g hex => exact .inr ⟨_, p, g, rfl, hex, rfl⟩
  | _ => exact .inl rfl

structure Runs (s : Tables) (r : Round) : Prop where
  shows : s.lottery.Shows r
  bounded : Bounded s r
  counted : s.slots.Counted

theorem Runs.effect {fp : Doubles} {s' : Tables} {a : Action} (hr : Runs s r) (h : Effect fp s a s')
    (hsmall : s'.miner2.size + 1 < 2 ^ 64) : ∃ r', Runs s' r' ∧ Turn s r a r' := by
  obtain ⟨hcounted, hmax⟩ := h.counted hr.counted (by omega)
  have hbounded : ∀ r', Bounded s r' → Bounded s' r' := by
    intro r' hb
    have hle := hb.proc_le
    have h1 := hb.active1
    have h2 := hb.active2
    exact ⟨hb.fits, by omega, by omega, by omega⟩
  rcases h.lottery_cases with hsame | ⟨slot, p, g, rfl, hex, rfl⟩
  · exact ⟨r, ⟨hsame ▸ hr.shows, hbounded r hr.bounded, hcounted⟩, .still⟩
  · have hsize : g.maxTableCount.toNat + 1 < 2 ^ 64 := by
      have hc : s.slots.head.maxTableCount.toNat ≤ s.miner2.size := hr.counted
      have hle := h.miner2_size_le
      simp only [Slots.head, Tables.slots, hex, Option.getD_some] at hc
      omega
    refine ⟨r.build s g.maxTableCount, ⟨?_, ?_, hcounted⟩, .build g hex⟩
    · have hshows : ({ s with newmparam := some p } : Tables).lottery.Shows r := hr.shows
      exact hshows.build hsize hr.bounded.fits
    · exact hbounded _ (hr.bounded.build hex hsize)

theorem build_newmparam (s : Tables) (n : UInt64) : (buildTables s n).newmparam = s.newmparam := by
  unfold buildTables
  dsimp only
  split <;> rfl

/-- The builder can be called whenever the new model has been started and there is an id table. -/
theorem Runs.call (hr : Runs s r) (fp : Doubles) (hparam : s.newmparam.isSome) {g : Miner2Ex}
    (hex : s.miner2ex = some g) (hmax : g.maxTableCount.toNat + 1 < 2 ^ 64) :
    ∃ s', AnyStep fp s s' ∧ SameRegistry s s' ∧ s'.newmparam.isSome ∧
      Runs s' (r.build s g.maxTableCount) := by
  obtain ⟨p, hp⟩ := Option.isSome_iff_exists.mp hparam
  let s1 : Tables := { s with newmparam := some { p with lastBuildSlot := 0, spanBuildSlot := 2 } }
  have hcall : onbuild (.permissive 0) s 0 = .ok (buildTables s1 g.maxTableCount, []) := by
    simp only [onbuild, ok_iff, hp, hex]
    refine ⟨rfl, ?_, trivial⟩
    rw [← hex]
  have hreg : SameRegistry s (buildTables s1 g.maxTableCount) := build_registry s _ _
  have hslots : (buildTables s1 g.maxTableCount).slots = s.slots := by
    rw [Tables.slots, hreg.miner2, hreg.miner2ex, Tables.slots]
  have hbounded := hr.bounded.build hex hmax
  refine ⟨_, ⟨.onbuild 0, trivial, .permissive 0, .empty, [], hcall⟩, hreg, ?_, ?_, ?_, ?_⟩
  · rw [build_newmparam]
    rfl
  · have hshows : s1.lottery.Shows r := hr.shows
    exact hshows.build hmax hr.bounded.fits
  · refine ⟨hbounded.fits, ?_, ?_, ?_⟩
    · rw [hslots]
      exact hbounded.proc_le
    · rw [hslots]
      exact hbounded.active1
    · rw [hslots]
      exact hbounded.active2
  · rw [hslots]
    exact hr.counted

def Round.first : Round := ⟨0, 1, [], [], [], []⟩

theorem Runs.first (hcounted : s.slots.Counted) (h1 : s.mscore1 = ∅) (h2 : s.mscore2 = ∅)
    (hlottery : s.mscore2ex.getD {} = {}) : Runs s Round.first where
  shows := by
    have hex' : s.lottery.ex = {} := hlottery
    refine ⟨?_, ?_, ?_, ?_⟩
    · rw [hex']
      rfl
    · rw [hex']
      rfl
    · rw [hex', Tables.lottery, h1]
      exact ⟨fun _ => Table.find_empty _, .nil _, rfl, .nil _, rfl, rfl⟩
    · rw [hex', Tables.lottery, h2]
      exact ⟨fun _ => Table.find_empty _, .nil _, rfl, .nil _, rfl, rfl⟩
  bounded := ⟨⟨Nat.zero_lt_one, Nat.zero_lt_one⟩, Nat.le_add_left _ _, Nat.zero_le _, Nat.zero_le _⟩
  counted := hcounted

end YottaChain.HddPool
