/-
  **No miner has two tickets, unless it comes back ahead of the scan.**

  A pass looks at every internal id once, and a miner has one internal id.  So a
  miner can get a second ticket of a pass only by giving up the id that has been
  looked at and taking one that has not: it is deleted, another miner takes its
  place, and it is registered again with an id that the scan has still to come by.
  `two_tickets` is such a run.  `tickets_distinct` says that nothing else leads
  there: as long as no miner with a row in the buffer under construction is
  registered with such an id, the published buffers name every miner at most once.

  The invariant is `Seen`: the collected tickets belong to different miners, and
  those of them that are registered have an id the scan has passed.
-/
import YottaChain.LotteryShape

namespace YottaChain.HddPool

open Ladder FixedWidth List UInt64

/-! ## 1. Who gets a new id -/

def Action.registers : Action → Option UInt64
  | .regminer minerid .. => some minerid
  | _ => none

variable {fp : Doubles} {s s' : Tables} {m : UInt64}

/-- An internal id was there before the call, or the call registers the miner. -/
theorem Effect.idOf_cases {a : Action} (h : Effect fp s a s') (hs : Synced s) {id : UInt32}
    (hid : idOf s'.miner m = some id) :
    idOf s.miner m = some id ∨
      idOf s.miner m = none ∧ a.registers = some m ∧ id = s.slots.head.nextId.toUInt32 := by
  cases h with
  | quiet _ _ hreg =>
    rw [hreg.miner] at hid
    exact .inl hid
  | build p g =>
    rw [(build_registry s (some p) g.maxTableCount).miner] at hid
    exact .inl hid
  | poolDelete | poolRegister | poolResize => exact .inl hid
  | register _ _ _ _ _ _ _ _ _ _ _ _ _ hminer _ _ htakes =>
    rw [idOf_put] at hid
    split_ifs at hid with hm
    · subst hm
      cases htakes with
      | grow | reuse => exact .inr ⟨by rw [idOf, hminer]; rfl, rfl, (Option.some.inj hid).symm⟩
    · exact .inl hid
  | delete =>
    rw [idOf_erase] at hid
    split at hid
    · cases hid
    · exact .inl hid
  | addSpace | subSpace | deactivate | activate | movePool | changeAdmin | changeOwner =>
    dsimp only at hid
    rw [idOf_adjust] at hid
    · exact .inl hid
    · exact fun _ => rfl
  | enlarge row hrow | setLevel row hrow | setRealSpace row hrow =>
    dsimp only at hid
    rw [idOf_put_same hrow] at hid
    · exact .inl hid
    · rfl
  | sync hminer _ hinfo =>
    obtain ⟨row, _, hrow, _⟩ := hs.known hinfo
    rw [hminer] at hrow
    cases hrow

/-- The id of a miner that takes part is the id that is looked at. -/
theorem entrant_id (hl : SlotsLaw s.slots s.miner) {k : UInt64} {row : Miner}
    (h : entrant s k = some (m, row)) : ∃ id, idOf s.miner m = some id ∧ id.toUInt64 = k := by
  obtain ⟨slot, hslot, rfl, hne, _⟩ := entrant_eq_some.mp h
  exact hl.used k slot hslot hne

/-! ## 2. The collected tickets -/

structure Seen (s : Tables) (proc : UInt64) (l : List Ticket) : Prop where
  nodup : (l.map Prod.fst).Nodup
  behind : ∀ m ∈ l.map Prod.fst, ∀ id, idOf s.miner m = some id → id.toNat < proc.toNat

theorem Seen.nil (s : Tables) (proc : UInt64) : Seen s proc [] := by
  constructor
  · simp
  · intro m hm
    simp at hm

variable {l : List Ticket} {proc : UInt64}

/-- One more id: its miner has not been seen, because what has been seen is behind
    the scan. -/
theorem Seen.append {new : List Ticket} (h : Seen s proc l)
    (hnew : ∀ t ∈ new, ∃ id, idOf s.miner t.1 = some id ∧ id.toUInt64 = proc)
    (hone : new.length ≤ 1) (hsucc : (proc + 1).toNat = proc.toNat + 1) :
    Seen s (proc + 1) (l ++ new) := by
  have hfresh : ∀ t ∈ new, t.1 ∉ l.map Prod.fst := by
    intro t ht hmem
    obtain ⟨id, hid, hk⟩ := hnew t ht
    have hlt := h.behind t.1 hmem id hid
    rw [← hk, UInt32.toNat_toUInt64] at hlt
    exact Nat.lt_irrefl _ hlt
  constructor
  · rw [map_append]
    refine nodup_append.mpr ⟨h.nodup, ?_, ?_⟩
    · rcases new with _ | ⟨t, _ | ⟨t', rest⟩⟩
      · simp
      · simp
      · simp at hone
    · intro m hm m' hm' heq
      obtain ⟨t, ht, rfl⟩ := mem_map.mp hm'
      exact hfresh t ht (heq ▸ hm)
  · intro m hm id hid
    rw [map_append, mem_append] at hm
    rcases hm with hm | hm
    · have := h.behind m hm id hid
      omega
    · obtain ⟨t, ht, rfl⟩ := mem_map.mp hm
      obtain ⟨id', hid', hk⟩ := hnew t ht
      rw [hid] at hid'
      cases hid'
      rw [hsucc, ← hk, UInt32.toNat_toUInt64]
      omega

/-- The ids may change as long as the new ones are behind the scan. -/
theorem Seen.of_ids (h : Seen s proc l)
    (hids : ∀ m ∈ l.map Prod.fst, ∀ id, idOf s'.miner m = some id →
      idOf s.miner m = some id ∨ id.toNat < proc.toNat) : Seen s' proc l :=
  ⟨h.nodup, fun m hm id hid => (hids m hm id hid).elim (h.behind m hm id) fun hlt => hlt⟩

structure Round.Distinct (s : Tables) (r : Round) : Prop where
  drawn1 : Seen s r.proc r.drawn1
  drawn2 : Seen s r.proc r.drawn2
  active1 : (r.active1.map Prod.fst).Nodup
  active2 : (r.active2.map Prod.fst).Nodup

variable {r : Round}

theorem Round.Distinct.build (hl : SlotsLaw s.slots s.miner) (h : r.Distinct s) {max : UInt64}
    (hmax : max.toNat + 1 < 2 ^ 64) : (r.build s max).Distinct s := by
  refine Round.build_keeps ?_ ?_ h
  · intro r hr hle
    have hsucc := toNat_succ_proc hmax hle
    refine ⟨?_, ?_, hr.active1, hr.active2⟩
    · refine hr.drawn1.append ?_ (length_tickets1_le s r.proc) hsucc
      intro t ht
      obtain ⟨row, hin, _, _⟩ := mem_tickets1.mp ht
      exact entrant_id hl hin
    · refine hr.drawn2.append ?_ (length_tickets2_le s r.proc) hsucc
      intro t ht
      obtain ⟨row, hin, _⟩ := mem_tickets2.mp ht
      exact entrant_id hl hin
  · intro r hr _
    exact ⟨.nil s _, .nil s _, hr.drawn1.nodup, hr.drawn2.nodup⟩

/-! ## 3. Runs without returns ahead of the scan -/

def Collected (s : Tables) (m : UInt64) : Prop :=
  (∃ k row, 1 ≤ k ∧ k ≤ s.lottery.ex.buildCount1 ∧
    s.mscore1.find (s.lottery.ex.buildScope, k) = some row ∧ row.minerid = m) ∨
  (∃ k row, 1 ≤ k ∧ k ≤ s.lottery.ex.buildCount2 ∧
    s.mscore2.find (s.lottery.ex.buildScope, k) = some row ∧ row.minerid = m)

/-- A successful call that does not register a miner with a row in the buffer under
    construction, unless the id it gets is behind the scan. -/
def StepWithoutReturn (fp : Doubles) (s s' : Tables) : Prop :=
  ∃ a, (∀ m, a.registers = some m → Collected s m →
    s.slots.head.nextId < s.lottery.ex.buildProcId) ∧ Call fp a s s'

variable {t : Table (Scope × UInt64) MScore} {scope : Scope} {count : UInt64}

theorem row_of_mem (h : Rungs (rungs t scope) l) (hcount : count.toNat = l.length)
    (hm : m ∈ l.map Prod.fst) :
    ∃ k row, 1 ≤ k ∧ k ≤ count ∧ t.find (scope, k) = some row ∧ row.minerid = m := by
  obtain ⟨⟨m', w⟩, ht, rfl⟩ := mem_map.mp hm
  obtain ⟨i, hi, hget⟩ := mem_iff_getElem.mp ht
  have hlt := count.toNat_lt
  have hk : (UInt64.ofNat (i + 1)).toNat = i + 1 := toNat_ofNat_of_lt' (by rw [UInt64.size]; omega)
  obtain ⟨m, w', hget', hrow⟩ := rung_row h (k := UInt64.ofNat (i + 1)) (by omega) (by omega)
  rw [hk, Nat.add_sub_cancel, getElem?_eq_getElem hi, hget] at hget'
  cases hget'
  exact ⟨_, _, one_le_iff.mpr (by omega), le_iff_toNat_le.mpr (by omega), hrow, rfl⟩

theorem collected_of_mem (h : s.lottery.Shows r)
    (hm : m ∈ r.drawn1.map Prod.fst ∨ m ∈ r.drawn2.map Prod.fst) : Collected s m := by
  rcases hm with hm | hm
  · exact .inl (row_of_mem h.table1.building h.table1.buildCount hm)
  · exact .inr (row_of_mem h.table2.building h.table2.buildCount hm)

structure TicketLaw (s : Tables) (r : Round) : Prop where
  lottery : LotteryLaw s r
  allocator : Allocator s
  distinct : r.Distinct s

theorem TicketLaw.step (h : TicketLaw s r) (hstep : StepWithoutReturn fp s s')
    (hsmall : s'.miner2.size < 2 ^ 32) : ∃ r', TicketLaw s' r' := by
  obtain ⟨a, hreturn, c, v, sent, hcall⟩ := hstep
  have he : Effect fp s a s' := apply_effect hcall
  obtain ⟨r', hlaw, hturn⟩ := h.lottery.effect he (by omega)
  have halloc := h.allocator.effect he hsmall
  refine ⟨r', hlaw, halloc, ?_⟩
  -- the call may change the miners or the round, but not both
  have hd : r'.Distinct s := by
    cases hturn with
    | still => exact h.distinct
    | build _ hex =>
      have hcounted : s.slots.head.maxTableCount.toNat ≤ s.miner2.size := h.lottery.runs.counted
      have hle := he.miner2_size_le
      simp only [Slots.head, Tables.slots, hex, Option.getD_some] at hcounted
      exact h.distinct.build h.allocator.law (by omega)
  have hids : ∀ m, m ∈ r'.drawn1.map Prod.fst ∨ m ∈ r'.drawn2.map Prod.fst → ∀ id,
      idOf s'.miner m = some id → idOf s.miner m = some id ∨ id.toNat < r'.proc.toNat := by
    intro m hm id hid
    rcases he.idOf_cases h.lottery.registry.synced hid with hold | ⟨_, hreg, rfl⟩
    · exact .inl hold
    · cases hturn with
      | still =>
        have hlt := hreturn m hreg (collected_of_mem h.lottery.runs.shows hm)
        rw [h.lottery.runs.shows.proc, lt_iff_toNat_lt] at hlt
        exact .inr (Nat.lt_of_le_of_lt (Nat.mod_le _ _) hlt)
      | build => cases hreg
  exact ⟨hd.drawn1.of_ids fun m hm => hids m (.inl hm),
    hd.drawn2.of_ids fun m hm => hids m (.inr hm), hd.active1, hd.active2⟩

theorem Deployed.allocator (h : Deployed s) : Allocator s where
  law := by
    rw [Tables.slots, h.miner2, h.miner2ex, h.miner]
    exact .empty
  info := by
    rw [h.minerinfo]
    exact Table.find_empty 0

theorem TicketLaw.run {s0 : Tables} (h0 : Deployed s0)
    (hrun : Run.Steps (StepWithoutReturn fp) s0 s) (hsmall : s.miner2.size < 2 ^ 32) :
    ∃ r, TicketLaw s r := by
  refine Run.invariant_below (P := fun s => ∃ r, TicketLaw s r) (fun s => s.miner2.size) ?_ ?_ ?_
    hrun hsmall
  · rintro s s' ⟨a, _, c, v, sent, hcall⟩
    exact (apply_effect hcall).miner2_size_le
  · rintro s s' ⟨r, hr⟩ hstep hb
    exact hr.step hstep hb
  · exact ⟨Round.first, h0.law, h0.allocator, .nil _ _, .nil _ _, nodup_nil, nodup_nil⟩

/-! ## 4. Rows name different miners -/

/-- No miner has two of the rows `1 .. count`. -/
def RowsDistinct (find : UInt64 → Option MScore) (count : UInt64) : Prop :=
  ∀ j k rowj rowk, 1 ≤ j → j ≤ count → 1 ≤ k → k ≤ count → find j = some rowj →
    find k = some rowk → rowj.minerid = rowk.minerid → j = k

theorem rowsDistinct_of_nodup (h : Rungs (rungs t scope) l) (hcount : count.toNat = l.length)
    (hnodup : (l.map Prod.fst).Nodup) : RowsDistinct (fun k => t.find (scope, k)) count := by
  intro j k rowj rowk hj1 hj hk1 hk hrowj hrowk heq
  have hj1' := one_le_iff.mp hj1
  have hk1' := one_le_iff.mp hk1
  have hj' := le_iff_toNat_le.mp hj
  have hk' := le_iff_toNat_le.mp hk
  obtain ⟨mj, wj, hgetj, hfj⟩ := rung_row h hj1' (by omega)
  obtain ⟨mk, wk, hgetk, hfk⟩ := rung_row h hk1' (by omega)
  dsimp only at hrowj hrowk
  rw [hrowj] at hfj
  rw [hrowk] at hfk
  cases hfj
  cases hfk
  dsimp only at heq
  subst heq
  have hj2 : (l.map Prod.fst)[j.toNat - 1]? = some mj := by simp [hgetj]
  have hk2 : (l.map Prod.fst)[k.toNat - 1]? = some mj := by simp [hgetk]
  have hlt : j.toNat - 1 < (l.map Prod.fst).length := (List.getElem?_eq_some_iff.mp hj2).1
  have hidx := (List.getElem?_inj hlt hnodup).mp (hj2.trans hk2.symm)
  apply UInt64.toNat_inj.mp
  omega

/-- In every run from an empty deployment in which no miner with a row in the buffer
    under construction is registered with an id ahead of the scan, and with fewer than
    `2 ^ 32` internal ids, no miner has two rows of a buffer in use. -/
theorem tickets_distinct {fp : Doubles} {s₀ s : Tables} (h₀ : Deployed s₀)
    (hrun : Run.Steps (StepWithoutReturn fp) s₀ s) (hsmall : s.miner2.size < 2 ^ 32) :
    RowsDistinct (fun k => s.mscore1.find (s.lottery.ex.activeScope, k))
      s.lottery.ex.activeCount1 ∧
    RowsDistinct (fun k => s.mscore2.find (s.lottery.ex.activeScope, k))
      s.lottery.ex.activeCount2 := by
  obtain ⟨r, hr⟩ := TicketLaw.run h₀ hrun hsmall
  have hshows := hr.lottery.runs.shows
  exact ⟨rowsDistinct_of_nodup hshows.table1.active hshows.table1.count hr.distinct.active1,
    rowsDistinct_of_nodup hshows.table2.active hshows.table2.count hr.distinct.active2⟩

def named (t : Table (Scope × UInt64) MScore) (scope : Scope) (count m : UInt64) : Bool :=
  (List.range count.toNat).any fun i =>
    (t.find (scope, UInt64.ofNat (i + 1))).any fun row => row.minerid = m

theorem named_of_row {k : UInt64} {row : MScore} (h1 : 1 ≤ k) (hk : k ≤ count)
    (hrow : t.find (scope, k) = some row) (hm : row.minerid = m) : named t scope count m = true := by
  have h1' := one_le_iff.mp h1
  have hk' := le_iff_toNat_le.mp hk
  refine any_eq_true.mpr ⟨k.toNat - 1, mem_range.mpr (by omega), ?_⟩
  rw [Nat.sub_add_cancel h1', UInt64.ofNat_toNat, hrow, Option.any_some]
  exact decide_eq_true hm

/-- The miner has no row yet, or the next id is behind the scan. -/
def registersSafely (s : Tables) (a : Action) : Bool :=
  a.registers.all fun m =>
    !(named s.mscore1 s.lottery.ex.buildScope s.lottery.ex.buildCount1 m ||
      named s.mscore2 s.lottery.ex.buildScope s.lottery.ex.buildCount2 m) ||
    decide (s.slots.head.nextId < s.lottery.ex.buildProcId)

theorem returns_behind {a : Action} (h : registersSafely s a = true) (hreg : a.registers = some m)
    (hm : Collected s m) : s.slots.head.nextId < s.lottery.ex.buildProcId := by
  have hnamed : (named s.mscore1 s.lottery.ex.buildScope s.lottery.ex.buildCount1 m ||
      named s.mscore2 s.lottery.ex.buildScope s.lottery.ex.buildCount2 m) = true := by
    rw [Bool.or_eq_true]
    exact hm.imp (fun ⟨_, _, h1, hk, hrow, hid⟩ => named_of_row h1 hk hrow hid)
      fun ⟨_, _, h1, hk, hrow, hid⟩ => named_of_row h1 hk hrow hid
  rw [registersSafely, hreg, Option.all_some, hnamed] at h
  exact of_decide_eq_true h

/-- The miner 7 is looked at, leaves and comes back to its slot; there are five tickets. -/
theorem tickets_distinct_sample :
    Deployed Tables.empty ∧ ∃ s, Run.Steps (StepWithoutReturn .whole) Tables.empty s ∧
      s.lottery.ex.activeCount1 = 5 ∧ s.miner2.size < 2 ^ 32 ∧
      RowsDistinct (fun k => s.mscore1.find (s.lottery.ex.activeScope, k))
        s.lottery.ex.activeCount1 := by
  obtain ⟨s, hs, hview⟩ := Checked.exists_of_map_eq_ok
    (x := runTested .whole (.permissive 5) .empty (fun s a _ => registersSafely s a) .empty
      (sampleCrowd ++ samplePass))
    (f := fun s => (s.lottery.ex.activeCount1, s.miner2.size)) (b := (5, 5)) (by decide +kernel)
  obtain ⟨hcount, hsize⟩ := Prod.mk.inj hview
  have hrun : Run.Steps (StepWithoutReturn .whole) Tables.empty s :=
    runTested_steps (fun a _ _ _ hsafe hcall => ⟨a, fun _ => returns_behind hsafe, hcall⟩) hs
  have hsmall : s.miner2.size < 2 ^ 32 := by
    rw [show s.miner2.size = 5 from hsize]
    decide
  exact ⟨.empty, s, hrun, hcount, hsmall, (tickets_distinct .empty hrun hsmall).1⟩

/-- Four miners; the first is scanned and leaves, another takes its place, and it
    comes back ahead of the scan. -/
def sampleReturn : List Action :=
  sampleCrowd ++ .onbuild 1 :: .delminer 7 0 5 :: enrol 12 ++ enrol 7 ++ [.onbuild 2]

/-- The miner 7 has the rows 1 and 5 of both buffers in use. -/
theorem two_tickets :
    ∃ s, Run.Steps (AnyStep .whole) Tables.empty s ∧
      ¬ RowsDistinct (fun k => s.mscore1.find (s.lottery.ex.activeScope, k))
        s.lottery.ex.activeCount1 ∧
      ¬ RowsDistinct (fun k => s.mscore2.find (s.lottery.ex.activeScope, k))
        s.lottery.ex.activeCount2 := by
  obtain ⟨s, hs, hview⟩ := Checked.exists_of_map_eq_ok
    (x := runActions .whole (.permissive 5) .empty .empty sampleReturn)
    (f := fun s => ([s.mscore1.find (s.lottery.ex.activeScope, 1),
      s.mscore1.find (s.lottery.ex.activeScope, 5), s.mscore2.find (s.lottery.ex.activeScope, 1),
      s.mscore2.find (s.lottery.ex.activeScope, 5)],
      [s.lottery.ex.activeCount1, s.lottery.ex.activeCount2]))
    (b := ([some ⟨7, 66438⟩, some ⟨7, 332190⟩, some ⟨7, 3⟩, some ⟨7, 15⟩], [5, 5]))
    (by decide +kernel)
  simp only [Prod.mk.injEq, List.cons.injEq, and_true] at hview
  obtain ⟨⟨h1, h5, h1', h5'⟩, hcount1, hcount2⟩ := hview
  refine ⟨s, runActions_steps (fun _ _ => trivial) hs, fun hd => ?_, fun hd => ?_⟩
  · rw [hcount1] at hd
    exact absurd (hd 1 5 _ _ (by decide) (by decide) (by decide) (by decide) h1 h5 rfl) (by decide)
  · rw [hcount2] at hd
    exact absurd (hd 1 5 _ _ (by decide) (by decide) (by decide) (by decide) h1' h5' rfl)
      (by decide)

end YottaChain.HddPool
