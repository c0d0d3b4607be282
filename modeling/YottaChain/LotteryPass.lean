/-
  **No miner is starved by a rebuild.**

  A pass begins when the scan stands at the first internal id and ends with the
  call that exchanges the buffers.  While it goes on, miners come, go and change,
  the table of internal ids grows, and freed ids are taken again.  A miner that
  stays, however, keeps its id, the scan comes by it exactly once, and the call
  in which that happens writes one row into each buffer.

  `Tracked` follows one miner through a pass: before the scan reaches its id it
  has no ticket; afterwards it has one in each list, with the weights it had in
  the state of the call.  The law of the internal ids needs fewer than `2 ^ 32`
  rows, and so does the result: `starved_miner` is a pass over a longer table
  that leaves out a miner which qualifies all the time.
-/
import YottaChain.LotteryTickets

namespace YottaChain.HddPool

open Checked Ladder FixedWidth List UInt64

/-! ## 1. Passes -/

def Qualifies (s : Tables) (m : UInt64) : Prop :=
  ∃ row, s.miner.find m = some row ∧ row.internalId ≠ 0 ∧ row.status = 0 ∧
    65536 ≤ row.maxSpace ∧ 1 ≤ share1 row

/-- Successful calls that do not exchange the buffers, with the states they pass
    through. -/
inductive Scanning (fp : Doubles) (s : Tables) : List Tables → Tables → Prop
  | start : Scanning fp s [s] s
  | next {l u v} (h : Scanning fp s l u) (hstep : AnyStep fp u v)
      (hside : v.lottery.ex.currentS = u.lottery.ex.currentS) : Scanning fp s (l ++ [v]) v

/-- A pass from `s` through the states `l`; its last call publishes the tables of
    `t`. -/
structure Pass (fp : Doubles) (s : Tables) (l : List Tables) (t : Tables) : Prop where
  start : s.lottery.ex.buildProcId = 1
  finish : ∃ u, Scanning fp s l u ∧ AnyStep fp u t ∧ t.lottery.ex.currentS ≠ u.lottery.ex.currentS

/-- In the states `l` the scan goes past the id of the miner in the call made in
    `v`, where the miner has the row `row`. -/
def VisitedIn (l : List Tables) (m : UInt64) (v : Tables) (row : Miner) : Prop :=
  v.miner.find m = some row ∧ ∃ l₁ l₂, l = l₁ ++ v :: l₂ ∧
    v.lottery.ex.buildProcId.toNat ≤ row.internalId.toNat ∧
    ∀ u ∈ l₂, row.internalId.toNat < u.lottery.ex.buildProcId.toNat

variable {fp : Doubles} {s u : Tables} {l : List Tables}

theorem Scanning.last (h : Scanning fp s l u) : ∃ l0, l = l0 ++ [u] := by
  cases h with
  | start => exact ⟨[], rfl⟩
  | next => exact ⟨_, rfl⟩

theorem Scanning.mem (h : Scanning fp s l u) : u ∈ l := by
  obtain ⟨l0, rfl⟩ := h.last
  simp

theorem Scanning.steps (h : Scanning fp s l u) : Run.Steps (AnyStep fp) s u := by
  induction h with
  | start => exact .refl
  | next _ hstep _ ih => exact ih.tail hstep

theorem steps_size_le (h : Run.Steps (AnyStep fp) s u) : s.miner2.size ≤ u.miner2.size := by
  refine Run.invariant (P := fun u => s.miner2.size ≤ u.miner2.size) ?_ (Nat.le_refl _) h
  intro u v hle hstep
  obtain ⟨a, _, he⟩ := hstep.effect
  exact hle.trans he.miner2_size_le

/-! ## 2. Following one miner -/

def Absent (m : UInt64) (l : List Ticket) : Prop := ∀ t ∈ l, t.1 ≠ m

/-- The list has one ticket of the miner, and its weight is `w`. -/
def Once (m : UInt64) (w : ℕ) (l : List Ticket) : Prop :=
  ∃ l₁ t l₂, l = l₁ ++ t :: l₂ ∧ t.1 = m ∧ t.2.toNat = w ∧ Absent m l₁ ∧ Absent m l₂

theorem Absent.nil (m : UInt64) : Absent m [] := by
  intro t ht
  cases ht

variable {m : UInt64} {l' : List Ticket}

theorem Absent.append {l : List Ticket} (h : Absent m l) (h' : Absent m l') : Absent m (l ++ l') :=
  forall_mem_append.mpr ⟨h, h'⟩

variable {w : ℕ}

theorem Once.append {l : List Ticket} (h : Once m w l) (h' : Absent m l') : Once m w (l ++ l') := by
  obtain ⟨l₁, t, l₂, rfl, hm, hw, h1, h2⟩ := h
  exact ⟨l₁, t, l₂ ++ l', by simp, hm, hw, h1, h2.append h'⟩

theorem Absent.once {l : List Ticket} (h : Absent m l) {w : UInt64} {n : ℕ} (hw : w.toNat = n) :
    Once m n (l ++ [(m, w)]) :=
  ⟨l, (m, w), [], rfl, rfl, hw, h, .nil m⟩

/-- Where the miner stands in a pass: the scan has not come to its id, or it came
    by once. -/
inductive Tracked (m : UInt64) (id : UInt32) (l : List Tables) (r : Round) : Prop
  | ahead (hle : r.proc.toNat ≤ id.toNat) (h1 : Absent m r.drawn1) (h2 : Absent m r.drawn2)
  | behind (hlt : id.toNat < r.proc.toNat) (v : Tables) (row : Miner)
      (hvisit : VisitedIn l m v row) (hid : row.internalId = id)
      (h1 : Once m (share1 row) r.drawn1) (h2 : Once m (share2 row) r.drawn2)

variable {r : Round}

theorem Tracked.extend {id : UInt32} (h : Tracked m id l r) (hu : u.lottery.ex.buildProcId = r.proc)
    : Tracked m id (l ++ [u]) r := by
  rcases h with ⟨hle, h1, h2⟩ | ⟨hlt, v, row, ⟨hrow, l₁, l₂, rfl, hv, hlater⟩, hid, h1, h2⟩
  · exact .ahead hle h1 h2
  · refine .behind hlt v row ⟨hrow, l₁, l₂ ++ [u], by simp, hv, ?_⟩ hid h1 h2
    refine forall_mem_append.mpr ⟨hlater, forall_mem_singleton.mpr ?_⟩
    rw [hu, hid]
    exact hlt

section Scan

variable {s : Tables} {m : UInt64} {id : UInt32} {l : List Tables} {r : Round} {k : UInt64}

section

variable (hl : SlotsLaw s.slots s.miner) (hid : idOf s.miner m = some id) (hk : k.toNat ≠ id.toNat)

include hl hid hk

theorem entrant_ne {m' : UInt64} {row : Miner} (h : entrant s k = some (m', row)) : m' ≠ m := by
  rintro rfl
  obtain ⟨id', hid', hk'⟩ := entrant_id hl h
  rw [hid] at hid'
  cases hid'
  apply hk
  rw [← hk', UInt32.toNat_toUInt64]

theorem absent_tickets1 : Absent m (tickets1 s k) := by
  intro t ht
  obtain ⟨row, hin, _⟩ := mem_tickets1.mp ht
  exact entrant_ne hl hid hk hin

theorem absent_tickets2 : Absent m (tickets2 s k) := by
  intro t ht
  obtain ⟨row, hin, _⟩ := mem_tickets2.mp ht
  exact entrant_ne hl hid hk hin

end

theorem Qualifies.tickets (hq : Qualifies s m) (hs : Synced s) (hlevels : Levels s)
    (hl : SlotsLaw s.slots s.miner) (hid : idOf s.miner m = some id) :
    ∃ row w1 w2, s.miner.find m = some row ∧ row.internalId = id ∧
      tickets1 s id.toUInt64 = [(m, w1)] ∧ w1.toNat = share1 row ∧
      tickets2 s id.toUInt64 = [(m, w2)] ∧ w2.toNat = share2 row := by
  obtain ⟨row, hrow, hne, hstatus, hmax, hw⟩ := hq
  have hrowid : row.internalId = id := by
    rw [idOf, hrow] at hid
    exact Option.some.inj hid
  obtain ⟨slot, hslot, hmid⟩ := hl.owned m id hid (hrowid ▸ hne)
  have hm : m ≠ 0 := by
    rintro rfl
    rw [hl.zero] at hid
    cases hid
  have hpos : 0 < row.maxSpace := UInt64.lt_of_lt_of_le (by decide) hmax
  have hin : entrant s id.toUInt64 = some (m, row) :=
    entrant_eq_some.mpr ⟨slot, hslot, hmid, hm, hrow, hstatus, hpos⟩
  have hw1 := weight1_toNat (hs.bounds hrow).1 (hlevels m row hrow)
  refine ⟨row, weight1 row, weight2 row, hrow, hrowid, ?_, hw1, ?_,
    weight2_toNat (hs.bounds hrow).2⟩
  · rw [tickets1, hin]
    refine if_pos (lt_iff_toNat_lt.mpr ?_)
    rw [hw1]
    exact hw
  · rw [tickets2, hin]

theorem Tracked.scan (h : Tracked m id (l ++ [s]) r) (hq : Qualifies s m) (hs : Synced s)
    (hlevels : Levels s) (hl : SlotsLaw s.slots s.miner) (hid : idOf s.miner m = some id)
    (hfrom : s.lottery.ex.buildProcId.toNat ≤ r.proc.toNat)
    (hsucc : (r.proc + 1).toNat = r.proc.toNat + 1) : Tracked m id (l ++ [s]) (r.scan s) := by
  have hproc : (r.scan s).proc.toNat = r.proc.toNat + 1 := hsucc
  rcases h with ⟨hle, h1, h2⟩ | ⟨hlt, v, row, hvisit, hrowid, h1, h2⟩
  · by_cases heq : r.proc.toNat = id.toNat
    · -- the scan meets the miner
      have hk : r.proc = id.toUInt64 := by
        apply UInt64.toNat_inj.mp
        rw [heq, UInt32.toNat_toUInt64]
      obtain ⟨row, w1, w2, hrow, hrowid, ht1, hw1, ht2, hw2⟩ := hq.tickets hs hlevels hl hid
      refine .behind (by omega) s row ⟨hrow, l, [], rfl, ?_, ?_⟩ hrowid ?_ ?_
      · rw [hrowid]
        omega
      · intro u hu
        cases hu
      · show Once m (share1 row) (r.drawn1 ++ tickets1 s r.proc)
        rw [hk, ht1]
        exact h1.once hw1
      · show Once m (share2 row) (r.drawn2 ++ tickets2 s r.proc)
        rw [hk, ht2]
        exact h2.once hw2
    · exact .ahead (by omega) (h1.append (absent_tickets1 hl hid heq))
        (h2.append (absent_tickets2 hl hid heq))
  · have hne : r.proc.toNat ≠ id.toNat := by omega
    exact .behind (by omega) v row hvisit hrowid (h1.append (absent_tickets1 hl hid hne))
      (h2.append (absent_tickets2 hl hid hne))

end Scan

/-! ## 3. A whole pass -/

theorem publish_side_ne (r : Round) : r.publish.side ≠ r.side := by
  show (if r.side = 0 then 1 else 0) ≠ r.side
  by_cases hs : r.side = 0
  · simp [hs]
  · simpa [hs] using Ne.symm hs

def Published (m : UInt64) (l : List Tables) (r : Round) : Prop :=
  ∃ v row, VisitedIn l m v row ∧ Once m (share1 row) r.active1 ∧ Once m (share2 row) r.active2

/-- What is known of the miner after the states `l` of a pass. -/
structure Follows (m : UInt64) (l : List Tables) (u : Tables) (id : UInt32) (r : Round) :
    Prop where
  law : LotteryLaw u r
  allocator : Allocator u
  found : idOf u.miner m = some id
  tracked : Tracked m id l r

theorem Qualifies.id (hq : Qualifies s m) : ∃ id, idOf s.miner m = some id ∧ 1 ≤ id.toNat := by
  obtain ⟨row, hrow, hne, _⟩ := hq
  refine ⟨row.internalId, by rw [idOf, hrow]; rfl, ?_⟩
  have hne' : row.internalId.toNat ≠ 0 := fun h => hne (UInt32.toNat_inj.mp h)
  omega

theorem SlotsLaw.id_le {t : Slots} {miner : Table UInt64 Miner} (h : SlotsLaw t miner) {id : UInt32}
    (hid : idOf miner m = some id) : id.toNat ≤ t.head.maxTableCount.toNat := by
  by_cases h0 : id = 0
  · rw [h0]
    exact Nat.zero_le _
  · obtain ⟨slot, hslot, _⟩ := h.owned m id hid h0
    have hrow := (h.rows id.toUInt64).mp (by rw [hslot]; rfl)
    rw [UInt32.toNat_toUInt64] at hrow
    exact hrow.2

theorem Follows.start (hlaw : LotteryLaw s r) (halloc : Allocator s)
    (hproc : s.lottery.ex.buildProcId = 1) (hq : Qualifies s m) : ∃ id, Follows m [s] s id r := by
  obtain ⟨id, hid, hpos⟩ := hq.id
  have hr : r.proc = 1 := hlaw.runs.shows.proc.symm.trans hproc
  have hone : r.proc.toNat = 1 := by rw [hr]; rfl
  have h1 := hlaw.runs.bounded.fits.drawn1
  have h2 := hlaw.runs.bounded.fits.drawn2
  refine ⟨id, hlaw, halloc, hid, .ahead (by omega) ?_ ?_⟩
  · rw [length_eq_zero_iff.mp (show r.drawn1.length = 0 by omega)]
    exact .nil m
  · rw [length_eq_zero_iff.mp (show r.drawn2.length = 0 by omega)]
    exact .nil m

variable {g : Miner2Ex}

theorem Follows.build {id : UInt32} (h : Follows m (l ++ [u]) u id r) (hq : Qualifies u m)
    (hex : u.miner2ex = some g) (hsmall : u.miner2.size < 2 ^ 32) :
    (r.build u g.maxTableCount).side = r.side ∧
        Tracked m id (l ++ [u]) (r.build u g.maxTableCount) ∨
      (r.build u g.maxTableCount).side ≠ r.side ∧
        Published m (l ++ [u]) (r.build u g.maxTableCount) := by
  have hhead : u.slots.head = g := by simp [Slots.head, Tables.slots, hex]
  have hcounted : u.slots.head.maxTableCount.toNat ≤ u.miner2.size := h.law.runs.counted
  have hle := h.allocator.law.id_le h.found
  rw [hhead] at hcounted hle
  have hmax : g.maxTableCount.toNat + 1 < 2 ^ 64 := by omega
  have hrule := Round.build_rule (s := u) (m := g.maxTableCount) (r := r)
    (P := fun x => x.side = r.side ∧ r.proc.toNat ≤ x.proc.toNat ∧ Tracked m id (l ++ [u]) x)
    (Q := fun x => x.side ≠ r.side ∧ Published m (l ++ [u]) x) ?_ ?_
    ⟨rfl, Nat.le_refl _, h.tracked⟩
  · rcases hrule with ⟨hside, _, htracked⟩ | hpublished
    · exact .inl ⟨hside, htracked⟩
    · exact .inr hpublished
  · rintro x ⟨hside, hfrom, htracked⟩ hx
    have hsucc := toNat_succ_proc hmax hx
    refine ⟨hside, ?_, ?_⟩
    · show r.proc.toNat ≤ (x.proc + 1).toNat
      omega
    · refine htracked.scan hq h.law.registry.synced h.law.levels h.allocator.law h.found ?_ hsucc
      rw [h.law.runs.shows.proc]
      exact hfrom
  · rintro x ⟨hside, _, htracked⟩ hx
    refine ⟨fun heq => publish_side_ne x (heq.trans hside.symm), ?_⟩
    -- the scan has passed the whole table, and with it the id of the miner
    have hx' := lt_iff_toNat_lt.mp hx
    rcases htracked with ⟨hahead, _, _⟩ | ⟨_, v, row, hvisit, _, h1, h2⟩
    · omega
    · exact ⟨v, row, hvisit, h1, h2⟩

theorem Follows.step {v : Tables} {id : UInt32} (h : Follows m (l ++ [u]) u id r)
    (hq : Qualifies u m) (hstep : AnyStep fp u v) (hsmall : v.miner2.size < 2 ^ 32) :
    ∃ r', LotteryLaw v r' ∧ Allocator v ∧
      (∀ id', idOf v.miner m = some id' → id' = id) ∧
      (r'.side = r.side ∧ Tracked m id (l ++ [u]) r' ∨
        r'.side ≠ r.side ∧ Published m (l ++ [u]) r') := by
  obtain ⟨a, _, he⟩ := hstep.effect
  have hsize := he.miner2_size_le
  obtain ⟨r', hlaw, hturn⟩ := h.law.effect he (by omega)
  refine ⟨r', hlaw, h.allocator.effect he hsmall, ?_, ?_⟩
  · intro id' hid'
    rcases he.idOf_cases h.law.registry.synced hid' with hold | ⟨hnone, _⟩
    · exact Option.some.inj (hold.symm.trans h.found)
    · rw [h.found] at hnone
      cases hnone
  · cases hturn with
    | still => exact .inl ⟨rfl, h.tracked⟩
    | build g hex => exact h.build hq hex (by omega)

theorem Scanning.follows (h : Scanning fp s l u) (hlaw : LotteryLaw s r) (halloc : Allocator s)
    (hproc : s.lottery.ex.buildProcId = 1) (hq : ∀ v ∈ l, Qualifies v m)
    (hsmall : u.miner2.size < 2 ^ 32) : ∃ id r', Follows m l u id r' := by
  induction h with
  | start =>
    obtain ⟨id, hid⟩ := Follows.start hlaw halloc hproc (hq s (mem_singleton.mpr rfl))
    exact ⟨id, r, hid⟩
  | @next l u v hscan hstep hside ih =>
    obtain ⟨a, _, he⟩ := hstep.effect
    have hsize := he.miner2_size_le
    have hq' : ∀ x ∈ l, Qualifies x m := fun x hx => hq x (mem_append_left _ hx)
    obtain ⟨id, r', hfollows⟩ := ih hq' (by omega)
    obtain ⟨l0, rfl⟩ := hscan.last
    obtain ⟨r'', hlaw', halloc', hids, hcases⟩ := hfollows.step (hq' u hscan.mem) hstep hsmall
    obtain ⟨id', hid', _⟩ := (hq v (by simp)).id
    rw [hids id' hid'] at hid'
    have hsame : r''.side = r'.side := by
      rw [← hlaw'.runs.shows.side, ← hfollows.law.runs.shows.side]
      exact hside
    rcases hcases with ⟨_, htracked⟩ | ⟨hne, _⟩
    · exact ⟨id, r'', hlaw', halloc', hid', htracked.extend hlaw'.runs.shows.proc⟩
    · exact absurd hsame hne

/-! ## 4. The published rows -/

/-- Exactly one of the rows `1 .. count` belongs to the miner, and its range is
    `w` above the range before it. -/
def OneRow (find : UInt64 → Option MScore) (count m : UInt64) (w : ℕ) : Prop :=
  ∃ k row, 1 ≤ k ∧ k ≤ count ∧ find k = some row ∧ row.minerid = m ∧
    (lastRange find (k - 1)).toNat + w = row.range.toNat ∧
    ∀ j row', 1 ≤ j → j ≤ count → find j = some row' → row'.minerid = m → j = k

theorem Once.index {l₁ l₂ : List Ticket} {t t' : Ticket} (h1 : Absent m l₁) (h2 : Absent m l₂)
    {i : ℕ} (hget : (l₁ ++ t :: l₂)[i]? = some t') (ht' : t'.1 = m) : i = l₁.length := by
  rcases Nat.lt_trichotomy i l₁.length with hlt | heq | hgt
  · rw [getElem?_append_left hlt] at hget
    exact absurd ht' (h1 t' (mem_of_getElem? hget))
  · exact heq
  · obtain ⟨d, rfl⟩ : ∃ d, i = l₁.length + (d + 1) := ⟨i - l₁.length - 1, by omega⟩
    rw [getElem?_append_right (by omega), Nat.add_sub_cancel_left,
      getElem?_cons_succ] at hget
    exact absurd ht' (h2 t' (mem_of_getElem? hget))

variable {t : Table (Scope × UInt64) MScore} {scope : Scope} {count : UInt64} {P : UInt64 → Prop}

theorem oneRow_of_once {l : List Ticket} (h : Rungs (rungs t scope) l)
    (hcount : count.toNat = l.length) (hwrap : height (weights l) l.length < 2 ^ 64)
    (honce : Once m w l) : OneRow (fun k => t.find (scope, k)) count m w := by
  obtain ⟨l₁, ⟨m', w'⟩, l₂, rfl, rfl, rfl, h₁, h2⟩ := honce
  have hlt := count.toNat_lt
  have hlen : l₁.length < (l₁ ++ (m', w') :: l₂).length := by simp
  have hget : (l₁ ++ (m', w') :: l₂)[l₁.length]? = some (m', w') := by simp
  have hk : (UInt64.ofNat (l₁.length + 1)).toNat = l₁.length + 1 :=
    toNat_ofNat_of_lt' (by rw [UInt64.size]; omega)
  have hpred : (UInt64.ofNat (l₁.length + 1) - 1).toNat = l₁.length := by
    rw [toNat_sub_of_le (one_le_iff.mpr (by omega)), hk]
    rfl
  obtain ⟨m'', w'', hget', hrow⟩ := rung_row h (k := UInt64.ofNat (l₁.length + 1)) (by omega)
    (by omega)
  rw [hk, Nat.add_sub_cancel, hget] at hget'
  cases hget'
  refine ⟨_, _, one_le_iff.mpr (by omega), le_iff_toNat_le.mpr (by omega), hrow, rfl, ?_, ?_⟩
  · have hweights : (weights (l₁ ++ (m', w') :: l₂))[l₁.length]? = some (m', w'.toNat) := by
      rw [weights, getElem?_map, hget]
      rfl
    rw [lastRange_of_rungs h (by omega), hpred, hk, toNat_height hwrap _ (by omega),
      toNat_height hwrap _ (by omega), height_succ hweights]
  · intro j row' h1 hj hfind hm
    have hj' := le_iff_toNat_le.mp hj
    have h1' := one_le_iff.mp h1
    obtain ⟨m2, w2, hget2, hfind2⟩ := rung_row h h1' (by omega)
    dsimp only at hfind
    rw [hfind] at hfind2
    cases hfind2
    have hidx := Once.index h₁ h2 hget2 hm
    apply UInt64.toNat_inj.mp
    omega

/-- Every pass of a run from an empty deployment, with fewer than `2 ^ 32` internal
    ids: a miner that qualifies in all states of the pass has exactly one row in
    each of the buffers it publishes, and the weight of the row is the one the
    miner had when the scan came by. -/
theorem no_miner_starved {fp : Doubles} {s₀ s t : Tables} {l : List Tables} (h₀ : Deployed s₀)
    (hrun : Run.Steps (AnyStep fp) s₀ s) (hpass : Pass fp s l t)
    (hsmall : t.miner2.size < 2 ^ 32) {m : UInt64} (hq : ∀ v ∈ l, Qualifies v m) :
    ∃ v row, VisitedIn l m v row ∧
      OneRow (fun k => t.mscore1.find (t.lottery.ex.activeScope, k)) t.lottery.ex.activeCount1 m
        (share1 row) ∧
      OneRow (fun k => t.mscore2.find (t.lottery.ex.activeScope, k)) t.lottery.ex.activeCount2 m
        (share2 row) := by
  obtain ⟨u, hscan, hlast, hflip⟩ := hpass.finish
  obtain ⟨a, _, he⟩ := hlast.effect
  have hle := he.miner2_size_le
  have hsize := steps_size_le hscan.steps
  obtain ⟨r, hlaw⟩ := h₀.law.run hrun (by omega)
  have halloc := h₀.allocator.run hrun (by omega)
  obtain ⟨id, r', hfollows⟩ := hscan.follows hlaw halloc hpass.start hq (by omega)
  obtain ⟨l₀, rfl⟩ := hscan.last
  obtain ⟨r'', hlaw', _, _, hcases⟩ := hfollows.step (hq u hscan.mem) hlast hsmall
  have hne : r''.side ≠ r'.side := by
    rw [← hlaw'.runs.shows.side, ← hfollows.law.runs.shows.side]
    exact hflip
  rcases hcases with ⟨heq, _⟩ | ⟨_, v, row, hvisit, h1, h2⟩
  · exact absurd heq hne
  · have hb := hlaw'.runs.bounded
    have hcounted : t.slots.head.maxTableCount.toNat ≤ t.miner2.size := hlaw'.runs.counted
    have hlen1 := hb.active1
    have hlen2 := hb.active2
    have hshows := hlaw'.runs.shows
    exact ⟨v, row, hvisit,
      oneRow_of_once hshows.table1.active hshows.table1.count
        (hlaw'.priced.active1.height_lt (by omega)) h1,
      oneRow_of_once hshows.table2.active hshows.table2.count
        (hlaw'.priced.active2.height_lt (by omega)) h2⟩

/-- The states that the calls lead to. -/
def trace (fp : Doubles) (c : Ctx) (v : Views) : Tables → List Action → Checked (List Tables)
  | _, [] => .ok []
  | s, a :: rest => do
      let r ← apply fp c v s a
      let l ← trace fp c v r.1 rest
      pure (r.1 :: l)

theorem scanning_of_trace {c : Ctx} {v : Views} {actions : List Action} {s0 : Tables}
    (l0 : List Tables) (h0 : Scanning fp s0 (l0 ++ [s]) s)
    (h : trace fp c v s actions = .ok l)
    (hside : ∀ u ∈ l, u.lottery.ex.currentS = s.lottery.ex.currentS) :
    Scanning fp s0 (l0 ++ s :: l) (l.getLast?.getD s) := by
  induction actions generalizing s l l0 with
  | nil =>
    cases h
    exact h0
  | cons a _ ih =>
    simp only [trace, Checked.ok_iff] at h
    obtain ⟨⟨s1, sent⟩, hcall, l1, hrest, rfl⟩ := h
    have hs1 := hside s1 mem_cons_self
    have hnext := ih (l0 ++ [s]) (h0.next ⟨a, trivial, c, v, sent, hcall⟩ hs1) hrest
      fun u hu => (hside u (mem_cons_of_mem _ hu)).trans hs1.symm
    rw [append_assoc] at hnext
    rw [getLast?_cons, Option.getD_some]
    exact hnext

def qualifies (s : Tables) (m : UInt64) : Bool :=
  (s.miner.find m).any fun row =>
    row.internalId ≠ 0 ∧ row.status = 0 ∧ 65536 ≤ row.maxSpace ∧ 1 ≤ share1 row

theorem qualifies_spec {s : Tables} {m : UInt64} (h : qualifies s m = true) : Qualifies s m := by
  unfold qualifies at h
  cases hrow : s.miner.find m with
  | none =>
    rw [hrow] at h
    cases h
  | some row =>
    rw [hrow, Option.any_some] at h
    exact ⟨row, hrow, of_decide_eq_true h⟩

/-- The miner 11 has the last id when the pass begins.  Between the two calls another miner
    leaves and comes back, and one is new. -/
theorem no_miner_starved_sample :
    Deployed Tables.empty ∧ ∃ s l t, Run.Steps (AnyStep .whole) Tables.empty s ∧
      Pass .whole s l t ∧ l.length = 7 ∧ t.miner2.size < 2 ^ 32 ∧ (∀ v ∈ l, Qualifies v 11) ∧
      ∃ row, OneRow (fun k => t.mscore1.find (t.lottery.ex.activeScope, k))
        t.lottery.ex.activeCount1 11 (share1 row) := by
  obtain ⟨s, hs, hview⟩ := Checked.exists_of_map_eq_ok
    (x := runActions .whole (.permissive 5) .empty .empty sampleCrowd)
    (f := fun s => (s.lottery.ex.buildProcId,
      (trace .whole (.permissive 5) .empty s (samplePass.take 6)).bind fun l =>
        (apply .whole (.permissive 5) .empty (l.getLast?.getD s) (.onbuild 2)).map fun r =>
          (l.length, (s :: l).all fun v => v.lottery.ex.currentS = 0 ∧ qualifies v 11 = true,
            r.1.lottery.ex.currentS, r.1.miner2.size)))
    (b := (1, .ok (6, true, 1, 5))) (by decide +kernel)
  obtain ⟨hproc, hview⟩ := Prod.mk.inj hview
  obtain ⟨l, hl, hview⟩ := Checked.bind_eq_ok.mp hview
  obtain ⟨⟨t, sent⟩, ht, hview⟩ := Checked.exists_of_map_eq_ok hview
  simp only [Prod.mk.injEq, all_eq_true, decide_eq_true_eq] at hview
  obtain ⟨hlength, hall, hflip, hsize⟩ := hview
  have hside := (hall s mem_cons_self).1
  have hscan : Scanning .whole s (s :: l) (l.getLast?.getD s) :=
    scanning_of_trace [] .start hl fun u hu =>
      (hall u (mem_cons_of_mem _ hu)).1.trans hside.symm
  have hpass : Pass .whole s (s :: l) t := by
    refine ⟨hproc, _, hscan, ⟨.onbuild 2, trivial, _, _, sent, ht⟩, ?_⟩
    rw [hflip, (hall _ hscan.mem).1]
    decide
  have hrun : Run.Steps (AnyStep .whole) Tables.empty s := runActions_steps (fun _ _ => trivial) hs
  have hsmall : t.miner2.size < 2 ^ 32 := by
    rw [hsize]
    decide
  have hq : ∀ v ∈ s :: l, Qualifies v 11 := fun v hv => qualifies_spec (hall v hv).2
  obtain ⟨v, row, _, hone, _⟩ := no_miner_starved .empty hrun hpass hsmall hq
  exact ⟨.empty, s, s :: l, t, hrun, hpass, congrArg Nat.succ hlength, hsmall, hq, row, hone⟩

/-! ## 5. Beyond the bound -/

/-- Every collected ticket is of a miner with the property, and so is every miner
    in the table of internal ids. -/
structure Round.Only (P : UInt64 → Prop) (r : Round) : Prop where
  drawn1 : ∀ t ∈ r.drawn1, P t.1
  drawn2 : ∀ t ∈ r.drawn2, P t.1

def Listed (P : UInt64 → Prop) (s : Tables) : Prop :=
  ∀ k slot, 1 ≤ k.toNat → s.miner2.find k = some slot → slot.minerid ≠ 0 → P slot.minerid

theorem Round.Only.scan (h : r.Only P) (hs : Listed P s) (hpos : 1 ≤ r.proc.toNat) :
    (r.scan s).Only P := by
  have hentrant : ∀ m row, entrant s r.proc = some (m, row) → P m := by
    intro m row hin
    obtain ⟨slot, hslot, rfl, hne, _⟩ := entrant_eq_some.mp hin
    exact hs r.proc slot hpos hslot hne
  constructor
  · refine forall_mem_append.mpr ⟨h.drawn1, fun t ht => ?_⟩
    obtain ⟨row, hin, _⟩ := mem_tickets1.mp ht
    exact hentrant t.1 row hin
  · refine forall_mem_append.mpr ⟨h.drawn2, fun t ht => ?_⟩
    obtain ⟨row, hin, _⟩ := mem_tickets2.mp ht
    exact hentrant t.1 row hin

/-- A call of the builder goes on with the scan or publishes what it collected. -/
theorem Round.Only.build (h : r.Only P) (hs : Listed P s) (hpos : 1 ≤ r.proc.toNat) {max : UInt64}
    (hmax : max.toNat + 1 < 2 ^ 64) :
    ((r.build s max).Only P ∧ (r.build s max).side = r.side ∧
        r.proc.toNat < (r.build s max).proc.toNat) ∨
      ∃ r' : Round, r'.Only P ∧ r'.side = r.side ∧ r.build s max = r'.publish := by
  rw [Round.build]
  by_cases hend : max < r.proc
  · rw [if_pos hend]
    exact .inr ⟨r, h, rfl, rfl⟩
  rw [if_neg hend, Round.scans]
  have hsucc : (r.scan s).proc.toNat = r.proc.toNat + 1 :=
    toNat_succ_proc hmax (UInt64.not_lt.mp hend)
  by_cases hend' : max < (r.scan s).proc
  · rw [if_pos hend']
    exact .inr ⟨r.scan s, h.scan hs hpos, rfl, rfl⟩
  · rw [if_neg hend']
    refine Round.scans_rule
      (P := fun x => x.Only P ∧ x.side = r.side ∧ r.proc.toNat < x.proc.toNat)
      (Q := fun x => ∃ r' : Round, r'.Only P ∧ r'.side = r.side ∧ x = r'.publish) ?_ ?_ 2
      ⟨h.scan hs hpos, rfl, by omega⟩ (UInt64.not_lt.mp hend')
    · rintro x ⟨hx, hside, hlt⟩ hle
      have hsucc' : (x.scan s).proc.toNat = x.proc.toNat + 1 := toNat_succ_proc hmax hle
      exact ⟨hx.scan hs (by omega), hside, by omega⟩
    · rintro x ⟨hx, hside, _⟩ _
      exact ⟨x, hx, hside, rfl⟩

theorem SameRegistry.trans {t : Tables} (h : SameRegistry s t) (h' : SameRegistry t u) :
    SameRegistry s u :=
  ⟨h'.maccount.trans h.maccount, h'.storepool.trans h.storepool, h'.minerinfo.trans h.minerinfo,
    h'.miner.trans h.miner, h'.miner2.trans h.miner2, h'.miner2ex.trans h.miner2ex,
    h'.counterstat.trans h.counterstat⟩

/-- If nothing but the builder is called, a pass comes to its end. -/
theorem Scanning.finish {Q : Tables → Prop} (n : ℕ) (h : Scanning fp s l u) (hgood : ∀ x ∈ l, Q x)
    (hsame : ∀ x, SameRegistry u x → Q x) (hP : Listed P u) (hex : u.miner2ex = some g)
    (hmax : g.maxTableCount.toNat + 1 < 2 ^ 64) (hparam : u.newmparam.isSome) (hr : Runs u r)
    (honly : r.Only P) (hn : g.maxTableCount.toNat + 1 < r.proc.toNat + n) :
    ∃ l' v t, ∃ r' : Round, Scanning fp s l' v ∧ AnyStep fp v t ∧
      t.lottery.ex.currentS ≠ v.lottery.ex.currentS ∧ (∀ x ∈ l', Q x) ∧ SameRegistry u t ∧
      t.newmparam.isSome ∧ Runs t r'.publish ∧ r'.Only P := by
  have hhead : u.slots.head = g := by simp [Slots.head, Tables.slots, hex]
  have hle := hr.bounded.proc_le
  have hpos := hr.bounded.fits.drawn1
  rw [hhead] at hle
  induction n generalizing l u r with
  | zero => omega
  | succ n ih =>
    obtain ⟨u', hstep, hreg, hparam', hruns⟩ := hr.call fp hparam hex hmax
    rcases honly.build hP (by omega) hmax with ⟨honly', hside, hlt⟩ | ⟨r', honly', hside, heq⟩
    · have hcur : u'.lottery.ex.currentS = u.lottery.ex.currentS := by
        rw [hruns.shows.side, hr.shows.side]
        exact hside
      have hhead' : u'.slots.head = g := by
        simp [Slots.head, Tables.slots, hreg.miner2ex, hex]
      have hle' := hruns.bounded.proc_le
      rw [hhead'] at hle'
      obtain ⟨l', v, t, r', hscan, hlast, hne, hgood', hreg', hrest⟩ := ih (h.next hstep hcur)
        (forall_mem_append.mpr ⟨hgood, forall_mem_singleton.mpr (hsame u' hreg)⟩)
        (fun x hx => hsame x (hreg.trans hx))
        (by
          intro k slot hk hslot
          rw [hreg.miner2] at hslot
          exact hP k slot hk hslot)
        (hreg.miner2ex.trans hex) hparam' hruns honly' (by omega) hhead' hle'
        hruns.bounded.fits.drawn1
      exact ⟨l', v, t, r', hscan, hlast, hne, hgood', hreg.trans hreg', hrest⟩
    · rw [heq] at hruns
      refine ⟨l, u, u', r', h, hstep, ?_, hgood, hreg, hparam', hruns, honly'⟩
      rw [hruns.shows.side, hr.shows.side, ← hside]
      exact publish_side_ne r'

variable {k : UInt64} {row : Miner} {slot : Miner2}

theorem dropMiner_frees (hrow : s.miner.find k = some row) (hid : row.internalId.toUInt64 ≠ 0)
    (hex : s.miner2ex = some g) (hslot : s.miner2.find row.internalId.toUInt64 = some slot) :
    dropMiner s k = .ok { s with
      miner := s.miner.erase k
      miner2 := s.miner2.put row.internalId.toUInt64 ⟨0, g.nextId⟩
      miner2ex := some ⟨row.internalId.toUInt64, g.maxTableCount, g.maxMinerCount - 1⟩ } := by
  unfold dropMiner delMiner2
  rw [hrow, hex]
  simp only [if_neg hid, ok_iff]
  exact ⟨_, ⟨slot, hslot, rfl⟩, rfl⟩

/-- The deletion of a miner of the fund, which frees the row of its internal id. -/
theorem delminer_eco {info : MinerInfo} (hinfo : s.minerinfo.find k = some info)
    (howner : info.owner = ecologyfoundAcc) (hrow : s.miner.find k = some row)
    (hid : row.internalId.toUInt64 ≠ 0) (hex : s.miner2ex = some g)
    (hslot : s.miner2.find row.internalId.toUInt64 = some slot) :
    ∃ s' sent, delminer .whole (.permissive 5) s k 0 5 = .ok (s', sent) ∧
      s'.miner = s.miner.erase k ∧
      s'.miner2 = s.miner2.put row.internalId.toUInt64 ⟨0, g.nextId⟩ ∧
      s'.miner2ex = some ⟨row.internalId.toUInt64, g.maxTableCount, g.maxMinerCount - 1⟩ ∧
      s'.newmparam = s.newmparam ∧ s'.lottery = s.lottery := by
  have hunbind : ∃ accounts, unbindOwner .whole (.permissive 5) s k info.owner =
      .ok { s with maccount := accounts } := by
    unfold unbindOwner
    rw [if_neg (by rw [howner]; decide)]
    rcases hacc : s.maccount.find (info.owner, k) with _ | acc
    · exact ⟨s.maccount, rfl⟩
    · refine ⟨_, bind_eq_ok.mpr ⟨s.userhdd, ?_, rfl⟩⟩
      unfold chgOwnerSpaceIf chgOwnerSpace
      rw [if_pos howner]
      split <;> rfl
  obtain ⟨accounts, hunbind⟩ := hunbind
  let s1 : Tables := { s with
    maccount := accounts
    storepool := poolsAfterDelete s.storepool info
    minerinfo := s.minerinfo.erase k
    counterstat := totalAfter s.counterstat info.maxSpace false }
  have hdrop := dropMiner_frees (s := s1) hrow hid hex hslot
  simp only [delminer, delminerAuth, ok_iff, returnPoolSpace_eq]
  exact ⟨_, _, ⟨info, hinfo, (), rfl, _, hunbind, _, hdrop, rfl, rfl⟩, rfl, rfl, rfl, rfl, rfl⟩

theorem row_of_forall {l : List Ticket} (h : Rungs (rungs t scope) l)
    (hcount : count.toNat = l.length) (hl : ∀ x ∈ l, P x.1) {row : MScore} (h1 : 1 ≤ k)
    (hk : k ≤ count) (hrow : t.find (scope, k) = some row) : P row.minerid := by
  have hk' := le_iff_toNat_le.mp hk
  obtain ⟨m, w, hget, hfind⟩ := rung_row h (one_le_iff.mp h1) (by omega)
  rw [hrow] at hfind
  cases hfind
  exact hl (m, w) (mem_of_getElem? hget)

theorem qualifies_crowdMiner (hid : k.toUInt32 ≠ 0) (h : s.miner.find k = some (crowdMiner k)) :
    Qualifies s k := by
  refine ⟨_, h, hid, rfl, show 65536 ≤ minMinerSpace by decide, ?_⟩
  show 1 ≤ minMinerSpace.toNat / 65536 * defaulMinerLevel.toNat / 100
  decide

/-- Without a bound on the number of internal ids a miner can be starved.  Of
    `2 ^ 32 + 1` miners the last has the id of the first.  It is deleted at the
    beginning of a pass, the row of the first miner is freed, and the pass
    publishes no ticket of the first miner, which qualifies all the time. -/
theorem starved_miner :
    ∃ s l t, Run.Steps (AnyStep .whole) Tables.empty s ∧ Pass .whole s l t ∧
      (∀ v ∈ l, Qualifies v 1) ∧
      (∀ k row, 1 ≤ k → k ≤ t.lottery.ex.activeCount1 →
        t.mscore1.find (t.lottery.ex.activeScope, k) = some row → row.minerid ≠ 1) ∧
      (∀ k row, 1 ≤ k → k ≤ t.lottery.ex.activeCount2 →
        t.mscore2.find (t.lottery.ex.activeScope, k) = some row → row.minerid ≠ 1) := by
  obtain ⟨s1, hrun1, hcrowd⟩ := exists_crowd 4294967297 (by decide)
  obtain ⟨p, hstart⟩ := hcrowd.start (by decide)
  obtain ⟨g, hex, hmax⟩ := (hcrowd.lineup (by decide) p).head
  have hmaxn : g.maxTableCount.toNat = 4294967297 := by
    rw [hmax]
    rfl
  -- a first pass, so that the scan is set back to the first id
  obtain ⟨l1, v1, t1, r1, hscan1, hlast1, _, _, hreg1, hparam1, hruns1, _⟩ :=
    (Scanning.start : Scanning .whole { s1 with newmparam := some p } _ _).finish
      (P := fun _ => True) (Q := fun _ => True) 4294967299 (fun _ _ => trivial) (fun _ _ => trivial)
      (fun _ _ _ _ _ => trivial) hex (by omega) rfl (hcrowd.runs (by decide) _)
      ⟨fun _ _ => trivial, fun _ _ => trivial⟩ (by omega)
  -- the deletion of the last miner frees the row of the first
  obtain ⟨info, hinfo, howner⟩ := hcrowd.info 4294967297 (by decide) (by decide)
  have hrow : t1.miner.find 4294967297 = some (crowdMiner 4294967297) := by
    rw [hreg1.miner]
    exact hcrowd.miner _ (by decide) (by decide)
  have hfirst : t1.miner.find 1 = some (crowdMiner 1) := by
    rw [hreg1.miner]
    exact hcrowd.miner _ (by decide) (by decide)
  have hslot : t1.miner2.find 1 = some ⟨1, 0⟩ := by
    rw [hreg1.miner2]
    exact hcrowd.slot _ (by decide) (by decide)
  have hid : (crowdMiner 4294967297).internalId.toUInt64 = 1 := by
    show (4294967297 : UInt64).toUInt32.toUInt64 = 1
    decide
  obtain ⟨t2, sent, hdel, hminer2, hslots2, hex2, hparam2, hlot2⟩ :=
    delminer_eco (by rw [hreg1.minerinfo]; exact hinfo) howner hrow (by rw [hid]; decide)
      (hreg1.miner2ex.trans hex) (by rw [hid]; exact hslot)
  rw [hid] at hslots2 hex2
  have hsize : t2.miner2.size = 4294967297 := by
    rw [hslots2, size_put_of_some _ hslot, hreg1.miner2]
    exact hcrowd.size
  obtain ⟨r2, hruns2, hturn⟩ := hruns1.effect (delminer_effect hdel) (by omega)
  cases hturn
  have hfirst2 : t2.miner.find 1 = some (crowdMiner 1) := by
    rw [hminer2, Table.find_erase_ne _ (by decide)]
    exact hfirst
  have hscan2 : Scanning .whole t1 ([t1] ++ [t2]) t2 :=
    .next .start ⟨.delminer 4294967297 0 5, trivial, _, .empty, sent, hdel⟩ (by rw [hlot2])
  have hlisted : Listed (fun m => m ≠ 1) t2 := by
    intro k slot h1 hfind hne
    rw [hslots2, Table.find_put] at hfind
    split_ifs at hfind with hk
    · cases hfind
      exact absurd rfl hne
    · rw [hreg1.miner2] at hfind
      by_cases hle : k.toNat ≤ 4294967297
      · rw [show _ = some (⟨k, 0⟩ : Miner2) from hcrowd.slot k h1 hle] at hfind
        cases hfind
        exact hk
      · rw [show _ = none from hcrowd.noSlot k (by omega)] at hfind
        cases hfind
  obtain ⟨l, u, t, r, hscan, hlast, hflip, hgood, _, _, hruns, honly⟩ :=
    hscan2.finish (P := fun m => m ≠ 1) (Q := fun v => Qualifies v 1) 4294967299
      (by
        intro v hv
        rcases mem_pair.mp hv with rfl | rfl
        · exact qualifies_crowdMiner (by decide) hfirst
        · exact qualifies_crowdMiner (by decide) hfirst2)
      (fun v hv => qualifies_crowdMiner (by decide) (by rw [hv.miner]; exact hfirst2))
      hlisted hex2 (by show g.maxTableCount.toNat + 1 < _; omega)
      (by rw [hparam2]; exact hparam1) hruns2
      ⟨fun _ h => absurd h not_mem_nil, fun _ h => absurd h not_mem_nil⟩
      (by show g.maxTableCount.toNat + 1 < _; omega)
  have hshows := hruns.shows
  refine ⟨t1, l, t, ((hrun1.tail hstart).trans hscan1.steps).tail hlast1,
    ⟨hruns1.shows.proc, u, hscan, hlast, hflip⟩, hgood, ?_, ?_⟩
  · intro k row h1 hk hfind
    exact row_of_forall hshows.table1.active hshows.table1.count (P := fun m => m ≠ 1)
      honly.drawn1 h1 hk hfind
  · intro k row h1 hk hfind
    exact row_of_forall hshows.table2.active hshows.table2.count (P := fun m => m ≠ 1)
      honly.drawn2 h1 hk hfind

end YottaChain.HddPool
