/-
  **The table of internal ids is a free-list allocator.**

  `miner2` is used as a compact array with the rows `1 .. max_table_count`.  A
  live row names its miner; a free row points to the next free one, from
  `next_id` in the head record on, and the list ends at `max_table_count + 1`,
  the row the table would get next.  `SlotsLaw` states this together with the
  correspondence between the live rows and the internal ids in the miner table.

  The id a miner gets is cut to 32 bits, so the law is kept as long as the table
  has fewer than `2 ^ 32` rows.  The rows are never removed, so a run that ends
  below the bound was below it all the time.
-/
import YottaChain.HddPoolEffects
import YottaChain.FreeList

namespace YottaChain.HddPool

open Checked FixedWidth FreeList Table UInt64

/-! ## 1. The law -/

def nextOf (t : Table UInt64 Miner2) (k : UInt64) : Option UInt64 := (t.find k).map Miner2.nextId

def FreeAt (t : Table UInt64 Miner2) (k : UInt64) : Prop :=
  ∃ slot, t.find k = some slot ∧ slot.minerid = 0

def liveRows (t : Table UInt64 Miner2) : Nat :=
  t.total fun _ slot => if slot.minerid = 0 then 0 else 1

def idOf (t : Table UInt64 Miner) (m : UInt64) : Option UInt32 := (t.find m).map Miner.internalId

structure SlotsLaw (t : Slots) (miner : Table UInt64 Miner) : Prop where
  rows : ∀ k, (t.rows.find k).isSome ↔ 1 ≤ k.toNat ∧ k.toNat ≤ t.head.maxTableCount.toNat
  size : t.rows.size = t.head.maxTableCount.toNat
  chain : ∃ l, Holds (nextOf t.rows) (FreeAt t.rows) t.head.nextId (t.head.maxTableCount + 1) l
  count : liveRows t.rows = t.head.maxMinerCount.toNat
  owned : ∀ m id, idOf miner m = some id → id ≠ 0 →
    ∃ slot, t.rows.find id.toUInt64 = some slot ∧ slot.minerid = m
  used : ∀ k slot, t.rows.find k = some slot → slot.minerid ≠ 0 →
    ∃ id, idOf miner slot.minerid = some id ∧ id.toUInt64 = k
  zero : idOf miner 0 = none

theorem liveRows_le_size (t : Table UInt64 Miner2) : liveRows t ≤ t.size := by
  have h : liveRows t ≤ 1 * t.size := by
    apply total_le_mul_size
    intro k slot _
    split <;> decide
  omega

variable {k : UInt64}

theorem toUInt64_toUInt32 (h : k.toNat < 2 ^ 32) : k.toUInt32.toUInt64 = k := by
  apply UInt64.toNat_inj.mp
  rw [UInt32.toNat_toUInt64, UInt64.toNat_toUInt32]
  exact Nat.mod_eq_of_lt h

theorem nextOf_put_ne {t : Table UInt64 Miner2} {j : UInt64} (slot : Miner2) (h : j ≠ k) :
    nextOf (t.put k slot) j = nextOf t j := by
  rw [nextOf, find_put_ne _ _ h, nextOf]

theorem idOf_put (t : Table UInt64 Miner) (m k : UInt64) (row : Miner) :
    idOf (t.put m row) k = if k = m then some row.internalId else idOf t k := by
  rw [idOf, find_put]
  split
  · rfl
  · rfl

theorem idOf_erase (t : Table UInt64 Miner) (m k : UInt64) :
    idOf (t.erase m) k = if k = m then none else idOf t k := by
  rw [idOf, find_erase]
  split
  · rfl
  · rfl

variable {t : Slots} {miner : Table UInt64 Miner}

theorem SlotsLaw.last_absent (hl : SlotsLaw t miner) (hsmall : t.rows.size < 2 ^ 32) :
    ¬ FreeAt t.rows (t.head.maxTableCount + 1) := by
  rintro ⟨slot, hslot, _⟩
  have hsome := (hl.rows (t.head.maxTableCount + 1)).mp (by rw [hslot]; rfl)
  have hsize := hl.size
  have hadd : (t.head.maxTableCount + 1).toNat = t.head.maxTableCount.toNat + 1 :=
    toNat_add_of_lt (by simp only [toNat_one]; omega)
  omega

variable {m : UInt64} {row : Miner}

/-- The correspondence after a miner took row `k`, which was free or new. -/
theorem SlotsLaw.taken (hl : SlotsLaw t miner) (hm : m ≠ 0) (hnew : miner.find m = none)
    (hid : row.internalId = k.toUInt32) (hk : k.toNat < 2 ^ 32)
    (hfree : ∀ slot, t.rows.find k = some slot → slot.minerid = 0) :
    (∀ m' id, idOf (miner.put m row) m' = some id → id ≠ 0 →
      ∃ slot, (t.rows.put k ⟨m, 0⟩).find id.toUInt64 = some slot ∧ slot.minerid = m') ∧
    (∀ k' slot, (t.rows.put k ⟨m, 0⟩).find k' = some slot → slot.minerid ≠ 0 →
      ∃ id, idOf (miner.put m row) slot.minerid = some id ∧ id.toUInt64 = k') ∧
    idOf (miner.put m row) 0 = none := by
  have hnone : idOf miner m = none := by rw [idOf, hnew]; rfl
  refine ⟨fun m' id hid' hne => ?_, fun k' slot hslot hlive => ?_, ?_⟩
  · rw [idOf_put] at hid'
    split at hid'
    · rename_i hmm
      cases hid'
      rw [hid, toUInt64_toUInt32 hk, find_put_self]
      exact ⟨_, rfl, hmm.symm⟩
    · obtain ⟨slot, hslot, hmid⟩ := hl.owned m' id hid' hne
      refine ⟨slot, ?_, hmid⟩
      rw [find_put_ne _ _ ?_]
      · exact hslot
      · intro hkk
        rw [hkk] at hslot
        rw [hfree slot hslot] at hmid
        rw [← hmid, hl.zero] at hid'
        cases hid'
  · rw [find_put] at hslot
    split at hslot
    · rename_i hkk
      cases hslot
      refine ⟨row.internalId, ?_, ?_⟩
      · rw [idOf_put, if_pos rfl]
      · rw [hid, toUInt64_toUInt32 hk, hkk]
    · obtain ⟨id, hid', hkk⟩ := hl.used k' slot hslot hlive
      refine ⟨id, ?_, hkk⟩
      rw [idOf_put, if_neg]
      · exact hid'
      · rintro hmm
        rw [hmm, hnone] at hid'
        cases hid'
  · rw [idOf_put, if_neg (Ne.symm hm)]
    exact hl.zero

/-! ## 2. Taking and freeing a row -/

theorem size_put_of_none {t : Table UInt64 Miner2} (slot : Miner2) (h : t.find k = none) :
    (t.put k slot).size = t.size + 1 := by
  rw [Table.size, total_put_of_none slot _ h, Nat.add_comm, Table.size]

variable {old : Miner2}

theorem size_put_of_some {t : Table UInt64 Miner2} (slot : Miner2) (h : t.find k = some old) :
    (t.put k slot).size = t.size :=
  Nat.add_right_cancel (total_put_add slot (fun _ _ => 1) h)

theorem isSome_put_iff {t : Table UInt64 Miner2} (slot : Miner2) (h : t.find k = some old)
    (j : UInt64) : ((t.put k slot).find j).isSome ↔ (t.find j).isSome := by
  rw [find_put]
  split_ifs with hj
  · rw [hj, h]
    exact iff_of_true rfl rfl
  · exact Iff.rfl

variable {t' : Slots}

theorem Slots.Takes.size_le (h : t.Takes m k t') : t.rows.size ≤ t'.rows.size := by
  cases h with
  | grow _ hfree =>
    rw [size_put_of_none _ hfree]
    omega
  | reuse _ _ hslot => rw [size_put_of_some _ hslot]

variable {id : UInt64}

theorem Slots.Frees.size_eq (h : t.Frees id t') : t'.rows.size = t.rows.size := by
  cases h with
  | nothing => rfl
  | slot _ _ _ _ hslot => rw [size_put_of_some _ hslot]

section

variable (hl : SlotsLaw t miner) (hm : m ≠ 0) (hnew : miner.find m = none)

include hl hm hnew

theorem SlotsLaw.grow (hid : row.internalId = t.head.nextId.toUInt32)
    (hlast : t.head.nextId = t.head.maxTableCount + 1) (hfree : t.rows.find t.head.nextId = none)
    (hsmall : t.rows.size + 1 < 2 ^ 32) :
    SlotsLaw ⟨t.rows.put t.head.nextId ⟨m, 0⟩,
      some ⟨t.head.nextId + 1, t.head.maxTableCount + 1, t.head.maxMinerCount + 1⟩⟩
      (miner.put m row) := by
  have hsize := hl.size
  have hcount := hl.count
  have hlive := liveRows_le_size t.rows
  have hmax : (t.head.maxTableCount + 1).toNat = t.head.maxTableCount.toNat + 1 :=
    toNat_add_of_lt (by simp only [toNat_one]; omega)
  have hmin : (t.head.maxMinerCount + 1).toNat = t.head.maxMinerCount.toNat + 1 :=
    toNat_add_of_lt (by simp only [toNat_one]; omega)
  have hnext : t.head.nextId.toNat = t.head.maxTableCount.toNat + 1 := by rw [hlast, hmax]
  -- the list has come to its end marker, so no row is free
  have hnofree : ∀ k, ¬ FreeAt t.rows k := by
    obtain ⟨l, hholds⟩ := hl.chain
    rw [hlast] at hholds
    exact hholds.none_free (hl.last_absent (by omega))
  obtain ⟨howned, hused, hzero⟩ := hl.taken hm hnew hid (by omega)
    (fun slot hslot => by rw [hfree] at hslot; cases hslot)
  refine ⟨fun k => ?_, ?_, ⟨[], ?_⟩, ?_, howned, hused, hzero⟩
  · show ((t.rows.put t.head.nextId ⟨m, 0⟩).find k).isSome ↔
      1 ≤ k.toNat ∧ k.toNat ≤ (t.head.maxTableCount + 1).toNat
    rw [find_put, hmax]
    split_ifs with hk
    · rw [hk]
      exact iff_of_true rfl (by omega)
    · have hk' : k.toNat ≠ t.head.nextId.toNat := fun h => hk (UInt64.toNat_inj.mp h)
      rw [hl.rows k]
      omega
  · show (t.rows.put t.head.nextId ⟨m, 0⟩).size = (t.head.maxTableCount + 1).toNat
    rw [size_put_of_none _ hfree, hmax, hsize]
  · show Holds _ _ (t.head.nextId + 1) (t.head.maxTableCount + 1 + 1) []
    rw [hlast]
    refine .nil _ ?_
    rintro k ⟨slot, hslot, hzero'⟩
    rw [find_put] at hslot
    split at hslot
    · cases hslot
      exact hm hzero'
    · exact hnofree k ⟨slot, hslot, hzero'⟩
  · show liveRows (t.rows.put t.head.nextId ⟨m, 0⟩) = (t.head.maxMinerCount + 1).toNat
    rw [liveRows, total_put_of_none _ _ hfree, if_neg hm, hmin, ← hcount, Nat.add_comm]
    rfl

variable {slot : Miner2}

theorem SlotsLaw.reuse (hid : row.internalId = t.head.nextId.toUInt32)
    (hlast : t.head.nextId ≠ t.head.maxTableCount + 1)
    (hslot : t.rows.find t.head.nextId = some slot) (hsmall : t.rows.size < 2 ^ 32) :
    SlotsLaw ⟨t.rows.put t.head.nextId ⟨m, 0⟩,
      some ⟨slot.nextId, t.head.maxTableCount, t.head.maxMinerCount + 1⟩⟩ (miner.put m row) := by
  have hsize := hl.size
  have hcount := hl.count
  obtain ⟨l, hholds⟩ := hl.chain
  have hfree : slot.minerid = 0 := by
    obtain ⟨slot', hslot', hzero⟩ := hholds.head_free hlast
    rw [hslot] at hslot'
    cases hslot'
    exact hzero
  have hle : t.head.nextId.toNat ≤ t.head.maxTableCount.toNat :=
    ((hl.rows _).mp (by rw [hslot]; rfl)).2
  have hlive' : liveRows (t.rows.put t.head.nextId ⟨m, 0⟩) = liveRows t.rows + 1 := by
    have hput : liveRows (t.rows.put t.head.nextId ⟨m, 0⟩) + (if slot.minerid = 0 then 0 else 1) =
        liveRows t.rows + if m = 0 then 0 else 1 := total_put_add _ _ hslot
    rw [if_pos hfree, if_neg hm] at hput
    exact hput
  have hbound := liveRows_le_size (t.rows.put t.head.nextId ⟨m, 0⟩)
  rw [hlive', size_put_of_some _ hslot] at hbound
  have hmin : (t.head.maxMinerCount + 1).toNat = t.head.maxMinerCount.toNat + 1 :=
    toNat_add_of_lt (by simp only [toNat_one]; omega)
  obtain ⟨howned, hused, hzero⟩ := hl.taken hm hnew hid (by omega)
    (fun slot' hslot' => by rw [hslot] at hslot'; cases hslot'; exact hfree)
  refine ⟨fun k => ?_, ?_, ?_, ?_, howned, hused, hzero⟩
  · exact (isSome_put_iff _ hslot k).trans (hl.rows k)
  · exact (size_put_of_some _ hslot).trans hsize
  · refine hholds.pop hlast (by rw [nextOf, hslot]; rfl) (fun k hk => nextOf_put_ne _ hk) ?_
    intro k
    constructor
    · rintro ⟨slot', hslot', hzero'⟩
      rw [find_put] at hslot'
      split at hslot'
      · cases hslot'
        exact absurd hzero' hm
      · rename_i hk
        exact ⟨⟨slot', hslot', hzero'⟩, hk⟩
    · rintro ⟨⟨slot', hslot', hzero'⟩, hk⟩
      exact ⟨slot', by rw [find_put_ne _ _ hk]; exact hslot', hzero'⟩
  · exact hlive'.trans (by rw [hcount]; exact hmin.symm)

theorem SlotsLaw.takes
    (hid : row.internalId = k.toUInt32) (h : t.Takes m k t') (hsmall : t'.rows.size < 2 ^ 32) :
    SlotsLaw t' (miner.put m row) := by
  cases h with
  | grow hlast hfree =>
    rw [size_put_of_none _ hfree] at hsmall
    exact hl.grow hm hnew hid hlast hfree hsmall
  | reuse hlast _ hslot =>
    rw [size_put_of_some _ hslot] at hsmall
    exact hl.reuse hm hnew hid hlast hslot hsmall

end

/-- The row of a deleted miner goes in front of the free list: no other miner owns it, and one
    row less is in use. -/
theorem SlotsLaw.freed (hl : SlotsLaw t miner) (hrow : miner.find m = some row)
    (hid : row.internalId ≠ 0) {g : Miner2Ex} (hex : t.ex = some g) :
    SlotsLaw ⟨t.rows.put row.internalId.toUInt64 ⟨0, g.nextId⟩,
      some ⟨row.internalId.toUInt64, g.maxTableCount, g.maxMinerCount - 1⟩⟩ (miner.erase m) := by
  have hidOf : idOf miner m = some row.internalId := by rw [idOf, hrow]; rfl
  have hm : m ≠ 0 := by
    rintro rfl
    rw [hl.zero] at hidOf
    cases hidOf
  have hhead : t.head = g := by rw [Slots.head, hex]; rfl
  obtain ⟨slot, hslot, hmid⟩ := hl.owned m _ hidOf hid
  have hlive : slot.minerid ≠ 0 := hmid ▸ hm
  have hcount := hl.count
  have hput : liveRows (t.rows.put row.internalId.toUInt64 ⟨0, g.nextId⟩) +
      (if slot.minerid = 0 then 0 else 1) = liveRows t.rows + if (0 : UInt64) = 0 then 0 else 1 :=
    total_put_add _ _ hslot
  rw [if_neg hlive, if_pos rfl] at hput
  refine ⟨fun k => ?_, ?_, ?_, ?_, fun m' id hid' hne => ?_, fun k slot' hslot' hlive' => ?_, ?_⟩
  · rw [← hhead]
    exact (isSome_put_iff _ hslot k).trans (hl.rows k)
  · rw [← hhead]
    exact (size_put_of_some _ hslot).trans hl.size
  · obtain ⟨l, hholds⟩ := hl.chain
    rw [hhead] at hholds
    refine ⟨_, hholds.push (k := row.internalId.toUInt64) ?_ ?_
      (fun j hj => nextOf_put_ne _ hj) (fun j => ?_)⟩
    · rintro ⟨slot', hslot', hzero⟩
      rw [hslot] at hslot'
      cases hslot'
      exact hlive hzero
    · dsimp only
      rw [nextOf, find_put_self]
      rfl
    · unfold FreeAt
      rw [find_put]
      by_cases hj : j = row.internalId.toUInt64
      · rw [if_pos hj]
        exact iff_of_true ⟨_, rfl, rfl⟩ (.inr hj)
      · rw [if_neg hj]
        exact ⟨.inl, fun h => h.resolve_right hj⟩
  · show liveRows (t.rows.put row.internalId.toUInt64 ⟨0, g.nextId⟩) = (g.maxMinerCount - 1).toNat
    rw [hhead] at hcount
    rw [toNat_sub_of_le (by rw [← hcount, toNat_one]; omega), ← hcount, toNat_one]
    omega
  · rw [idOf_erase] at hid'
    split at hid'
    · cases hid'
    · rename_i hmm
      obtain ⟨slot', hslot', hmid'⟩ := hl.owned m' id hid' hne
      refine ⟨slot', ?_, hmid'⟩
      rw [find_put_ne]
      · exact hslot'
      · intro hkk
        rw [hkk, hslot] at hslot'
        cases hslot'
        exact hmm (hmid'.symm.trans hmid)
  · rw [find_put] at hslot'
    split at hslot'
    · cases hslot'
      exact absurd rfl hlive'
    · rename_i hk
      obtain ⟨id, hid', hkk⟩ := hl.used k slot' hslot' hlive'
      refine ⟨id, ?_, hkk⟩
      rw [idOf_erase, if_neg]
      · exact hid'
      · intro hmm
        rw [hmm, hidOf] at hid'
        cases hid'
        exact hk hkk.symm
  · rw [idOf_erase]
    split
    · rfl
    · exact hl.zero

variable {miner' : Table UInt64 Miner}

/-- A miner without a row leaves the table of rows alone, when it comes and when
    it goes. -/
theorem SlotsLaw.without (hl : SlotsLaw t miner) (hm : m ≠ 0)
    (hold : ∀ id, idOf miner m = some id → id = 0) (hnew : ∀ id, idOf miner' m = some id → id = 0)
    (hsame : ∀ m', m' ≠ m → idOf miner' m' = idOf miner m') : SlotsLaw t miner' where
  rows := hl.rows
  size := hl.size
  chain := hl.chain
  count := hl.count
  owned := by
    intro m' id hid hne
    have hmm : m' ≠ m := fun h => hne (hnew id (h ▸ hid))
    exact hl.owned m' id (hsame m' hmm ▸ hid) hne
  used := by
    intro k slot hslot hlive
    obtain ⟨id, hid, hk⟩ := hl.used k slot hslot hlive
    refine ⟨id, ?_, hk⟩
    rw [hsame]
    · exact hid
    · intro hmm
      -- the id 0 would be the row 0, which is not in the table
      rw [hold id (hmm ▸ hid)] at hk
      have hsome := (hl.rows k).mp (by rw [hslot]; rfl)
      rw [← hk] at hsome
      exact absurd hsome.1 (by decide)
  zero := by rw [hsame 0 (Ne.symm hm)]; exact hl.zero

theorem SlotsLaw.congr (hl : SlotsLaw t miner) (hsame : ∀ m, idOf miner' m = idOf miner m) :
    SlotsLaw t miner' where
  rows := hl.rows
  size := hl.size
  chain := hl.chain
  count := hl.count
  owned := fun m id hid => hl.owned m id (hsame m ▸ hid)
  used := fun k slot hslot hlive => by rw [hsame]; exact hl.used k slot hslot hlive
  zero := (hsame 0).trans hl.zero

/-! ## 3. Runs -/

/-- The state of the allocator: the law, and no miner with the id 0, which marks
    a free row. -/
structure Allocator (s : Tables) : Prop where
  law : SlotsLaw s.slots s.miner
  info : s.minerinfo.find 0 = none

theorem idOf_adjust (t : Table UInt64 Miner) (m k : UInt64) {f : Miner → Miner}
    (hf : ∀ row, (f row).internalId = row.internalId) : idOf (t.adjust m f) k = idOf t k := by
  rw [idOf, find_adjust]
  split_ifs with hk
  · rw [hk, Option.map_map, idOf]
    congr 1
    exact funext hf
  · rfl

theorem idOf_put_same {t : Table UInt64 Miner} {row' : Miner} (hrow : t.find m = some row)
    (hid : row'.internalId = row.internalId) (k : UInt64) : idOf (t.put m row') k = idOf t k := by
  rw [idOf_put]
  split_ifs with hk
  · rw [hk, idOf, hrow, hid]
    rfl
  · rfl

theorem find_zero_put {t : Table UInt64 MinerInfo} {info info' : MinerInfo}
    (hzero : t.find 0 = none) (hinfo : t.find m = some info) : (t.put m info').find 0 = none := by
  rw [find_put_ne, hzero]
  rintro rfl
  rw [hzero] at hinfo
  cases hinfo

variable {s : Tables}

theorem SlotsLaw.drops (hl : SlotsLaw s.slots s.miner) (hm : m ≠ 0) (h : DropsMiner s m t) :
    SlotsLaw t (s.miner.erase m) := by
  have hnone : ∀ id, idOf (s.miner.erase m) m = some id → id = 0 := by
    intro id hid
    rw [idOf_erase, if_pos rfl] at hid
    cases hid
  have hsame : ∀ m', m' ≠ m → idOf (s.miner.erase m) m' = idOf s.miner m' := by
    intro m' hmm
    rw [idOf_erase, if_neg hmm]
  cases h with
  | nothing hfree =>
    refine hl.without hm (fun id hid => ?_) hnone hsame
    rw [idOf, hfree] at hid
    cases hid
  | row _ hrow _ hfrees =>
    cases hfrees with
    | nothing hid =>
      refine hl.without hm (fun id hid' => ?_) hnone hsame
      rw [idOf, hrow] at hid'
      cases hid'
      exact UInt32.toUInt64_inj.mp hid
    | slot hid _ hex =>
      exact hl.freed hrow (fun h0 => hid (by rw [h0]; rfl)) hex

variable {fp : Doubles} {s' : Tables} {a : Action}

/-- A call leaves the table of internal ids alone, takes a row from it, or frees one. -/
theorem Effect.slots_cases (h : Effect fp s a s') :
    s'.slots = s.slots ∨ (∃ m k, s.slots.Takes m k s'.slots) ∨ ∃ id, s.slots.Frees id s'.slots := by
  cases h with
  | quiet _ _ hreg =>
    left
    rw [Tables.slots, hreg.miner2, hreg.miner2ex, Tables.slots]
  | build p g =>
    have hreg := build_registry s (some p) g.maxTableCount
    left
    rw [Tables.slots, hreg.miner2, hreg.miner2ex, Tables.slots]
  | register _ _ _ _ _ _ _ _ _ _ _ _ _ _ _ id htakes _ _ => exact .inr (.inl ⟨_, id, htakes⟩)
  | delete _ _ _ _ _ _ hdrop =>
    cases hdrop with
    | nothing => exact .inl rfl
    | row _ _ _ hfrees => exact .inr (.inr ⟨_, hfrees⟩)
  | sync _ _ _ _ _ hcase =>
    rcases hcase with ⟨_, rfl, _, _⟩ | ⟨id, htakes, _⟩
    · exact .inl rfl
    · exact .inr (.inl ⟨_, id, htakes⟩)
  | _ => exact .inl rfl

/-- Rows of internal ids are never removed. -/
theorem Effect.miner2_size_le (h : Effect fp s a s') : s.miner2.size ≤ s'.miner2.size := by
  have hle : s.slots.rows.size ≤ s'.slots.rows.size := by
    rcases h.slots_cases with heq | ⟨m, k, htakes⟩ | ⟨id, hfrees⟩
    · rw [heq]
    · exact htakes.size_le
    · exact hfrees.size_eq.ge
  exact hle

/-- The counter never runs ahead of the table.  Unlike the law above this needs no
    bound on the number of rows. -/
def Slots.Counted (t : Slots) : Prop := t.head.maxTableCount.toNat ≤ t.rows.size

theorem Slots.Takes.counted (h : t.Takes m k t') (hc : t.Counted) (hsmall : t'.rows.size < 2 ^ 64) :
    t'.Counted ∧ t.head.maxTableCount.toNat ≤ t'.head.maxTableCount.toNat := by
  unfold Slots.Counted at hc ⊢
  cases h with
  | grow _ hfree =>
    rw [size_put_of_none _ hfree] at hsmall ⊢
    have hadd : (t.head.maxTableCount + 1).toNat = t.head.maxTableCount.toNat + 1 :=
      toNat_add_of_lt (by rw [toNat_one]; omega)
    show (t.head.maxTableCount + 1).toNat ≤ _ ∧ _ ≤ (t.head.maxTableCount + 1).toNat
    omega
  | reuse _ _ hslot =>
    rw [size_put_of_some _ hslot]
    exact ⟨hc, Nat.le_refl _⟩

theorem Slots.Frees.counted (h : t.Frees id t') (hc : t.Counted) :
    t'.Counted ∧ t'.head.maxTableCount = t.head.maxTableCount := by
  cases h with
  | nothing => exact ⟨hc, rfl⟩
  | slot _ g hex _ hslot =>
    have hhead : t.head = g := by simp [Slots.head, hex]
    unfold Slots.Counted at hc ⊢
    rw [size_put_of_some _ hslot]
    rw [hhead] at hc ⊢
    exact ⟨hc, rfl⟩

theorem Effect.counted (h : Effect fp s a s') (hc : s.slots.Counted)
    (hsmall : s'.miner2.size < 2 ^ 64) :
    s'.slots.Counted ∧ s.slots.head.maxTableCount.toNat ≤ s'.slots.head.maxTableCount.toNat := by
  rcases h.slots_cases with heq | ⟨m, k, htakes⟩ | ⟨id, hfrees⟩
  · rw [heq]
    exact ⟨hc, Nat.le_refl _⟩
  · exact htakes.counted hc hsmall
  · obtain ⟨hc', hmax⟩ := hfrees.counted hc
    rw [hmax]
    exact ⟨hc', Nat.le_refl _⟩

theorem Allocator.effect (ha : Allocator s) (h : Effect fp s a s')
    (hsmall : s'.miner2.size < 2 ^ 32) : Allocator s' := by
  have hl := ha.law
  have hzero := ha.info
  cases h with
  | quiet _ _ hreg _ =>
    refine ⟨?_, by rw [hreg.minerinfo]; exact hzero⟩
    rw [Tables.slots, hreg.miner2, hreg.miner2ex, hreg.miner]
    exact hl
  | build p g =>
    have hreg := build_registry s (some p) g.maxTableCount
    refine ⟨?_, by rw [hreg.minerinfo]; exact hzero⟩
    rw [Tables.slots, hreg.miner2, hreg.miner2ex, hreg.miner]
    exact hl
  | poolDelete | poolRegister | poolResize => exact ⟨hl, hzero⟩
  | register _ hid _ _ _ _ _ _ _ _ _ _ _ hminer _ _ htakes _ _ =>
    refine ⟨hl.takes hid hminer rfl htakes hsmall, ?_⟩
    exact (find_put_ne _ _ (Ne.symm hid)).trans hzero
  | delete _ hinfo _ _ _ _ hdrop =>
    refine ⟨hl.drops ?_ hdrop, ?_⟩
    · rintro rfl
      rw [hzero] at hinfo
      cases hinfo
    · dsimp only
      rw [find_erase]
      split
      · rfl
      · exact hzero
  | addSpace _ info hinfo | subSpace _ info hinfo | movePool info hinfo
  | changeAdmin info hinfo | changeOwner info hinfo =>
    exact ⟨hl.congr fun m => idOf_adjust _ _ m fun _ => rfl, find_zero_put hzero hinfo⟩
  | deactivate | activate => exact ⟨hl.congr fun m => idOf_adjust _ _ m fun _ => rfl, hzero⟩
  | enlarge _ hrow =>
    refine ⟨hl.congr (idOf_put_same hrow (by rfl)), ?_⟩
    dsimp only
    rw [find_adjust]
    split_ifs with hm
    · rw [← hm, hzero]
      rfl
    · exact hzero
  | setLevel row hrow | setRealSpace row hrow =>
    exact ⟨hl.congr (idOf_put_same hrow (by rfl)), hzero⟩
  | @sync m hminer info hinfo slots row hcase =>
    have hm : m ≠ 0 := by
      rintro rfl
      rw [hzero] at hinfo
      cases hinfo
    refine ⟨?_, hzero⟩
    rcases hcase with ⟨_, rfl, hid, _⟩ | ⟨id, htakes, hid⟩
    · refine hl.without hm (fun id hid' => ?_) (fun id hid' => ?_) (fun m' hmm => ?_)
      · rw [idOf, hminer] at hid'
        cases hid'
      · rw [idOf_put, if_pos rfl] at hid'
        exact (Option.some.inj hid').symm.trans hid
      · rw [idOf_put, if_neg hmm]
    · exact hl.takes hm hminer hid htakes hsmall

theorem Allocator.run {s0 : Tables} (h0 : Allocator s0) (hrun : Run.Steps (AnyStep fp) s0 s)
    (hsmall : s.miner2.size < 2 ^ 32) : Allocator s := by
  refine Run.invariant_below (fun s => s.miner2.size) ?_ ?_ h0 hrun hsmall
  · intro s s' hstep
    obtain ⟨a, _, he⟩ := hstep.effect
    exact he.miner2_size_le
  · intro s s' ha hstep hb
    obtain ⟨a, _, he⟩ := hstep.effect
    exact ha.effect he hb

theorem SlotsLaw.empty : SlotsLaw ⟨∅, none⟩ ∅ where
  rows := by
    intro k
    rw [find_empty]
    refine iff_of_false (by decide) ?_
    show ¬ (1 ≤ k.toNat ∧ k.toNat ≤ 0)
    omega
  size := rfl
  chain := by
    refine ⟨[], .nil _ ?_⟩
    rintro k ⟨slot, hslot, _⟩
    rw [find_empty] at hslot
    cases hslot
  count := rfl
  owned := by
    intro m id hid
    rw [idOf, find_empty] at hid
    cases hid
  used := by
    intro k slot hslot
    rw [find_empty] at hslot
    cases hslot
  zero := by rw [idOf, find_empty]; rfl

/-! ## 4. What the users of the allocator rely on -/

theorem SlotsLaw.insert_ok (hl : SlotsLaw s.slots s.miner) (hsmall : s.miner2.size < 2 ^ 32)
    (m : UInt64) : ∃ r, insertMiner2 s m = .ok r := by
  unfold insertMiner2
  dsimp only
  split_ifs with hlast
  · cases hnone : s.miner2.find (s.miner2ex.getD {}).nextId with
    | none =>
      refine ⟨_, bind_eq_ok.mpr ⟨_, emplace_eq_ok.mpr ⟨hnone, rfl⟩, rfl⟩⟩
    | some =>
      -- the row behind the last one would be in the table
      have hrow := (hl.rows (s.miner2ex.getD {}).nextId).mp (by
        show (s.miner2.find _).isSome
        rw [hnone]
        rfl)
      have hsize : s.miner2.size = (s.miner2ex.getD {}).maxTableCount.toNat := hl.size
      have hadd : ((s.miner2ex.getD {}).maxTableCount + 1).toNat =
          (s.miner2ex.getD {}).maxTableCount.toNat + 1 :=
        toNat_add_of_lt (by simp only [toNat_one]; omega)
      rw [hlast, hadd] at hrow
      exact absurd hrow.2 (Nat.not_succ_le_self _)
  · obtain ⟨l, hholds⟩ := hl.chain
    obtain ⟨slot, hslot, _⟩ := hholds.head_free hlast
    exact ⟨_, bind_eq_ok.mpr ⟨slot, get_eq_ok.mpr hslot, rfl⟩⟩

/-- The row a miner takes was not in use. -/
theorem SlotsLaw.takes_free (hl : SlotsLaw t miner) (h : t.Takes m k t')
    (hslot : t.rows.find k = some slot) : slot.minerid = 0 := by
  cases h with
  | grow _ hfree =>
    rw [hfree] at hslot
    cases hslot
  | reuse hlast =>
    obtain ⟨l, hholds⟩ := hl.chain
    obtain ⟨slot'', hslot'', hzero⟩ := hholds.head_free hlast
    rw [hslot] at hslot''
    cases hslot''
    exact hzero

theorem SlotsLaw.takes_pos (hl : SlotsLaw t miner) (h : t.Takes m k t')
    (hsmall : t'.rows.size < 2 ^ 32) : 1 ≤ k.toNat ∧ k.toNat < 2 ^ 32 := by
  have hsize := hl.size
  cases h with
  | grow hlast hfree =>
    rw [size_put_of_none _ hfree] at hsmall
    have hadd : t.head.nextId.toNat = t.head.maxTableCount.toNat + 1 := by
      rw [hlast]
      exact toNat_add_of_lt (by simp only [toNat_one]; omega)
    omega
  | reuse _ _ hslot =>
    rw [size_put_of_some _ hslot] at hsmall
    have hrow := (hl.rows t.head.nextId).mp (by rw [hslot]; rfl)
    omega

/-- An id that is handed out is the id of no miner. -/
theorem SlotsLaw.insert_fresh (hl : SlotsLaw s.slots s.miner) {id : UInt32}
    (h : insertMiner2 s m = .ok (s', id)) (hsmall : s'.miner2.size < 2 ^ 32) :
    id ≠ 0 ∧ ∀ m', idOf s.miner m' ≠ some id := by
  obtain ⟨t, k, rfl, rfl, htakes⟩ := insertMiner2_ok h
  obtain ⟨hpos, hlt⟩ := hl.takes_pos htakes hsmall
  have hk : k.toUInt32.toUInt64 = k := toUInt64_toUInt32 hlt
  have hne : k.toUInt32 ≠ 0 := by
    intro h0
    rw [h0] at hk
    rw [← hk] at hpos
    exact absurd hpos (by decide)
  refine ⟨hne, fun m' hm' => ?_⟩
  obtain ⟨slot, hslot, hmid⟩ := hl.owned m' _ hm' hne
  rw [hk] at hslot
  rw [hl.takes_free htakes hslot] at hmid
  rw [← hmid, hl.zero] at hm'
  cases hm'

theorem SlotsLaw.delete_ok (hl : SlotsLaw s.slots s.miner) {id : UInt32}
    (hid : idOf s.miner m = some id) (hne : id ≠ 0) :
    (∃ s', delMiner2 s id.toUInt64 = .ok s') ∧
      ∃ slot, s.miner2.find id.toUInt64 = some slot ∧ slot.minerid = m ∧ m ≠ 0 := by
  obtain ⟨slot, hslot, hmid⟩ := hl.owned m id hid hne
  have hm : m ≠ 0 := by
    rintro rfl
    rw [hl.zero] at hid
    cases hid
  have hkey : id.toUInt64 ≠ 0 := fun h => hne (UInt32.toUInt64_inj.mp h)
  refine ⟨?_, slot, hslot, hmid, hm⟩
  unfold delMiner2
  rw [if_neg hkey]
  cases hex : s.miner2ex with
  | none =>
    have hrow := (hl.rows id.toUInt64).mp (by rw [hslot]; rfl)
    rw [Slots.head, Tables.slots, hex] at hrow
    have hone : 1 ≤ (0 : UInt64).toNat := Nat.le_trans hrow.1 hrow.2
    exact absurd hone (by decide)
  | some => exact ⟨_, bind_eq_ok.mpr ⟨slot, get_eq_ok.mpr hslot, rfl⟩⟩

theorem SlotsLaw.bijOn (hl : SlotsLaw t miner) :
    Set.BijOn (fun m => ((idOf miner m).getD 0).toUInt64)
      {m | ∃ id, idOf miner m = some id ∧ id ≠ 0}
      {k | ∃ slot, t.rows.find k = some slot ∧ slot.minerid ≠ 0} := by
  refine ⟨?_, ?_, ?_⟩
  · rintro m ⟨id, hid, hne⟩
    obtain ⟨slot, hslot, hmid⟩ := hl.owned m id hid hne
    refine ⟨slot, by simpa only [hid, Option.getD_some] using hslot, ?_⟩
    rintro h0
    rw [← hmid, h0, hl.zero] at hid
    cases hid
  · rintro m ⟨id, hid, hne⟩ m' ⟨id', hid', hne'⟩ heq
    simp only [hid, hid', Option.getD_some, UInt32.toUInt64_inj] at heq
    subst heq
    obtain ⟨slot, hslot, hmid⟩ := hl.owned m id hid hne
    obtain ⟨slot', hslot', hmid'⟩ := hl.owned m' id hid' hne
    rw [hslot] at hslot'
    cases hslot'
    exact hmid.symm.trans hmid'
  · rintro k ⟨slot, hslot, hlive⟩
    obtain ⟨id, hid, hk⟩ := hl.used k slot hslot hlive
    refine ⟨slot.minerid, ⟨id, hid, ?_⟩, by simpa only [hid, Option.getD_some] using hk⟩
    rintro rfl
    have hrow := (hl.rows k).mp (by rw [hslot]; rfl)
    rw [← hk] at hrow
    exact absurd hrow.1 (by decide)

/-- In every run from empty tables of internal ids and miners, whatever miners
    the old table holds, the table of internal ids has the rows
    `1 .. max_table_count`; the list from `next_id` visits every free row once
    and ends behind the last row; `max_miner_count` counts the live rows; and
    the internal ids other than 0 are a bijection onto the live rows.  So an
    insertion always succeeds with an id that no miner has, and a deletion
    always frees the live row of its miner. -/
theorem internal_ids_allocated {fp : Doubles} {s₀ s : Tables} (hex : s₀.miner2ex = none)
    (hrows : s₀.miner2 = ∅) (hminer : s₀.miner = ∅) (hinfo : s₀.minerinfo.find 0 = none)
    (hrun : Run.Steps (AnyStep fp) s₀ s) (hsmall : s.miner2.size < 2 ^ 32) :
    (∀ k, (s.miner2.find k).isSome ↔ 1 ≤ k.toNat ∧ k.toNat ≤ s.slots.head.maxTableCount.toNat) ∧
    (∃ l : List UInt64, l.Nodup ∧ (∀ k, k ∈ l ↔ FreeAt s.miner2 k) ∧
      Threads (nextOf s.miner2) s.slots.head.nextId l (s.slots.head.maxTableCount + 1)) ∧
    liveRows s.miner2 = s.slots.head.maxMinerCount.toNat ∧
    Set.BijOn (fun m => ((idOf s.miner m).getD 0).toUInt64)
      {m | ∃ id, idOf s.miner m = some id ∧ id ≠ 0}
      {k | ∃ slot, s.miner2.find k = some slot ∧ slot.minerid ≠ 0} ∧
    (∀ m id, idOf s.miner m = some id → id ≠ 0 →
      (∃ s', delMiner2 s id.toUInt64 = .ok s') ∧
        ∃ slot, s.miner2.find id.toUInt64 = some slot ∧ slot.minerid = m ∧ m ≠ 0) ∧
    (∀ m, ∃ r, insertMiner2 s m = .ok r) ∧
    (∀ m s' id, insertMiner2 s m = .ok (s', id) → s'.miner2.size < 2 ^ 32 →
      id ≠ 0 ∧ ∀ m', idOf s.miner m' ≠ some id) := by
  have h₀ : Allocator s₀ := by
    refine ⟨?_, hinfo⟩
    rw [Tables.slots, hex, hrows, hminer]
    exact .empty
  have hl := (h₀.run hrun hsmall).law
  obtain ⟨l, hholds⟩ := hl.chain
  refine ⟨hl.rows, ⟨l, hholds.nodup, hholds.members, hholds.threads⟩, hl.count, hl.bijOn,
    fun m id => hl.delete_ok, hl.insert_ok hsmall, fun m s' id => hl.insert_fresh⟩

def sampleReuse : List Action :=
  [.regstrpool 9 1, .regminer 7 2 3 9 4 6553600 ⟨1000000, coreSymbol⟩ false,
    .regminer 8 2 3 9 4 6553600 ⟨1000000, coreSymbol⟩ false, .delminer 7 0 5,
    .regminer 10 2 3 9 4 6553600 ⟨1000000, coreSymbol⟩ false]

theorem internal_ids_allocated_sample :
    ∃ s, Run.Steps (AnyStep .whole) Tables.empty s ∧
      idOf s.miner 10 = some 1 ∧ s.miner2.size = 2 ∧
      liveRows s.miner2 = s.slots.head.maxMinerCount.toNat := by
  obtain ⟨s, hs, hview⟩ := Checked.exists_of_map_eq_ok
    (x := runActions .whole (.permissive 5) .empty .empty sampleReuse)
    (f := fun s => (idOf s.miner 10, s.miner2.size)) (b := (some 1, 2)) rfl
  obtain ⟨hid, hsize⟩ := Prod.mk.inj hview
  have hrun : Run.Steps (AnyStep .whole) Tables.empty s := runActions_steps (fun _ _ => trivial) hs
  have hsmall : s.miner2.size < 2 ^ 32 := by rw [hsize]; decide
  exact ⟨s, hrun, hid, hsize, (internal_ids_allocated rfl rfl rfl (find_empty 0) hrun hsmall).2.2.1⟩

end YottaChain.HddPool
