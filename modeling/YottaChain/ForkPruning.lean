/-
  **Inserting a block and pruning** (`fork_database::add`, `prune`, `remove`).

  The stored blocks are a tree whose root has been declared irreversible, or is the
  block before the first one (`Shape`).  `add` declares the first of the lowest blocks
  irreversible when the head says that it is, and removes the others of its height with
  all that are built on them.

  The loop that removes them moves its iterator on before it removes a block.  After the
  last of them the iterator is at the first block of the next height, and if that one is
  built on the block that is removed it is gone when the iterator is followed.  `Safe`
  says that it is not, and then the loop ends (`wp_sweep`); otherwise it does not
  (`wp_sweep_undefined`).
-/
import Mathlib.Data.List.Find
import YottaChain.ForkDatabase

namespace YottaChain.Forks

open Imperative List

/-! ## 1. What is declared irreversible -/

/-- The block that `add` declares irreversible when the index is as it has made it. -/
def declared (index : List BlockState) : Option BlockState :=
  match best index, index.head? with
  | some head, some oldest =>
      if oldest.blockNum < head.dposIrreversibleBlocknum then some oldest else none
  | _, _ => none

/-- The other blocks with the number, as `by_block_num` has them. -/
def siblings (h : BlockState) (index : List BlockState) : List BlockState :=
  index.filter fun s => decide (s.blockNum = h.blockNum ∧ s.id ≠ h.id)

/-- Of the blocks that are built on the declared block or on the last of its siblings, the
    first is built on the declared block. -/
def Safe (index : List BlockState) : Prop :=
  ∀ h ∈ declared index, ∀ last ∈ (siblings h index).getLast?,
    ∀ t ∈ index.find? (fun t => decide (t.previous = h.id ∨ t.previous = last.id)),
      t.previous = h.id

instance decidableSafe (index : List BlockState) : Decidable (Safe index) :=
  inferInstanceAs (Decidable (∀ h ∈ declared index, ∀ last ∈ (siblings h index).getLast?,
    ∀ t ∈ index.find? (fun t => decide (t.previous = h.id ∨ t.previous = last.id)),
      t.previous = h.id))

/-- A block is left when the declared block and its siblings are gone with all that are built on
    the siblings. -/
def Survives (index : List BlockState) : Prop :=
  ∀ h ∈ declared index, ∃ b ∈ index, b.id ≠ h.id ∧
    ∀ s ∈ siblings h index, ¬ links.Below index s.id b.id

/-- A block is left when `id` and what is built on it are gone. -/
def Leaves (index : List BlockState) (id : BlockId) : Prop :=
  ∃ b ∈ index, ¬ links.Below index id b.id

/-! ## 2. The tree -/

structure Tree (base : BlockId) (index : List BlockState) : Prop where
  ids : (index.map links.key).Nodup
  sorted : Sorted index
  rooted : links.Rooted base index

structure Shape (base : BlockId) (index : List BlockState) : Prop extends Tree base index where
  bounded : ∀ b ∈ index, b.dposIrreversibleBlocknum ≤ b.blockNum

def HeadOk (db : ForkDb) : Prop :=
  ∃ b ∈ db.index, db.head = some b.id ∧ ∀ c ∈ db.index, c.libKey ≤ b.libKey

/-- The head is the first block of `by_lib_block_num`. -/
def HeadBest (db : ForkDb) : Prop := ∃ b, best db.index = some b ∧ db.head = some b.id

variable {db : ForkDb}

theorem HeadBest.headOk (h : HeadBest db) : HeadOk db := by
  obtain ⟨b, hbest, hhead⟩ := h
  obtain ⟨hb, hmax⟩ := best_spec hbest
  exact ⟨b, hb, hhead, hmax⟩

section Updates

variable {base : BlockId} {index index' : List BlockState} {db : ForkDb} {id : BlockId}

theorem Shape.remove (h : Shape base index) (id : BlockId) : Shape base (links.remove id index) where
  ids := h.ids.sublist ((links.remove_sublist h.ids id).map _)
  sorted := h.sorted.sublist (links.remove_sublist h.ids id)
  rooted := h.rooted.without fun _ => links.mem_remove h.ids
  bounded := fun b hb => h.bounded b ((links.mem_remove h.ids).mp hb).1

/-- A block with a new id that is built on a stored one keeps the tree. -/
theorem Shape.insert (h : Shape base db.index) {n : BlockState}
    (hparent : ∃ p ∈ db.index, p.id = n.previous) (hfresh : db.getBlock n.id = none)
    (hbound : n.dposIrreversibleBlocknum ≤ n.blockNum) : Shape base (db.insert n).index := by
  have hmem : ∀ b, b ∈ (db.insert n).index ↔ b = { n with arrival := db.inserted } ∨ b ∈ db.index :=
    fun b => mem_insertByNum
  refine { ids := ?ids, sorted := ?sorted, rooted := ?rooted, bounded := ?bounded }
  case ids =>
    have hperm := (insertByNum_perm { n with arrival := db.inserted } db.index).map links.key
    refine hperm.nodup_iff.mpr ?_
    rw [map_cons, nodup_cons]
    refine ⟨fun hin => ?_, h.ids⟩
    obtain ⟨b, hb, hkey⟩ := mem_map.mp hin
    exact getBlock_eq_none.mp hfresh b hb hkey
  case sorted => exact sorted_insertByNum h.sorted
  case rooted =>
    have hstored : ∃ p ∈ db.index, links.key p = links.parent { n with arrival := db.inserted } :=
      hparent
    exact h.rooted.insert hstored hmem
  case bounded =>
    intro b hb
    rcases (hmem b).mp hb with rfl | hb
    · exact hbound
    · exact h.bounded b hb

theorem wp_refreshHead (hne : db.index ≠ []) :
    Wp refreshHead db (fun _ db' => db'.index = db.index ∧ HeadBest db') (fun _ _ => False) := by
  unfold refreshHead
  simp only [wp_bind, wp_get]
  cases hbest : best db.index with
  | none => exact absurd (best_eq_none.mp hbest) hne
  | some b => exact ⟨rfl, b, hbest, rfl⟩

/-- **`remove`** deletes the block and all that are built on it, and the head is the best of the
    others. -/
theorem wp_remove (hids : (db.index.map links.key).Nodup) (hleaves : Leaves db.index id) :
    Wp (ForkDb.remove id) db
      (fun _ db' => db'.index = links.remove id db.index ∧ HeadBest db') (fun _ _ => False) := by
  unfold ForkDb.remove
  simp only [wp_bind, wp_modify]
  obtain ⟨b, hb, hnot⟩ := hleaves
  exact wp_refreshHead (ne_nil_of_mem ((links.mem_remove hids).mpr ⟨hb, hnot⟩))

theorem wp_remove_undefined (hnone : links.remove id db.index = []) :
    Wp (ForkDb.remove id) db (fun _ _ => False) (fun e _ => e = .undefined) := by
  unfold ForkDb.remove refreshHead
  simp only [wp_bind, wp_modify, wp_get, hnone]
  exact rfl

end Updates

/-! ## 3. The sweep -/

/-- The index in the last loop of `prune`: the blocks that are still to go, and those above. -/
structure Sweeping (base k : BlockId) (lows highs : List BlockState) : Prop where
  ids : ((lows ++ highs).map links.key).Nodup
  sorted : Sorted (lows ++ highs)
  level : k.num = base.num + 1
  low : ∀ s ∈ lows, s.blockNum = k.num
  high : ∀ t ∈ highs, k.num < t.blockNum
  other : ∀ s ∈ lows, s.id ≠ k
  linked : links.Linked (fun x => x = base ∨ x = k) (lows ++ highs)

/-- The first block above that is built on `k` or on the last block that is to go is built on
    `k`. -/
def SafeSweep (k : BlockId) (lows highs : List BlockState) : Prop :=
  ∀ last, lows.getLast? = some last →
    ∀ t, highs.find? (fun t => decide (t.previous = k ∨ t.previous = last.id)) = some t →
      t.previous = k

namespace Sweeping

variable {base k : BlockId} {s t : BlockState} {lows highs : List BlockState}

/-- What is built on `k` is not built on another block of that height. -/
theorem not_below_of_child (h : Sweeping base k lows highs) (hs : s ∈ lows) (ht : t ∈ lows ++ highs)
    (hchild : t.previous = k) : ¬ links.Below (lows ++ highs) s.id t.id := by
  intro hbelow
  have hnum : t.id.num = k.num + 1 := by rw [t.numbered, hchild]
  have hlow : s.id.num = k.num := h.low s hs
  have hne : t.id ≠ s.id := fun heq => by
    rw [heq, hlow] at hnum
    exact absurd hnum (Nat.succ_ne_self _).symm
  have hparent := hbelow.parent_of_mem (L := links) h.ids ht hne
  have hk : k = s.id := by
    rw [← hchild]
    refine hparent.eq_of_height_le (Nat.le_of_eq ?_)
    show t.previous.num = s.id.num
    rw [hchild, hlow]
  exact h.other s hs hk.symm

variable {s' : BlockState}

/-- The children of the last block of the height are not below the others. -/
theorem not_below_of_low (h : Sweeping base k lows highs) (hs : s ∈ lows) (hs' : s' ∈ lows)
    (hne : s.id ≠ s'.id) (ht : t ∈ lows ++ highs) (hchild : t.previous = s'.id) :
    ¬ links.Below (lows ++ highs) s.id t.id := by
  intro hbelow
  have hup : links.Below (lows ++ highs) s'.id t.id :=
    Links.Below.step (L := links) (a := t) (hchild ▸ Links.Below.refl) ht
  refine hne (hbelow.eq_of_height h.ids hup ?_)
  exact (h.low s hs).trans (h.low s' hs').symm

/-- The first block above is built on `k` or on the only block that is still to go. -/
theorem first_high (h : Sweeping base k [s] (t :: highs)) : t.previous = k ∨ t.previous = s.id := by
  have hhigh : k.num < t.id.num := h.high t mem_cons_self
  have hsorted := (pairwise_cons.mp (pairwise_cons.mp h.sorted).2).1
  rcases h.linked t (mem_cons_of_mem _ mem_cons_self) with (hbase | hk) | ⟨p, hp, hkey⟩
  · rw [t.numbered] at hhigh
    have hnum : t.previous.num = base.num := congrArg BlockId.num hbase
    rw [hnum, h.level] at hhigh
    exact absurd hhigh (Nat.lt_irrefl _)
  · exact .inl hk
  · right
    have hparent : p.id = t.previous := hkey
    have hlower : p.blockNum + 1 = t.blockNum := by
      show p.id.num + 1 = t.id.num
      rw [t.numbered, hparent]
    rcases mem_cons.mp hp with rfl | hp
    · exact hparent.symm
    · rcases mem_cons.mp hp with rfl | hp
      · exact absurd hlower (Nat.succ_ne_self _)
      · have hle := hsorted p hp
        omega

section Round

variable (h : Sweeping base k (s :: lows) highs)

include h

theorem low_not_below (hs' : s' ∈ lows) : ¬ links.Below (s :: lows ++ highs) s.id s'.id := by
  intro hbelow
  have heq := hbelow.eq_of_height_le (Nat.le_of_eq
    ((h.low s' (mem_cons_of_mem _ hs')).trans (h.low s mem_cons_self).symm))
  have hnodup := h.ids
  rw [cons_append, map_cons, nodup_cons] at hnodup
  exact hnodup.1 (mem_map.mpr ⟨s', mem_append_left _ hs', heq⟩)

/-- The blocks that are built on `k` or on a block that is still to go stay. -/
theorem child_not_below {last : BlockState}
    (hlast : last ∈ lows) (ht : t ∈ highs) (hchild : t.previous = k ∨ t.previous = last.id) :
    ¬ links.Below (s :: lows ++ highs) s.id t.id := by
  have hstored : t ∈ s :: lows ++ highs := mem_append_right _ ht
  rcases hchild with hk | hl
  · exact h.not_below_of_child mem_cons_self hstored hk
  · refine h.not_below_of_low mem_cons_self (mem_cons_of_mem _ hlast) ?_ hstored hl
    intro heq
    exact h.low_not_below hlast (heq ▸ .refl)

/-- Of the index without `s` and all that are built on it, the blocks that are to go are as
    before. -/
theorem remove_low : ∃ keep : BlockState → Bool,
    links.remove s.id (s :: lows ++ highs) = lows ++ highs.filter keep ∧
      ∀ t, keep t = true ↔ ¬ links.Below (s :: lows ++ highs) s.id t.id := by
  classical
  refine ⟨fun t => decide (¬ links.Below (s :: lows ++ highs) s.id t.id), ?_,
    fun t => decide_eq_true_iff⟩
  rw [links.remove_eq h.ids, cons_append, filter_cons_of_neg, filter_append]
  · congr 1
    exact filter_eq_self.mpr fun s' hs' => decide_eq_true (h.low_not_below hs')
  · rw [decide_eq_true_eq, not_not]
    exact .refl

/-- **One round of the sweep.**  The blocks above that are built on `k` stay, and so does the
    first block unless it is built on `s`. -/
theorem step : ∃ highs',
    links.remove s.id (s :: lows ++ highs) = lows ++ highs' ∧ highs'.Sublist highs ∧
      Sweeping base k lows highs' ∧ (SafeSweep k lows highs' ↔ SafeSweep k lows highs) ∧
      (∀ t ∈ highs, t.previous = k → t ∈ highs') ∧
      ∀ t, (lows ++ highs).head? = some t → t ∈ lows ++ highs' → (lows ++ highs').head? = some t := by
  obtain ⟨keep, hremove, hkeep⟩ := h.remove_low
  have hsub : (highs.filter keep).Sublist highs := filter_sublist
  have hmem : ∀ b, b ∈ lows ++ highs.filter keep ↔ b ∈ s :: lows ++ highs ∧
      ¬ links.Below (s :: lows ++ highs) s.id (links.key b) := by
    intro b
    rw [← hremove]
    exact links.mem_remove h.ids
  have hlist : (lows ++ highs.filter keep).Sublist (s :: lows ++ highs) :=
    (hsub.append_left lows).trans (sublist_cons_self _ _)
  refine ⟨highs.filter keep, hremove, hsub, ?_, ?_, ?_, ?_⟩
  · constructor
    case ids => exact h.ids.sublist (hlist.map _)
    case sorted => exact h.sorted.sublist hlist
    case level => exact h.level
    case low => exact fun s' hs' => h.low s' (mem_cons_of_mem _ hs')
    case high => exact fun t ht => h.high t (hsub.mem ht)
    case other => exact fun s' hs' => h.other s' (mem_cons_of_mem _ hs')
    case linked => exact h.linked.without hmem
  · refine forall_congr' fun last => imp_congr_right fun hlast => ?_
    have hmember : last ∈ lows := mem_of_getLast? hlast
    have hfind : (highs.filter keep).find? (fun t => decide (t.previous = k ∨ t.previous = last.id)) =
        highs.find? (fun t => decide (t.previous = k ∨ t.previous = last.id)) := by
      rw [find?_filter]
      refine find?_congr fun t ht => ?_
      rw [decide_eq_decide, decide_eq_true_eq, and_iff_right_iff_imp, hkeep]
      exact fun hchild => h.child_not_below hmember ht hchild
    rw [hfind]
  · intro t ht hchild
    have hstays := h.not_below_of_child mem_cons_self (mem_append_right _ ht) hchild
    exact mem_filter.mpr ⟨ht, (hkeep t).mpr hstays⟩
  · intro t ht hstays
    cases lows with
    | cons => exact ht
    | nil =>
      cases highs with
      | nil => cases ht
      | cons =>
        cases ht
        rw [nil_append, filter_cons_of_pos ((hkeep t).mpr ((hmem t).mp hstays).2)]
        rfl

end Round

/-- In the last round the iterator is at a block that does not go with the one removed. -/
theorem first_stays (h : Sweeping base k [s] (t :: highs)) (hsafe : SafeSweep k [s] (t :: highs)) :
    ¬ links.Below (s :: t :: highs) s.id t.id := by
  have hfind : (t :: highs).find? (fun t => decide (t.previous = k ∨ t.previous = s.id)) = some t :=
    find?_cons_of_pos (decide_eq_true h.first_high)
  exact h.not_below_of_child (mem_singleton_self s) (by simp) (hsafe s rfl t hfind)

/-- In a safe round the block that the iterator has moved on to is not removed. -/
theorem head_stays (h : Sweeping base k (s :: lows) highs) {highs' : List BlockState}
    (hremove : links.remove s.id (s :: lows ++ highs) = lows ++ highs')
    (hsafe : SafeSweep k (s :: lows) highs) (ht : (lows ++ highs).head? = some t) :
    t ∈ lows ++ highs' := by
  cases lows with
  | cons =>
    cases ht
    exact mem_cons_self
  | nil =>
    cases highs with
    | nil => cases ht
    | cons =>
      cases ht
      rw [← hremove]
      exact (links.mem_remove h.ids).mpr ⟨mem_cons_of_mem _ mem_cons_self, h.first_stays hsafe⟩

/-- What is left is a tree with its root at `k`. -/
theorem rooted (h : Sweeping base k [] highs) : links.Rooted k highs := by
  intro t ht
  rcases h.linked t ht with (hbase | hk) | hstored
  · have hhigh : k.num < t.id.num := h.high t ht
    rw [t.numbered, h.level] at hhigh
    have hnum : t.previous.num = base.num := congrArg BlockId.num hbase
    rw [hnum] at hhigh
    exact absurd hhigh (Nat.lt_irrefl _)
  · exact .inl hk
  · exact .inr hstored

end Sweeping

theorem successor_eq {b : BlockState} {rest : List BlockState} (hindex : db.index = b :: rest) :
    db.successor b.id = rest.head?.map BlockState.id := by
  simp [ForkDb.successor, hindex]

variable {k : BlockId} {highs lows : List BlockState}

theorem SafeSweep.tail {s : BlockState} (h : SafeSweep k (s :: lows) highs) :
    SafeSweep k lows highs := by
  intro last hlast
  refine h last ?_
  rw [getLast?_cons, hlast]
  rfl

def removeEach (index : List BlockState) (lows : List BlockState) : List BlockState :=
  lows.foldl (fun left s => links.remove s.id left) index

/-- Without the siblings and what is built on them, a tree with its root at `k` is left. -/
theorem Sweeping.removeEach {base : BlockId} (h : Sweeping base k lows highs) :
    (removeEach (lows ++ highs) lows).Sublist highs ∧
      links.Rooted k (Forks.removeEach (lows ++ highs) lows) := by
  induction lows generalizing highs with
  | nil => exact ⟨Sublist.refl _, h.rooted⟩
  | cons s lows ih =>
    obtain ⟨highs', hremove, hsub, hnext, _⟩ := h.step
    obtain ⟨hleft, hrooted⟩ := ih hnext
    have hround : Forks.removeEach (s :: lows ++ highs) (s :: lows) =
        Forks.removeEach (lows ++ highs') lows := by
      rw [← hremove]
      rfl
    rw [hround]
    exact ⟨hleft.trans hsub, hrooted⟩

section Sweep

variable {base k : BlockId} {lows highs : List BlockState} {db : ForkDb} {fuel : Nat}

theorem Sweeping.lookup (h : Sweeping base k lows highs) (hindex : db.index = lows ++ highs)
    {s : BlockState} (hs : s ∈ lows ++ highs) :
    (db.index.map links.key).Nodup ∧ db.getBlock s.id = some s := by
  rw [← hindex] at hs
  have hids : (db.index.map links.key).Nodup := by
    rw [hindex]
    exact h.ids
  exact ⟨hids, (getBlock_eq_some hids).mpr ⟨hs, rfl⟩⟩

/-- **The sweep** ends: the iterator always is at the first block, all blocks of the height of
    `k` are removed and the head is the best block that is left. -/
theorem wp_sweep (h : Sweeping base k lows highs) (hsafe : SafeSweep k lows highs)
    (hkept : ∃ b ∈ highs, b.previous = k) (hindex : db.index = lows ++ highs)
    (hhead : HeadBest db) (hfuel : lows.length < fuel) :
    Wp (ForkDb.sweep k.num fuel ((lows ++ highs).head?.map BlockState.id)) db
      (fun _ db' => Sweeping base k [] db'.index ∧ db'.index.Sublist highs ∧
        db'.index = removeEach (lows ++ highs) lows ∧ HeadBest db') (fun _ _ => False) := by
  induction lows generalizing highs db fuel with
  | nil =>
    obtain ⟨fuel, rfl⟩ := Nat.exists_eq_succ_of_ne_zero (Nat.ne_zero_of_lt hfuel)
    cases highs with
    | nil =>
      obtain ⟨b, hb, _⟩ := hkept
      cases hb
    | cons t =>
      have hget := (h.lookup hindex mem_cons_self).2
      have hnum : t.blockNum ≠ k.num := Nat.ne_of_gt (h.high t mem_cons_self)
      show Wp (ForkDb.sweep k.num (fuel + 1) (some t.id)) db _ _
      simp only [ForkDb.sweep, wp_bind, wp_get, hget, if_neg hnum, wp_pure]
      rw [hindex]
      exact ⟨h, Sublist.refl _, rfl, hhead⟩
  | cons s lows ih =>
    obtain ⟨fuel, rfl⟩ := Nat.exists_eq_succ_of_ne_zero (Nat.ne_zero_of_lt hfuel)
    obtain ⟨hids, hget⟩ := h.lookup hindex mem_cons_self
    obtain ⟨highs', hremove, hsub, hnext, hsafe', hchildren, hfirst⟩ := h.step
    obtain ⟨b, hb, hchild⟩ := hkept
    have hb' := hchildren b hb hchild
    have hleaves : Leaves db.index s.id := by
      rw [hindex]
      refine ⟨b, mem_append_right _ hb, ?_⟩
      exact h.not_below_of_child mem_cons_self (mem_append_right _ hb) hchild
    have hnitr : db.successor s.id = (lows ++ highs').head?.map BlockState.id := by
      rw [successor_eq hindex]
      cases ht : (lows ++ highs).head? with
      | none =>
        have hnil := head?_eq_none_iff.mp ht
        exact absurd (mem_append_right lows hb) (hnil ▸ not_mem_nil)
      | some t => rw [hfirst t ht (h.head_stays hremove hsafe ht)]
    show Wp (ForkDb.sweep k.num (fuel + 1) (some s.id)) db _ _
    simp only [ForkDb.sweep, wp_bind, wp_get, hget, if_pos (h.low s mem_cons_self)]
    refine (wp_remove hids hleaves).returns ?_
    rintro _ db' ⟨hindex', hhead'⟩
    rw [hindex, hremove] at hindex'
    rw [hnitr]
    refine (ih hnext (hsafe'.mpr hsafe.tail) ⟨b, hb', hchild⟩ hindex' hhead'
      (Nat.lt_of_succ_lt_succ hfuel)).returns ?_
    rintro _ db'' ⟨hdone, hsub', hleft, hhead''⟩
    refine ⟨hdone, hsub'.trans hsub, ?_, hhead''⟩
    rw [hleft, ← hremove]
    rfl

theorem Sweeping.first_gone {s t : BlockState} (h : Sweeping base k [s] (t :: highs))
    (hne : t.previous ≠ k) : t ∉ links.remove s.id (s :: t :: highs) := by
  intro ht
  refine ((links.mem_remove h.ids).mp ht).2 ?_
  have hts := h.first_high.resolve_left hne
  exact Links.Below.step (L := links) (hts ▸ .refl) (by simp)

/-- The first block above is built on `k` only if the sweep is safe and something is left. -/
theorem first_not_child {s t : BlockState}
    (hbad : ¬ SafeSweep k [s] (t :: highs) ∨ ∀ t' ∈ t :: highs, t'.previous ≠ k) :
    t.previous ≠ k := by
  intro htk
  rcases hbad with hunsafe | hnone
  · refine hunsafe fun last _ t' ht' => ?_
    rw [find?_cons_of_pos] at ht'
    · cases ht'
      exact htk
    · exact decide_eq_true (.inl htk)
  · exact hnone t mem_cons_self htk

/-- When it is not safe, or nothing would be left, the sweep follows an iterator to a block that is
    gone or takes the first block of an empty container. -/
theorem wp_sweep_undefined (h : Sweeping base k lows highs) (hlows : lows ≠ [])
    (hbad : ¬ SafeSweep k lows highs ∨ ∀ t ∈ highs, t.previous ≠ k) (hindex : db.index = lows ++ highs)
    (hfuel : lows.length < fuel) :
    Wp (ForkDb.sweep k.num fuel ((lows ++ highs).head?.map BlockState.id)) db
      (fun _ _ => False) (fun e _ => e = .undefined) := by
  induction lows generalizing highs db fuel with
  | nil => exact absurd rfl hlows
  | cons s lows ih =>
    obtain ⟨fuel, rfl⟩ := Nat.exists_eq_succ_of_ne_zero (Nat.ne_zero_of_lt hfuel)
    obtain ⟨hids, hget⟩ := h.lookup hindex mem_cons_self
    obtain ⟨highs', hremove, hsub, hnext, hsafe', _, hfirst⟩ := h.step
    show Wp (ForkDb.sweep k.num (fuel + 1) (some s.id)) db _ _
    simp only [ForkDb.sweep, wp_bind, wp_get, hget, if_pos (h.low s mem_cons_self)]
    cases lows with
    | cons s' lows =>
      have hleaves : Leaves db.index s.id := by
        rw [hindex]
        exact ⟨s', by simp, h.low_not_below mem_cons_self⟩
      refine (wp_remove hids hleaves).returns ?_
      rintro _ db' ⟨hindex', _⟩
      rw [hindex, hremove] at hindex'
      rw [successor_eq hindex]
      show Wp (ForkDb.sweep k.num fuel ((s' :: lows ++ highs').head?.map BlockState.id)) db' _ _
      refine ih hnext (cons_ne_nil _ _) ?_ hindex' (Nat.lt_of_succ_lt_succ hfuel)
      refine hbad.imp (fun hunsafe hsafe => hunsafe ?_) fun hnone t ht => hnone t (hsub.mem ht)
      intro last hlast
      rw [getLast?_cons_cons] at hlast
      exact hsafe'.mp hsafe last hlast
    | nil =>
      -- the last block goes: either nothing is left, or the next one goes with it
      by_cases hempty : links.remove s.id db.index = []
      · exact (wp_remove_undefined hempty).throws fun _ _ he => he
      · obtain ⟨u, hu⟩ := exists_mem_of_ne_nil _ hempty
        obtain ⟨hstored, hnot⟩ := (links.mem_remove hids).mp hu
        refine (wp_remove hids ⟨u, hstored, hnot⟩).returns ?_
        rintro _ db' ⟨hindex', _⟩
        rw [hindex] at hindex' hu
        cases highs with
        | nil =>
          rw [hremove, sublist_nil.mp hsub] at hu
          cases hu
        | cons t =>
          have hget' : db'.getBlock t.id = none := by
            refine getBlock_eq_none.mpr fun b hb heq => ?_
            rw [hindex'] at hb
            have hbt : b = t := inj_on_of_nodup_map h.ids
              ((links.remove_sublist h.ids _).mem hb) (by simp) heq
            exact h.first_gone (first_not_child hbad) (hbt ▸ hb)
          rw [show db.successor s.id = some t.id from successor_eq hindex]
          cases fuel with
          | zero => exact rfl
          | succ =>
            simp only [ForkDb.sweep, wp_bind, wp_get, hget']
            exact rfl

end Sweep

/-! ## 4. Pruning -/

/-- A sorted index begins with the blocks of the lowest height. -/
theorem eq_filter_append {index : List BlockState} {n : Nat} (hsorted : Sorted index)
    (hmin : ∀ b ∈ index, n ≤ b.blockNum) :
    index = index.filter (fun b => decide (b.blockNum = n)) ++
      index.filter (fun b => decide (n < b.blockNum)) := by
  induction index with
  | nil => rfl
  | cons b index ih =>
    obtain ⟨hb, hindex⟩ := pairwise_cons.mp hsorted
    have ih' := ih hindex fun c hc => hmin c (mem_cons_of_mem _ hc)
    by_cases hn : b.blockNum = n
    · rw [filter_cons_of_pos (by simpa using hn), filter_cons_of_neg (by simp [hn]),
        cons_append, ← ih']
    · have hlt : n < b.blockNum := Nat.lt_of_le_of_ne (hmin b mem_cons_self) (Ne.symm hn)
      have hnone : index.filter (fun b => decide (b.blockNum = n)) = [] := by
        refine filter_eq_nil_iff.mpr fun c hc => ?_
        have hle := hb c hc
        simp only [decide_eq_true_eq]
        omega
      rw [hnone, nil_append] at ih'
      rw [filter_cons_of_neg (by simpa using hn), hnone, nil_append,
        filter_cons_of_pos (by simpa using hlt), ← ih']

section Prune

variable {base : BlockId} {b : BlockState} {rest : List BlockState} {c : BlockState}

section

variable (h : Shape base (b :: rest))

include h

theorem Shape.id_ne (hc : c ∈ rest) : c.id ≠ b.id := by
  intro heq
  have hids := h.ids
  rw [map_cons, nodup_cons] at hids
  exact hids.1 (mem_map.mpr ⟨c, hc, heq⟩)

theorem Shape.filter_ne : (b :: rest).filter (fun c => decide (c.id ≠ b.id)) = rest := by
  rw [filter_cons_of_neg (by simp)]
  exact filter_eq_self.mpr fun c hc => decide_eq_true (h.id_ne hc)

theorem Shape.lowest :
    (∀ c ∈ rest, b.blockNum ≤ c.blockNum) ∧ b.previous = base ∧ b.blockNum = base.num + 1 := by
  have hmin := (pairwise_cons.mp h.sorted).1
  have hnum : b.blockNum = base.num + 1 := by
    exact h.rooted.height_of_lowest mem_cons_self
      (forall_mem_cons.mpr ⟨Nat.le_refl _, hmin⟩)
  exact ⟨hmin, h.rooted.parent_eq mem_cons_self hnum, hnum⟩

theorem Shape.siblings_eq :
    siblings b (b :: rest) = rest.filter fun c => decide (c.blockNum = b.blockNum) := by
  rw [siblings, filter_cons_of_neg (by simp)]
  refine filter_congr fun c hc => ?_
  rw [decide_eq_decide]
  exact and_iff_left (h.id_ne hc)

/-- A block that survives is reached from the base over a block of the lowest height; it is not a
    sibling, so something is built on the declared block. -/
theorem Shape.exists_child (hdeclared : declared (b :: rest) = some b)
    (hsurvives : Survives (b :: rest)) : ∃ c ∈ b :: rest, c.previous = b.id := by
  obtain ⟨c, hc, hne, hnot⟩ := hsurvives b hdeclared
  obtain ⟨_, _, hnum⟩ := h.lowest
  have hbase : links.key c ≠ base := by
    intro heq
    have hlt := h.rooted.height_lt hc
    rw [heq] at hlt
    exact absurd hlt (Nat.lt_irrefl _)
  obtain ⟨s, hs, hparent, hbelow⟩ := (h.rooted.below hc).exists_child hbase
  by_cases hsb : s.id = b.id
  · have hkey : links.key s = b.id := hsb
    rw [hkey] at hbelow
    obtain ⟨d, hd, hdb, _⟩ := hbelow.exists_child hne
    exact ⟨d, hd, hdb⟩
  · have hsnum : s.blockNum = b.blockNum := by
      rw [hnum, BlockState.blockNum, s.numbered]
      exact congrArg (fun k : BlockId => k.num + 1) hparent
    refine absurd hbelow (hnot s ?_)
    rw [siblings, mem_filter, decide_eq_true_eq]
    exact ⟨hs, hsnum, hsb⟩

/-- Without its first block the index is as the sweep expects it. -/
theorem Shape.sweeping : ∃ highs,
    rest = siblings b (b :: rest) ++ highs ∧ Sweeping base b.id (siblings b (b :: rest)) highs := by
  obtain ⟨hmin, hprevious, hnum⟩ := h.lowest
  have hrest := eq_filter_append (pairwise_cons.mp h.sorted).2 hmin
  rw [h.siblings_eq]
  have hlow : ∀ c ∈ rest.filter (fun c => decide (c.blockNum = b.blockNum)),
      c ∈ rest ∧ c.blockNum = b.blockNum := by
    intro c hc
    simpa using hc
  refine ⟨_, hrest, ?_⟩
  constructor
  case ids =>
    rw [← hrest]
    exact (nodup_cons.mp h.ids).2
  case sorted =>
    rw [← hrest]
    exact (pairwise_cons.mp h.sorted).2
  case level => exact hnum
  case low => exact fun c hc => (hlow c hc).2
  case high =>
    intro c hc
    exact of_decide_eq_true (mem_filter.mp hc).2
  case other => exact fun c hc => h.id_ne (hlow c hc).1
  case linked =>
    rw [← hrest]
    have hlinked := h.rooted.expose b.id
    rw [show (b :: rest).filter (fun a => decide (links.key a ≠ b.id)) = rest from h.filter_ne]
      at hlinked
    exact hlinked

end

variable {highs : List BlockState}

theorem siblings_length_lt (hrest : rest = siblings b (b :: rest) ++ highs) :
    (siblings b (b :: rest)).length < rest.length + 1 := by
  conv_rhs => rw [hrest]
  rw [length_append]
  omega

/-- Only the blocks above can be built on the declared block or on a sibling, so that `Safe` looks
    at what the sweep looks at. -/
theorem safe_iff (hdeclared : declared (b :: rest) = some b)
    (hrest : rest = siblings b (b :: rest) ++ highs) :
    Safe (b :: rest) ↔ SafeSweep b.id (siblings b (b :: rest)) highs := by
  have hnot : ∀ (c : BlockState) (k : BlockId), c.blockNum = b.blockNum → k.num = b.blockNum →
      c.previous ≠ k := by
    rintro c k hc hk rfl
    have hstep := c.numbered
    rw [BlockState.blockNum, hstep] at hc
    omega
  have hlow : ∀ c ∈ siblings b (b :: rest), c.blockNum = b.blockNum := by
    intro c hc
    rw [siblings, mem_filter, decide_eq_true_eq] at hc
    exact hc.2.1
  have hfind : ∀ last ∈ siblings b (b :: rest),
      (b :: rest).find? (fun t => decide (t.previous = b.id ∨ t.previous = last.id)) =
        highs.find? (fun t => decide (t.previous = b.id ∨ t.previous = last.id)) := by
    intro last hlast
    have hneg : ∀ c : BlockState, c.blockNum = b.blockNum →
        ¬ decide (c.previous = b.id ∨ c.previous = last.id) = true := by
      intro c hc
      rw [decide_eq_true_eq, not_or]
      exact ⟨hnot c b.id hc rfl, hnot c last.id hc (hlow last hlast)⟩
    have hnone : (siblings b (b :: rest)).find?
        (fun t => decide (t.previous = b.id ∨ t.previous = last.id)) = none :=
      find?_eq_none.mpr fun c hc => hneg c (hlow c hc)
    rw [find?_cons_of_neg]
    · conv_lhs => rw [hrest]
      rw [find?_append, hnone]
      rfl
    · exact hneg b rfl
  constructor
  · intro hsafe last hlast t ht
    refine hsafe b hdeclared last hlast t ?_
    rw [hfind last (mem_of_getLast? hlast)]
    exact ht
  · intro hsafe b' hb' last hlast t ht
    obtain rfl : b = b' := Option.some.inj (hdeclared.symm.trans hb')
    rw [hfind last (mem_of_getLast? hlast)] at ht
    exact hsafe last hlast t ht

theorem child_mem_highs (hrest : rest = siblings b (b :: rest) ++ highs) (hc : c ∈ b :: rest)
    (hchild : c.previous = b.id) : c ∈ highs := by
  have hcnum : c.blockNum = b.blockNum + 1 := by
    rw [BlockState.blockNum, c.numbered, hchild]
    rfl
  rcases mem_cons.mp hc with rfl | hc
  · exact absurd hcnum (Nat.succ_ne_self _).symm
  · rw [hrest] at hc
    rcases mem_append.mp hc with hc | hc
    · rw [siblings, mem_filter, decide_eq_true_eq] at hc
      omega
    · exact hc

variable {db : ForkDb}

theorem lowerBound_eq {n : Nat} (h : ∀ c ∈ db.index, n ≤ c.blockNum) :
    db.lowerBound n = db.index.head?.map BlockState.id := by
  unfold ForkDb.lowerBound
  cases hindex : db.index with
  | nil => rfl
  | cons c =>
    rw [find?_cons_of_pos]
    · rfl
    · exact decide_eq_true (h c (hindex ▸ mem_cons_self))

theorem declared_spec {index : List BlockState} {h : BlockState} (hd : declared index = some h) :
    index.head? = some h ∧ ∃ head, best index = some head ∧
      h.blockNum < head.dposIrreversibleBlocknum := by
  unfold declared at hd
  split at hd
  · rename_i head oldest hbest hfirst
    split at hd
    · rename_i hlt
      cases hd
      exact ⟨hfirst, head, hbest, hlt⟩
    · cases hd
  · cases hd

/-- The best block is not the declared one, whose number it has passed. -/
theorem HeadBest.erase (hhead : HeadBest db) (h : Shape base db.index)
    (hindex : db.index = b :: rest) (hdeclared : declared (b :: rest) = some b) :
    HeadBest (db.erase b.id) := by
  obtain ⟨_, top, hbest, hlt⟩ := declared_spec hdeclared
  obtain ⟨head, hbest', hid⟩ := hhead
  rw [hindex] at hbest'
  obtain rfl : head = top := Option.some.inj (hbest'.symm.trans hbest)
  have hmem : head ∈ db.index := hindex ▸ (best_spec hbest).1
  have hbound := h.bounded head hmem
  have hne : head.id ≠ b.id := by
    intro heq
    have hnum : head.blockNum = b.blockNum := congrArg BlockId.num heq
    omega
  refine ⟨head, ?_, hid⟩
  rw [ForkDb.erase, hindex]
  exact best_filter hbest (decide_eq_true hne)

theorem Shape.erase_index (h : Shape base (b :: rest)) (hindex : db.index = b :: rest) :
    (db.erase b.id).index = rest := by
  rw [ForkDb.erase, hindex]
  exact h.filter_ne

/-- What `prune` leaves. -/
def pruned (index : List BlockState) : List BlockState :=
  match declared index with
  | none => index
  | some h => removeEach (index.filter fun c => decide (c.id ≠ h.id)) (siblings h index)

section Handlers

variable {ω : Type} {irreversible : BlockState → EStateM Failure ω Unit} {db : ForkDb} {w : ω}
  {R : ω → Prop} {E : Failure → ForkDb × ω → Prop} {fuel : Nat}

/-- `prune` of the first block is the handler and then the sweep. -/
theorem wp_prune_iff (h : Shape base db.index) (hindex : db.index = b :: rest)
    {Q : Unit → ForkDb × ω → Prop} :
    Wp (ForkDb.prune irreversible (fuel + 1) b) (db, w) Q E ↔
      Wp (irreversible b) w (fun _ w' =>
        Wp (ForkDb.sweep b.id.num (rest.length + 1) (rest.head?.map BlockState.id)) (db.erase b.id)
          (fun _ db' => Q () (db', w')) (fun e db' => E e (db', w'))) (fun e w' => E e (db, w')) := by
  have h' : Shape base (b :: rest) := hindex ▸ h
  have hget : db.getBlock b.id = some b :=
    (getBlock_eq_some h.ids).mpr ⟨hindex ▸ mem_cons_self, rfl⟩
  have herase := h'.erase_index hindex
  have hlow : (db.erase b.id).lowerBound b.blockNum = rest.head?.map BlockState.id := by
    rw [lowerBound_eq, herase]
    rw [herase]
    exact h'.lowest.1
  simp only [ForkDb.prune, ForkDb.pruneLower, wp_bind, wp_get, hindex, head?_cons,
    Nat.lt_irrefl, if_false, wp_pure, hget, ForkDb.onHandlers, ForkDb.onDb, wp_zoom, wp_modify,
    hlow, herase]
  exact Iff.rfl

/-- **`prune`** of the first block: it is emitted, and the blocks that are left are built on it. -/
theorem wp_prune (h : Shape base db.index) (hhead : HeadBest db) (hindex : db.index = b :: rest)
    (hdeclared : declared db.index = some b) (hsafe : Safe db.index)
    (hchild : ∃ c ∈ db.index, c.previous = b.id)
    (hemit : Wp (irreversible b) w (fun _ w' => R w') (fun e w' => E e (db, w'))) :
    Wp (ForkDb.prune irreversible (fuel + 1) b) (db, w)
      (fun _ s => Shape b.id s.1.index ∧ s.1.index = pruned db.index ∧ HeadBest s.1 ∧ R s.2) E := by
  have h' : Shape base (b :: rest) := hindex ▸ h
  rw [wp_prune_iff h hindex]
  rw [hindex] at hdeclared hsafe hchild
  obtain ⟨highs, hrest, hsweep⟩ := h'.sweeping
  obtain ⟨c, hc, hcb⟩ := hchild
  refine hemit.mono (fun _ w' hR => ?_) fun _ _ hE => hE
  have hwp := wp_sweep hsweep ((safe_iff hdeclared hrest).mp hsafe)
    ⟨c, child_mem_highs hrest hc hcb, hcb⟩ ((h'.erase_index hindex).trans hrest)
    (hhead.erase h hindex hdeclared) (siblings_length_lt hrest)
  rw [← hrest] at hwp
  refine hwp.returns ?_
  rintro _ db' ⟨hdone, hsub, hleft, hhead'⟩
  refine ⟨⟨⟨hdone.ids, hdone.sorted, hdone.rooted⟩, fun c hc => ?_⟩, ?_, hhead', hR⟩
  · refine h'.bounded c (mem_cons_of_mem _ ?_)
    rw [hrest]
    exact mem_append_right _ (hsub.mem hc)
  · rw [pruned, hindex, hdeclared, hleft]
    exact congrArg (fun left => removeEach left _) h'.filter_ne.symm

/-- When the sweep is not safe or no block is built on the declared one, pruning does not end in a
    defined state. -/
theorem wp_prune_undefined (h : Shape base db.index) (hindex : db.index = b :: rest)
    (hdeclared : declared db.index = some b) (hrest : rest ≠ [])
    (hbad : ¬ Safe db.index ∨ ∀ c ∈ db.index, c.previous ≠ b.id)
    (hemit : Wp (irreversible b) w (fun _ _ => True) (fun e w' => E e (db, w')))
    (hundefined : ∀ s, E .undefined s) :
    Wp (ForkDb.prune irreversible (fuel + 1) b) (db, w) (fun _ _ => False) E := by
  have h' : Shape base (b :: rest) := hindex ▸ h
  rw [wp_prune_iff h hindex]
  rw [hindex] at hdeclared hbad
  obtain ⟨highs, hsplit, hsweep⟩ := h'.sweeping
  have hhighs : ∀ c ∈ highs, c ∈ b :: rest := by
    intro c hc
    rw [hsplit]
    exact mem_cons_of_mem _ (mem_append_right _ hc)
  have hbad' : ¬ SafeSweep b.id (siblings b (b :: rest)) highs ∨ ∀ t ∈ highs, t.previous ≠ b.id :=
    hbad.imp (mt (safe_iff hdeclared hsplit).mpr) fun hnone t ht => hnone t (hhighs t ht)
  have hlows : siblings b (b :: rest) ≠ [] := by
    intro hnil
    rw [hnil] at hsplit hsweep hbad'
    have hunbuilt := hbad'.resolve_left (not_not.mpr fun _ hlast => nomatch hlast)
    obtain ⟨c, hc⟩ := exists_mem_of_ne_nil highs (fun hempty => hrest (by rw [hsplit, hempty]; rfl))
    obtain ⟨a, ha, hparent, _⟩ := (hsweep.rooted.below hc).exists_child (h'.id_ne (by
      rw [hsplit]
      exact hc))
    exact hunbuilt a ha hparent
  refine hemit.mono (fun _ w' _ => ?_) fun _ _ hE => hE
  have hwp := wp_sweep_undefined hsweep hlows hbad' ((h'.erase_index hindex).trans hsplit)
    (siblings_length_lt hsplit)
  rw [← hsplit] at hwp
  refine hwp.throws ?_
  rintro _ db' rfl
  exact hundefined _

end Handlers

/-- What a legal `add` returns: the head is the best of the blocks that are left, and if a block
    has been declared irreversible the others are built on it. -/
structure Added {ω : Type} (base : BlockId) (index : List BlockState) (w : ω)
    (R : BlockState → ω → Prop) (s : ForkDb × ω) : Prop where
  head : HeadBest s.1
  left : s.1.index = pruned index
  outcome : (declared index = none ∧ Shape base s.1.index ∧ s.2 = w) ∨
    ∃ b, declared index = some b ∧ b.previous = base ∧ Shape b.id s.1.index ∧ R b s.2

def withBlock (db : ForkDb) (n : BlockState) : ForkDb :=
  { db.insert n with head := (best (db.insert n).index).map BlockState.id }

theorem withBlock_headBest (db : ForkDb) (n : BlockState) : HeadBest (withBlock db n) := by
  cases hbest : best (db.insert n).index with
  | none =>
    have hmem : _ ∈ (db.insert n).index := mem_insertByNum.mpr (.inl rfl)
    rw [best_eq_none.mp hbest] at hmem
    cases hmem
  | some b => exact ⟨b, hbest, congrArg (Option.map BlockState.id) hbest⟩

section Add

variable {ω : Type} {irreversible : BlockState → EStateM Failure ω Unit} {db : ForkDb} {w : ω}
  {n : BlockState} {skipValidatePrevious : Bool} {E : Failure → ForkDb × ω → Prop}

/-- `add` of a block with a new id: the block is inserted, and what is left to do is to prune. -/
theorem wp_add_iff {Q : BlockState → ForkDb × ω → Prop} (hhead : db.head ≠ none)
    (hparent : ∃ p ∈ db.index, p.id = n.previous) (hfresh : db.getBlock n.id = none) :
    Wp (ForkDb.add irreversible n skipValidatePrevious) (db, w) Q E ↔
      match declared (db.insert n).index with
      | none => Q n (withBlock db n, w)
      | some b => Wp (ForkDb.prune irreversible ((db.insert n).index.length + 1) b)
          (withBlock db n, w) (fun _ s => Q n s) E := by
  have hhead' : ¬ db.head.isNone = true := by simpa using hhead
  have hparent' : ¬ (skipValidatePrevious = false ∧ (db.getBlock n.previous).isNone = true) := by
    rintro ⟨_, hnone⟩
    obtain ⟨p, hp, hid⟩ := hparent
    exact getBlock_eq_none.mp (Option.isNone_iff_eq_none.mp hnone) p hp hid
  have hfresh' : ¬ (db.getBlock n.id).isSome = true := by simp [hfresh]
  obtain ⟨head, hbest, _⟩ := withBlock_headBest db n
  replace hbest : best (db.insert n).index = some head := hbest
  unfold ForkDb.add refreshHead
  simp only [wp_bind, wp_get, if_neg hhead', if_neg hparent', if_neg hfresh', ForkDb.onDb, wp_zoom,
    wp_modify, hbest]
  cases hfirst : (db.insert n).index with
  | nil =>
    rw [hfirst] at hbest
    cases hbest
  | cons oldest rest =>
    have hdb : (⟨oldest :: rest, some head.id, (db.insert n).inserted⟩ : ForkDb) = withBlock db n := by
      rw [withBlock, hbest, ← hfirst]
      rfl
    rw [declared, ← hfirst, hbest, hfirst]
    simp only [head?_cons, hdb]
    split
    · simp only [wp_bind, wp_pure]
    · simp only [wp_pure]

/-- **`add`** of a block that is built on a stored one. -/
theorem wp_add {R : BlockState → ω → Prop} (h : Shape base db.index)
    (hparent : ∃ p ∈ db.index, p.id = n.previous)
    (hbound : n.dposIrreversibleBlocknum ≤ n.blockNum)
    (hsurvives : db.getBlock n.id = none → Survives (db.insert n).index)
    (hsafe : db.getBlock n.id = none → Safe (db.insert n).index)
    (hemit : ∀ b, declared (db.insert n).index = some b →
      Wp (irreversible b) w (fun _ w' => R b w') (fun e w' => E e (withBlock db n, w')))
    (hthrown : ∀ message, E (.thrown message) (db, w)) :
    Wp (ForkDb.add irreversible n skipValidatePrevious) (db, w)
      (fun _ s => Added base (db.insert n).index w R s) E := by
  by_cases hhead : db.head = none
  · unfold ForkDb.add
    simp only [wp_bind, wp_get, hhead, Option.isNone_none, if_true, wp_throw]
    exact hthrown _
  · cases hfresh : db.getBlock n.id with
    | some =>
      unfold ForkDb.add
      simp only [wp_bind, wp_get, wp_ite, wp_throw]
      refine ⟨fun _ => hthrown _, fun _ => ⟨fun _ => hthrown _, fun _ => ⟨fun _ => hthrown _,
        fun hnew => ?_⟩⟩⟩
      rw [hfresh] at hnew
      exact absurd rfl hnew
    | none =>
      have hshape := h.insert hparent hfresh hbound
      rw [wp_add_iff hhead hparent hfresh]
      cases hdeclared : declared (db.insert n).index with
      | none =>
        refine ⟨withBlock_headBest db n, ?_, .inl ⟨hdeclared, hshape, rfl⟩⟩
        rw [pruned, hdeclared]
        rfl
      | some b =>
        obtain ⟨hfirst, _⟩ := declared_spec hdeclared
        obtain ⟨rest, hindex⟩ := head?_eq_some_iff.mp hfirst
        have hshape' : Shape base (b :: rest) := hindex ▸ hshape
        have hstored : Shape base (withBlock db n).index := hshape
        have hchild := hshape'.exists_child (hindex ▸ hdeclared) (hindex ▸ hsurvives hfresh)
        refine (wp_prune hstored (withBlock_headBest db n) hindex hdeclared
          (hsafe hfresh) (hindex ▸ hchild) (hemit b hdeclared)).mono ?_ fun _ _ hE => hE
        rintro _ s ⟨hshape'', hleft, hhead', hR⟩
        exact ⟨hhead', hleft, .inr ⟨b, hdeclared, hshape'.lowest.2.1, hshape'', hR⟩⟩

end Add

end Prune

end YottaChain.Forks
