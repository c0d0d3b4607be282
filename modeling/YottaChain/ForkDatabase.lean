/-
  **The fork database** (`fork_database.cpp`).

  The blocks that may still become part of the chain are kept in one container with
  several orders.  The list `index` is in the order `by_block_num`: by number, then the
  blocks of the current chain first, then as they came.  The order `by_lib_block_num`,
  whose first block is the head, needs the order of insertion for ties (`arrival`).

  An id carries the number of its block in its first bits, so that a block is one
  higher than the block its header names.  Where the source follows an iterator to a
  block that is gone, or takes the first block of an empty container, the model ends in
  `Failure.undefined`.
-/
import Mathlib.Data.List.TakeDrop
import Mathlib.Data.List.TakeWhile
import Mathlib.Data.Prod.Lex
import YottaChain.Imperative
import YottaChain.ParentLinks

namespace YottaChain.Forks

open Imperative List

/-! ## 1. Blocks -/

structure BlockId where
  num : Nat
  hash : Nat
deriving DecidableEq

structure BlockState where
  id : BlockId
  /-- `header.previous`. -/
  previous : BlockId
  dposIrreversibleBlocknum : Nat
  bftIrreversibleBlocknum : Nat
  validated : Bool
  inCurrentChain : Bool
  /-- Whether there is a `block`: the head that a snapshot brings is a header only. -/
  hasBlock : Bool
  /-- When the block was inserted. -/
  arrival : Nat
  numbered : id.num = previous.num + 1
deriving DecidableEq

namespace BlockState

def blockNum (b : BlockState) : Nat := b.id.num

/-- The key of `by_lib_block_num`. -/
def libKey (b : BlockState) : Nat ×ₗ Nat ×ₗ Nat :=
  toLex (b.dposIrreversibleBlocknum, toLex (b.bftIrreversibleBlocknum, b.blockNum))

/-- `a` stands before `b` in the order `by_lib_block_num`. -/
def outranks (a b : BlockState) : Bool :=
  decide (b.libKey < a.libKey) || (decide (a.libKey = b.libKey) && decide (a.arrival < b.arrival))

/-- The key of `a` is smaller in the order `by_block_num`. -/
def precedes (a b : BlockState) : Bool :=
  decide (a.blockNum < b.blockNum) ||
    (decide (a.blockNum = b.blockNum) && a.inCurrentChain && !b.inCurrentChain)

end BlockState

/-- Blocks are linked by `previous`. -/
def links : Links BlockState BlockId where
  key := BlockState.id
  parent := BlockState.previous
  height := BlockId.num
  step := BlockState.numbered

structure ForkDb where
  index : List BlockState
  head : Option BlockId
  /-- How many blocks have been inserted. -/
  inserted : Nat

inductive Failure where
  | thrown (message : String)
  | undefined
deriving DecidableEq

/-! ## 2. The container -/

def insertByNum (b : BlockState) : List BlockState → List BlockState
  | [] => [b]
  | c :: index => if b.precedes c then b :: c :: index else c :: insertByNum b index

/-- The first block of `by_lib_block_num`. -/
def best : List BlockState → Option BlockState
  | [] => none
  | b :: index =>
      match best index with
      | none => some b
      | some c => some (if c.outranks b then c else b)

/-- A block whose key has changed stays where it is if that is in order, and is inserted anew
    if not. -/
def relink (before : List BlockState) (b : BlockState) (after : List BlockState) :
    List BlockState :=
  if before.getLast?.all (fun a => !b.precedes a) && after.head?.all (fun c => !c.precedes b) then
    before ++ b :: after
  else insertByNum b (before ++ after)

namespace ForkDb

def getBlock (db : ForkDb) (id : BlockId) : Option BlockState :=
  db.index.find? fun b => decide (b.id = id)

def insert (db : ForkDb) (b : BlockState) : ForkDb :=
  { db with
    index := insertByNum { b with arrival := db.inserted } db.index
    inserted := db.inserted + 1 }

def erase (db : ForkDb) (id : BlockId) : ForkDb :=
  { db with index := db.index.filter fun b => decide (b.id ≠ id) }

/-- The block after that of an iterator of `by_block_num`. -/
def successor (db : ForkDb) (id : BlockId) : Option BlockId :=
  ((db.index.dropWhile fun b => decide (b.id ≠ id)).tail.head?).map BlockState.id

/-- `lower_bound` of `by_block_num`. -/
def lowerBound (db : ForkDb) (num : Nat) : Option BlockId :=
  (db.index.find? fun b => decide (num ≤ b.blockNum)).map BlockState.id

def remark (db : ForkDb) (id : BlockId) (inCurrentChain : Bool) : ForkDb :=
  match db.index.span fun b => decide (b.id ≠ id) with
  | (_, []) => db
  | (before, b :: after) =>
      { db with index := relink before { b with inCurrentChain := inCurrentChain } after }

def setValidated (db : ForkDb) (id : BlockId) : ForkDb :=
  { db with index := db.index.map fun b => if b.id = id then { b with validated := true } else b }

/-! ## 3. Branches -/

/-- The blocks down to the first that is not above `num`, and that one. -/
def descendTo (db : ForkDb) (num : Nat) : Nat → BlockState → Option (List BlockState × BlockState)
  | 0, _ => none
  | fuel + 1, b =>
      if num < b.blockNum then do
        let prev ← db.getBlock b.previous
        let (branch, last) ← descendTo db num fuel prev
        pure (b :: branch, last)
      else some ([], b)

def descendBoth (db : ForkDb) :
    Nat → BlockState → BlockState → Option (List BlockState × List BlockState)
  | 0, _, _ => none
  | fuel + 1, first, second =>
      if first.previous ≠ second.previous then do
        let first' ← db.getBlock first.previous
        let second' ← db.getBlock second.previous
        let branches ← descendBoth db fuel first' second'
        pure (first :: branches.1, second :: branches.2)
      else some ([first], [second])

/-- `fetch_branch_from`; a block that is missing is dereferenced. -/
def fetchBranchFrom (db : ForkDb) (first second : BlockId) :
    Option (List BlockState × List BlockState) := do
  let firstBranch ← db.getBlock first
  let secondBranch ← db.getBlock second
  let (above, firstBranch) ← db.descendTo secondBranch.blockNum (firstBranch.blockNum + 1) firstBranch
  let (above', secondBranch) ←
    db.descendTo firstBranch.blockNum (secondBranch.blockNum + 1) secondBranch
  let branches ← db.descendBoth (firstBranch.blockNum + 1) firstBranch secondBranch
  pure (above ++ branches.1, above' ++ branches.2)

end ForkDb

/-! ## 4. The operations -/

abbrev ForkM (α : Type) : Type := EStateM Failure ForkDb α

/-- Programs that also reach the state of the handlers of the signal `irreversible`. -/
abbrev SignalM (ω α : Type) : Type := EStateM Failure (ForkDb × ω) α

/-- `head = *by_lib_block_num.begin()`. -/
def refreshHead : ForkM Unit := do
  let db ← get
  match best db.index with
  | none => throw .undefined
  | some b => modify fun db => { db with head := some b.id }

namespace ForkDb

def set (s : BlockState) : ForkM Unit := do
  let db ← get
  if (db.getBlock s.id).isSome then
    throw (.thrown "unable to insert block state, duplicate state detected")
  else
    let head := match db.head with
      | none => s.id
      | some head => if head.num < s.blockNum then s.id else head
    modify fun db => { db.insert s with head := some head }

def remove (id : BlockId) : ForkM Unit := do
  modify fun db => { db with index := links.remove id db.index }
  refreshHead

def setValidity (h : BlockState) (valid : Bool) : ForkM Unit :=
  if valid then modify fun db => db.setValidated h.id else remove h.id

def markInCurrentChain (h : BlockState) (inCurrentChain : Bool) : ForkM Unit := do
  let db ← get
  match db.getBlock h.id with
  | none =>
      if h.inCurrentChain = inCurrentChain then pure ()
      else throw (.thrown "could not find block in fork database")
  | some b =>
      if b.inCurrentChain = inCurrentChain then pure ()
      else modify fun db => db.remark h.id inCurrentChain

/-- The last loop of `prune`: remove the blocks with the number, one after the other.  The
    iterator is moved on before the block is removed, and followed after. -/
def sweep (num : Nat) : Nat → Option BlockId → ForkM Unit
  | 0, _ => throw .undefined
  | _ + 1, none => pure ()
  | fuel + 1, some nitr => do
      let db ← get
      match db.getBlock nitr with
      | none => throw .undefined
      | some b =>
          if b.blockNum = num then do
            remove b.id
            sweep num fuel (db.successor nitr)
          else pure ()

section Signals

variable {ω : Type}

def onDb {α : Type} (x : ForkM α) : SignalM ω α := zoom Prod.fst (fun db s => (db, s.2)) x

def onHandlers {α : Type} (x : EStateM Failure ω α) : SignalM ω α :=
  zoom Prod.snd (fun w s => (s.1, w)) x

/-- The first loop of `prune`. -/
def pruneLower (prune : BlockState → SignalM ω Unit) (num : Nat) : Nat → SignalM ω Unit
  | 0 => throw .undefined
  | fuel + 1 => do
      match (← get).1.index.head? with
      | none => pure ()
      | some b =>
          if b.blockNum < num then do
            prune b
            pruneLower prune num fuel
          else pure ()

/-- `prune`: the block is declared irreversible, and the others with its number go. -/
def prune (irreversible : BlockState → EStateM Failure ω Unit) : Nat → BlockState → SignalM ω Unit
  | 0, _ => throw .undefined
  | fuel + 1, h => do
      pruneLower (prune irreversible fuel) h.blockNum (fuel + 1)
      match (← get).1.getBlock h.id with
      | none => pure ()
      | some b => do
          onHandlers (irreversible b)
          onDb (modify fun db => db.erase h.id)
      let db := (← get).1
      onDb (sweep h.blockNum (db.index.length + 1) (db.lowerBound h.blockNum))

def add (irreversible : BlockState → EStateM Failure ω Unit) (n : BlockState)
    (skipValidatePrevious : Bool) : SignalM ω BlockState := do
  let db := (← get).1
  if db.head.isNone then throw (.thrown "no head block set")
  else if skipValidatePrevious = false ∧ (db.getBlock n.previous).isNone then
    throw (.thrown "unlinkable block")
  else if (db.getBlock n.id).isSome then throw (.thrown "duplicate block added?")
  else do
    onDb (do
      modify fun db => db.insert n
      refreshHead)
    let db := (← get).1
    match best db.index, db.index.head? with
    | some head, some oldest =>
        if oldest.blockNum < head.dposIrreversibleBlocknum then
          prune irreversible (db.index.length + 1) oldest
        else pure ()
    | _, _ => throw .undefined
    pure n

end Signals

end ForkDb

/-! ## 5. The orders of the container -/

/-- By number; this much of `by_block_num` is what the deletions rely on. -/
def Sorted (index : List BlockState) : Prop := index.Pairwise fun a b => a.blockNum ≤ b.blockNum

section Orders

variable {a b c : BlockState} {index : List BlockState} {id : BlockId}

theorem blockNum_le_of_precedes (h : a.precedes b = true) : a.blockNum ≤ b.blockNum := by
  simp only [BlockState.precedes, Bool.or_eq_true, Bool.and_eq_true, decide_eq_true_eq] at h
  omega

theorem blockNum_le_of_not_precedes (h : ¬ a.precedes b = true) : b.blockNum ≤ a.blockNum := by
  simp only [BlockState.precedes, Bool.or_eq_true, Bool.and_eq_true, decide_eq_true_eq, not_or] at h
  omega

theorem insertByNum_perm (b : BlockState) (index : List BlockState) :
    (insertByNum b index).Perm (b :: index) := by
  induction index with
  | nil => exact .refl _
  | cons c index ih =>
    unfold insertByNum
    split
    · exact .refl _
    · exact (ih.cons c).trans (List.Perm.swap b c index)

theorem mem_insertByNum : c ∈ insertByNum b index ↔ c = b ∨ c ∈ index := by
  rw [(insertByNum_perm b index).mem_iff, mem_cons]

theorem sorted_insertByNum (h : Sorted index) : Sorted (insertByNum b index) := by
  induction index with
  | nil => exact pairwise_singleton _ _
  | cons _ _ ih =>
    obtain ⟨hc, hindex⟩ := pairwise_cons.mp h
    unfold insertByNum
    split_ifs with hbefore
    · have hle := blockNum_le_of_precedes hbefore
      refine pairwise_cons.mpr ⟨forall_mem_cons.mpr ⟨hle, fun d hd => ?_⟩, h⟩
      exact Nat.le_trans hle (hc d hd)
    · refine pairwise_cons.mpr ⟨fun d hd => ?_, ih hindex⟩
      rcases mem_insertByNum.mp hd with rfl | hd
      · exact blockNum_le_of_not_precedes hbefore
      · exact hc d hd

theorem best_eq_none : best index = none ↔ index = [] := by
  cases index with
  | nil => simp [best]
  | cons _ index =>
    unfold best
    cases best index with
    | none | some => simp

/-- The first block of `by_lib_block_num` is stored, and none has a greater key. -/
theorem best_spec (h : best index = some b) : b ∈ index ∧ ∀ c ∈ index, c.libKey ≤ b.libKey := by
  induction index generalizing b with
  | nil => cases h
  | cons d index ih =>
    unfold best at h
    cases hbest : best index with
    | none =>
      rw [hbest] at h
      cases h
      rw [best_eq_none.mp hbest]
      exact ⟨mem_cons_self, fun c hc => (mem_singleton.mp hc) ▸ le_refl _⟩
    | some e =>
      rw [hbest] at h
      obtain ⟨he, hmax⟩ := ih hbest
      cases h
      split_ifs with hrank
      · have hle : d.libKey ≤ e.libKey := by
          simp only [BlockState.outranks, Bool.or_eq_true, Bool.and_eq_true, decide_eq_true_eq] at hrank
          exact hrank.elim le_of_lt fun h => h.1.ge
        exact ⟨mem_cons_of_mem _ he, forall_mem_cons.mpr ⟨hle, hmax⟩⟩
      · have hle : e.libKey ≤ d.libKey := by
          simp only [BlockState.outranks, Bool.or_eq_true, decide_eq_true_eq, not_or, not_lt] at hrank
          exact hrank.1
        refine ⟨mem_cons_self, forall_mem_cons.mpr ⟨le_refl _, fun c hc => ?_⟩⟩
        exact le_trans (hmax c hc) hle

theorem not_outranks_self (a : BlockState) : ¬ a.outranks a = true := by
  simp [BlockState.outranks]

theorem not_outranks_of_outranks (h : a.outranks b = true) : ¬ b.outranks a = true := by
  simp only [BlockState.outranks, Bool.or_eq_true, Bool.and_eq_true, decide_eq_true_eq] at h ⊢
  rintro (hlt | ⟨heq, hnewer⟩)
  · rcases h with hlt' | ⟨heq', _⟩
    · exact lt_asymm hlt hlt'
    · exact absurd heq' (ne_of_lt hlt)
  · rcases h with hlt' | ⟨_, holder⟩
    · exact absurd heq (ne_of_lt hlt')
    · omega

/-- What `c` does not fall behind it outranks with it. -/
theorem outranks_of_not_outranks (h : a.outranks b = true) (hnot : ¬ a.outranks c = true) :
    c.outranks b = true := by
  simp only [BlockState.outranks, Bool.or_eq_true, Bool.and_eq_true, decide_eq_true_eq, not_or,
    not_and, not_lt] at h hnot ⊢
  obtain ⟨hle, htie⟩ := hnot
  rcases h with hlt | ⟨heq, holder⟩
  · exact .inl (lt_of_lt_of_le hlt hle)
  · rcases lt_or_eq_of_le hle with hlt | hsame
    · exact .inl (heq ▸ hlt)
    · exact .inr ⟨hsame.symm.trans heq, Nat.lt_of_le_of_lt (htie hsame) holder⟩

theorem not_outranks_best (h : best index = some b) : ∀ c ∈ index, ¬ c.outranks b = true := by
  induction index generalizing b with
  | nil => cases h
  | cons d index ih =>
    unfold best at h
    cases hbest : best index with
    | none =>
      rw [hbest] at h
      cases h
      rw [best_eq_none.mp hbest]
      intro c hc
      rw [mem_singleton.mp hc]
      exact not_outranks_self d
    | some =>
      rw [hbest] at h
      cases h
      intro c hc
      split_ifs with hrank
      · rcases mem_cons.mp hc with rfl | hc
        · exact not_outranks_of_outranks hrank
        · exact ih hbest c hc
      · rcases mem_cons.mp hc with rfl | hc
        · exact not_outranks_self c
        · exact fun hover => hrank (outranks_of_not_outranks hover (ih hbest c hc))

/-- The best block stays the best when others go. -/
theorem best_filter {p : BlockState → Bool} (h : best index = some b) (hb : p b = true) :
    best (index.filter p) = some b := by
  induction index with
  | nil => cases h
  | cons d index ih =>
    have htop := not_outranks_best h
    unfold best at h
    cases hbest : best index with
    | none =>
      rw [hbest] at h
      cases h
      rw [best_eq_none.mp hbest, filter_cons_of_pos hb]
      rfl
    | some e =>
      rw [hbest] at h
      by_cases hrank : e.outranks d = true
      · simp only [hrank, if_true] at h
        cases h
        have hrest := ih hbest
        by_cases hd : p d = true
        · rw [filter_cons_of_pos hd, best, hrest]
          simp only [hrank, if_true]
        · rw [filter_cons_of_neg hd]
          exact hrest
      · obtain rfl : d = b := by simpa [hrank] using h
        rw [filter_cons_of_pos hb, best]
        cases hrest : best (index.filter p) with
        | none => rfl
        | some f =>
          have hf := mem_of_mem_filter (best_spec hrest).1
          have hnot := htop f (mem_cons_of_mem _ hf)
          simp [hnot]

variable {db : ForkDb}

theorem getBlock_eq_some (hids : (db.index.map links.key).Nodup) :
    db.getBlock id = some b ↔ b ∈ db.index ∧ b.id = id :=
  KeyedList.find_eq_some_iff hids

theorem getBlock_eq_none : db.getBlock id = none ↔ ∀ b ∈ db.index, b.id ≠ id := by
  simp [ForkDb.getBlock, find?_eq_none]

end Orders

/-! ## 6. Changing flags -/

structure SameBlock (b a : BlockState) : Prop where
  id : b.id = a.id
  previous : b.previous = a.previous
  dpos : b.dposIrreversibleBlocknum = a.dposIrreversibleBlocknum
  bft : b.bftIrreversibleBlocknum = a.bftIrreversibleBlocknum

theorem SameBlock.refl (b : BlockState) : SameBlock b b := ⟨rfl, rfl, rfl, rfl⟩

variable {a b : BlockState}

theorem SameBlock.trans {c : BlockState} (h : SameBlock c b) (h' : SameBlock b a) : SameBlock c a :=
  ⟨h.id.trans h'.id, h.previous.trans h'.previous, h.dpos.trans h'.dpos, h.bft.trans h'.bft⟩

theorem SameBlock.libKey (h : SameBlock b a) : b.libKey = a.libKey := by
  rw [BlockState.libKey, BlockState.libKey, h.dpos, h.bft, BlockState.blockNum, BlockState.blockNum,
    h.id]

structure Reflagged (index : List BlockState) (id : BlockId) (f : BlockState → BlockState)
    (index' : List BlockState) : Prop where
  perm : index'.Perm (index.map fun b => if b.id = id then f b else b)
  sorted : Sorted index'

section Flags

variable {index : List BlockState} {id : BlockId} {f : BlockState → BlockState}

theorem sameBlock_ite (hf : ∀ b, SameBlock (f b) b) (b : BlockState) :
    SameBlock (if b.id = id then f b else b) b := by
  split
  · exact hf b
  · exact .refl b

theorem Sorted.map (hf : ∀ b, SameBlock (f b) b) (h : Sorted index) : Sorted (index.map f) := by
  refine pairwise_map.mpr (h.imp fun {a b} hab => ?_)
  rw [BlockState.blockNum, BlockState.blockNum, (hf a).id, (hf b).id]
  exact hab

theorem relink_perm (before : List BlockState) (b : BlockState) (after : List BlockState) :
    (relink before b after).Perm (before ++ b :: after) := by
  unfold relink
  split
  · exact .refl _
  · exact (insertByNum_perm b _).trans perm_middle.symm

variable {before : List BlockState}

theorem span_eq {rest : List BlockState}
    (h : (index.span fun b => decide (b.id ≠ id)) = (before, rest)) :
    index = before ++ rest ∧ (∀ a ∈ before, a.id ≠ id) ∧ ∀ b ∈ rest.head?, b.id = id := by
  rw [span_eq_takeWhile_dropWhile] at h
  obtain ⟨rfl, rfl⟩ := Prod.mk.inj h
  refine ⟨(takeWhile_append_dropWhile ..).symm, fun a ha => ?_, fun b hb => ?_⟩
  · have hkept := mem_takeWhile_imp ha
    simpa using hkept
  · have hnot := head?_dropWhile_not (fun b : BlockState => decide (b.id ≠ id)) index
    rw [Option.mem_def.mp hb] at hnot
    simpa using hnot

theorem map_ite_of_ne {l : List BlockState} (h : ∀ a ∈ l, a.id ≠ id) :
    l.map (fun b => if b.id = id then f b else b) = l := by
  conv_rhs => rw [← map_id l]
  exact map_congr_left fun a ha => if_neg (h a ha)

theorem sorted_relink {after : List BlockState} {b : BlockState} (h : Sorted (before ++ b :: after))
    :
    Sorted (relink before b after) := by
  unfold relink
  split
  · exact h
  · exact sorted_insertByNum (h.sublist ((sublist_cons_self b after).append_left before))

variable {db : ForkDb}

theorem reflagged_remark (hids : (db.index.map links.key).Nodup) (hsorted : Sorted db.index)
    (inCurrentChain : Bool) :
    Reflagged db.index id (fun b => { b with inCurrentChain := inCurrentChain })
      (db.remark id inCurrentChain).index := by
  have hflag : ∀ b : BlockState, SameBlock { b with inCurrentChain := inCurrentChain } b :=
    fun b => ⟨rfl, rfl, rfl, rfl⟩
  unfold ForkDb.remark
  split
  · rename_i before hspan
    obtain ⟨hindex, hbefore, _⟩ := span_eq hspan
    rw [append_nil] at hindex
    refine ⟨?_, hsorted⟩
    rw [map_ite_of_ne (hindex ▸ hbefore)]
  · rename_i before b after hspan
    obtain ⟨hindex, hbefore, hb⟩ := span_eq hspan
    have hid : b.id = id := hb b rfl
    have hafter : ∀ a ∈ after, a.id ≠ id := by
      intro a ha heq
      rw [hindex, map_append, map_cons] at hids
      refine (nodup_cons.mp (nodup_append.mp hids).2.1).1 ?_
      exact mem_map.mpr ⟨a, ha, heq.trans hid.symm⟩
    have hmap : db.index.map (fun b => if b.id = id then
        { b with inCurrentChain := inCurrentChain } else b) =
        before ++ { b with inCurrentChain := inCurrentChain } :: after := by
      rw [hindex, map_append, map_cons, map_ite_of_ne hbefore, map_ite_of_ne hafter, if_pos hid]
    constructor
    · rw [hmap]
      exact relink_perm _ _ _
    · refine sorted_relink ?_
      rw [← hmap]
      exact hsorted.map (sameBlock_ite hflag)

theorem reflagged_setValidated (hsorted : Sorted db.index) :
    Reflagged db.index id (fun b => { b with validated := true }) (db.setValidated id).index :=
  ⟨.refl _, hsorted.map (sameBlock_ite fun _ => ⟨rfl, rfl, rfl, rfl⟩)⟩

end Flags

end YottaChain.Forks
