/-
  **Two ways to a Merkle root** (`merkle.cpp`, `incremental_merkle.hpp`).

  `merkle` reduces the whole list level by level, in place.  `incremental_merkle` takes one
  digest at a time and keeps only the roots of the complete subtrees; the depth of the tree
  comes from the count by shifts and masks on 64 bits.

  The incremental root is the root of the tree for every list of fewer than `2^63` digests.
  The loop of `merkle` has an index of type `int`, and computes twice the index: for a list
  of more than `2^31` digests that is not defined (`incremental_root_eq_merkle_iff`).
-/
import YottaChain.FixedWidth
import YottaChain.MerkleTree

namespace YottaChain.Merkle

open MerkleTree List

/-! ## 1. The list, level by level -/

section Merkle

variable {α β : Type} (hash : β → α) (makeCanonicalPair : α → α → β)

/-- The largest value of an `int`. -/
def intMax : Nat := 2147483647

def parent (left right : α) : α := hash (makeCanonicalPair left right)

/-- The body of the loop over a level.  There is no result if the index overflows. -/
def pairAt (ids : List α) (i : Nat) : Option (List α) := do
  if 2 * i + 1 ≤ intMax then
    let left ← ids[2 * i]?
    let right ← ids[2 * i + 1]?
    pure (ids.set i (parent hash makeCanonicalPair left right))
  else none

def reduceLevel (ids : List α) : Option (List α) := do
  let ids := if ids.length % 2 = 1 then ids ++ ids.getLast?.toList else ids
  let ids ← (List.range (ids.length / 2)).foldlM (pairAt hash makeCanonicalPair) ids
  pure (ids.take (ids.length / 2))

/-- The outer loop; a round leaves fewer digests, so that there are not more rounds than
    digests. -/
def reduceLevels : Nat → List α → Option α
  | 0, ids => ids.head?
  | rounds + 1, ids =>
      if 1 < ids.length then do
        let ids ← reduceLevel hash makeCanonicalPair ids
        reduceLevels rounds ids
      else ids.head?

/-- `merkle`; `zero` is `digest_type()`. -/
def merkle (zero : α) (ids : List α) : Option α :=
  if ids.length = 0 then some zero
  else reduceLevels hash makeCanonicalPair ids.length ids

/-! ## 2. One digest at a time -/

def nextPowerOf2 (value : UInt64) : UInt64 :=
  let value := value - 1
  let value := value ||| value >>> 1
  let value := value ||| value >>> 2
  let value := value ||| value >>> 4
  let value := value ||| value >>> 8
  let value := value ||| value >>> 16
  let value := value ||| value >>> 32
  value + 1

/-- `clz_power_2`; of a power of two it is the exponent. -/
def clzPower2 (value : UInt64) : Nat :=
  let lz := 64
  let lz := if value ≠ 0 then lz - 1 else lz
  let lz := if value &&& 0x00000000FFFFFFFF ≠ 0 then lz - 32 else lz
  let lz := if value &&& 0x0000FFFF0000FFFF ≠ 0 then lz - 16 else lz
  let lz := if value &&& 0x00FF00FF00FF00FF ≠ 0 then lz - 8 else lz
  let lz := if value &&& 0x0F0F0F0F0F0F0F0F ≠ 0 then lz - 4 else lz
  let lz := if value &&& 0x3333333333333333 ≠ 0 then lz - 2 else lz
  let lz := if value &&& 0x5555555555555555 ≠ 0 then lz - 1 else lz
  lz

/-- `calcluate_max_depth`. -/
def calculateMaxDepth (nodeCount : UInt64) : Nat :=
  if nodeCount = 0 then 0 else clzPower2 (nextPowerOf2 nodeCount) + 1

structure IncrementalMerkle (α : Type) where
  nodeCount : UInt64 := 0
  activeNodes : List α := []
deriving DecidableEq

/-- The loop of `append`, with `current_depth` levels to go.  The arguments are `index`,
    `partial`, `top`, what is left behind `active_iter`, and `updated_active_nodes`.  There is
    no result if the iterator is read at its end. -/
def collapse : Nat → UInt64 → Bool → α → List α → List α → Option (α × List α)
  | 0, _, _, top, _, updated => some (top, updated)
  | depth + 1, index, isPartial, top, active, updated =>
      if index &&& 1 = 0 then
        collapse depth (index >>> 1) true (parent hash makeCanonicalPair top top) active
          (if isPartial then updated else updated ++ [top])
      else
        match active with
        | [] => none
        | left :: active =>
            collapse depth (index >>> 1) isPartial (parent hash makeCanonicalPair left top) active
              (if isPartial then updated ++ [left] else updated)

namespace IncrementalMerkle

def append (m : IncrementalMerkle α) (digest : α) : Option (IncrementalMerkle α) := do
  let maxDepth := calculateMaxDepth (m.nodeCount + 1)
  let (top, updated) ←
    collapse hash makeCanonicalPair (maxDepth - 1) m.nodeCount false digest m.activeNodes []
  pure ⟨m.nodeCount + 1, updated ++ [top]⟩

def getRoot (zero : α) (m : IncrementalMerkle α) : Option α :=
  if m.nodeCount > 0 then m.activeNodes.getLast? else some zero

def appendAll (digests : List α) : Option (IncrementalMerkle α) :=
  digests.foldlM (append hash makeCanonicalPair) {}

end IncrementalMerkle

end Merkle

/-! ## 3. The depth -/

section Depth

/-- A bit of `w` is set if one of the `s` bits of `v` from there on is. -/
def Smeared (s v w : Nat) : Prop := ∀ i, w.testBit i = true ↔ ∃ j < s, v.testBit (i + j) = true

theorem Smeared.refl (v : Nat) : Smeared 1 v v := by
  intro i
  constructor
  · intro h
    exact ⟨0, Nat.one_pos, h⟩
  · rintro ⟨j, hj, h⟩
    rwa [Nat.lt_one_iff.mp hj] at h

variable {v : Nat}

theorem Smeared.double {s : Nat} {w : UInt64} (shift : UInt64) (h : Smeared s v w.toNat)
    (hs : shift.toNat % 64 = s) : Smeared (s + s) v (w ||| w >>> shift).toNat := by
  intro i
  rw [UInt64.toNat_or, UInt64.toNat_shiftRight, hs, Nat.testBit_or, Nat.testBit_shiftRight,
    Bool.or_eq_true, h i, h (s + i)]
  constructor
  · rintro (⟨j, hj, hbit⟩ | ⟨j, hj, hbit⟩)
    · exact ⟨j, by omega, hbit⟩
    · refine ⟨s + j, by omega, ?_⟩
      rwa [show i + (s + j) = s + i + j by omega]
  · rintro ⟨j, hj, hbit⟩
    by_cases hlow : j < s
    · exact .inl ⟨j, hlow, hbit⟩
    · refine .inr ⟨j - s, by omega, ?_⟩
      rwa [show s + i + (j - s) = i + j by omega]

theorem testBit_size (h : v ≠ 0) : v.testBit (v.size - 1) = true := by
  have hpos : 0 < v.size := Nat.size_pos.mpr (Nat.pos_of_ne_zero h)
  have hlow : 2 ^ (v.size - 1) ≤ v := Nat.lt_size.mp (by omega)
  have hhigh : v < 2 ^ (v.size - 1) * 2 := by
    rw [← Nat.pow_succ, Nat.succ_eq_add_one, Nat.sub_add_cancel hpos]
    exact Nat.lt_size_self v
  have hone : v / 2 ^ (v.size - 1) = 1 := Nat.div_eq_of_lt_le (by omega) (by omega)
  rw [Nat.testBit_eq_decide_div_mod_eq, hone]
  rfl

/-- All bits below the highest one are set. -/
theorem Smeared.eq_two_pow_sub_one {w : Nat} (h : Smeared 64 v w) (hv : v < 2 ^ 64) :
    w = 2 ^ v.size - 1 := by
  apply Nat.eq_of_testBit_eq
  intro i
  rw [Nat.testBit_two_pow_sub_one, Bool.eq_iff_iff, h i, decide_eq_true_iff]
  constructor
  · rintro ⟨j, _, hbit⟩
    have hlt : i + j < v.size := Nat.lt_size.mpr (Nat.ge_two_pow_of_testBit hbit)
    omega
  · intro hi
    have hsize : v.size ≤ 64 := Nat.size_le.mpr hv
    refine ⟨v.size - 1 - i, by omega, ?_⟩
    rw [show i + (v.size - 1 - i) = v.size - 1 by omega]
    apply testBit_size
    rintro rfl
    rw [Nat.size_zero] at hi
    omega

theorem toNat_nextPowerOf2 {count : UInt64} (h : count.toNat < 2 ^ 63) :
    (nextPowerOf2 (count + 1)).toNat = 2 ^ count.toNat.size := by
  have hsub : count + 1 - 1 = count := UInt64.add_sub_cancel count 1
  have hsize : count.toNat.size ≤ 63 := Nat.size_le.mpr h
  have hpow : 2 ^ count.toNat.size ≤ 2 ^ 63 := Nat.pow_le_pow_right (by decide) hsize
  have hpos : 0 < 2 ^ count.toNat.size := Nat.two_pow_pos _
  have hsmeared := (((((Smeared.refl count.toNat).double 1 rfl).double 2 rfl).double 4 rfl).double
    8 rfl).double 16 rfl
  have hvalue := (hsmeared.double 32 rfl).eq_two_pow_sub_one (by omega)
  unfold nextPowerOf2
  simp only [hsub]
  rw [FixedWidth.toNat_add_of_lt, hvalue]
  · show 2 ^ count.toNat.size - 1 + 1 = _
    omega
  · rw [hvalue]
    show 2 ^ count.toNat.size - 1 + 1 < _
    omega

theorem clzPower2_shiftLeft : ∀ k : Fin 64, clzPower2 (UInt64.ofNat (2 ^ k.val)) = k.val := by
  decide +kernel

/-- The loop of `append` has as many rounds as the count has bits. -/
theorem calculateMaxDepth_succ {count : UInt64} (h : count.toNat < 2 ^ 63) :
    calculateMaxDepth (count + 1) = count.toNat.size + 1 := by
  have hpow := toNat_nextPowerOf2 h
  have hsize : count.toNat.size ≤ 63 := Nat.size_le.mpr h
  have hne : count + 1 ≠ 0 := by
    intro hzero
    have hcount : (count + 1).toNat = count.toNat + 1 :=
      FixedWidth.toNat_add_of_lt (by show count.toNat + 1 < _; omega)
    rw [hzero] at hcount
    cases hcount
  have hvalue : nextPowerOf2 (count + 1) = UInt64.ofNat (2 ^ count.toNat.size) := by
    apply UInt64.toNat_inj.mp
    rw [hpow, UInt64.toNat_ofNat_of_lt']
    exact Nat.pow_lt_pow_right (by decide) (show count.toNat.size < 64 by omega)
  rw [calculateMaxDepth, if_neg hne, hvalue]
  exact congrArg (· + 1) (clzPower2_shiftLeft ⟨count.toNat.size, by omega⟩)

end Depth

/-! ## 4. The incremental tree -/

section Incremental

variable {α β : Type} (hash : β → α) (makeCanonicalPair : α → α → β) (zero : α)

theorem and_one_eq_zero {x : UInt64} : x &&& 1 = 0 ↔ x.toNat % 2 = 0 := by
  have hmask : (x &&& 1).toNat = x.toNat % 2 := by
    rw [UInt64.toNat_and]
    exact Nat.and_two_pow_sub_one_eq_mod x.toNat 1
  rw [← UInt64.toNat_inj, hmask]
  rfl

theorem toNat_shiftRight_one (x : UInt64) : (x >>> 1).toNat = x.toNat / 2 := by
  rw [UInt64.toNat_shiftRight]
  exact Nat.shiftRight_eq_div_pow x.toNat 1

theorem size_half {n : Nat} (h : n ≠ 0) : n.size = (n / 2).size + 1 := by
  have hbit := Nat.bit_bodd_div2 n
  have hsize : (Nat.bit n.bodd n.div2).size = n.div2.size.succ := Nat.size_bit (by rwa [hbit])
  rwa [hbit, Nat.div2_val] at hsize

variable {index : UInt64} {depth : Nat}

theorem collapse_left (h : index.toNat % 2 = 0) (isPartial : Bool) (top : α)
    (active updated : List α) :
    collapse hash makeCanonicalPair (depth + 1) index isPartial top active updated =
      collapse hash makeCanonicalPair depth (index >>> 1) true (parent hash makeCanonicalPair top top)
        active (if isPartial then updated else updated ++ [top]) := by
  conv_lhs => unfold collapse
  exact if_pos (and_one_eq_zero.mpr h)

theorem collapse_right (h : ¬ index.toNat % 2 = 0) (isPartial : Bool) (top left : α)
    (active updated : List α) :
    collapse hash makeCanonicalPair (depth + 1) index isPartial top (left :: active) updated =
      collapse hash makeCanonicalPair depth (index >>> 1) isPartial
        (parent hash makeCanonicalPair left top) active
        (if isPartial then updated ++ [left] else updated) := by
  rw [collapse, if_neg fun hzero => h (and_one_eq_zero.mp hzero)]

variable {hash makeCanonicalPair zero} {node : α → α → α} {l front digests : List α}

theorem size_of_ne_nil (hne : l ≠ []) : l.length.size = (pairFull node l).length.size + 1 := by
  have hpos := length_pos_iff.mpr hne
  rw [length_pairFull, size_half (by omega)]

theorem size_of_odd (heven : front.length % 2 = 0) (last : α) :
    (front ++ [last]).length.size = (pairFull node front).length.size + 1 := by
  rw [size_of_ne_nil (append_ne_nil_of_right_ne_nil _ (cons_ne_nil _ _)),
    pairFull_append node heven]

theorem toNat_shift_length (h : index.toNat = l.length) :
    (index >>> 1).toNat = (pairFull node l).length := by
  rw [toNat_shiftRight_one, h, length_pairFull]

theorem toNat_shift_of_odd (heven : front.length % 2 = 0) {last : α}
    (h : index.toNat = (front ++ [last]).length) :
    (index >>> 1).toNat = (pairFull node front).length := by
  rw [toNat_shift_length h, pairFull_append node heven]

theorem odd_index (heven : front.length % 2 = 0) {last : α}
    (h : index.toNat = (front ++ [last]).length) : ¬ index.toNat % 2 = 0 := by
  rw [h, length_append, length_singleton]
  omega

/-- Above a node that is not complete the loop keeps the complete subtrees that it reads. -/
theorem collapse_of_partial {rest updated : List α} {top : α} (hindex : index.toNat = l.length) :
    collapse hash makeCanonicalPair l.length.size index true top
      (peaks (parent hash makeCanonicalPair) l ++ rest) updated =
      some (root (parent hash makeCanonicalPair) zero (l ++ [top]),
        updated ++ peaks (parent hash makeCanonicalPair) l) := by
  induction l using levels_induction (parent hash makeCanonicalPair)
    generalizing top index updated with
  | nil =>
    rw [length_nil, Nat.size_zero, collapse, nil_append, root_singleton, peaks_nil, append_nil]
  | even _ hne heven ih =>
    rw [size_of_ne_nil hne, collapse_left _ _ (by rwa [hindex]), peaks_of_even _ heven,
      ih (toNat_shift_length hindex), root_append _ _ hne heven]
    rfl
  | odd _ _ heven ih =>
    rw [size_of_odd heven, peaks_append _ heven, cons_append,
      collapse_right _ _ (odd_index heven hindex), ih (toNat_shift_of_odd heven hindex),
      append_assoc, singleton_append, root_append_pair _ _ heven]
    simp only [if_pos, append_assoc, singleton_append]

/-- As long as the new node is complete the loop drops what it reads, and then keeps the rest. -/
theorem collapse_of_complete (hash : β → α) (makeCanonicalPair : α → α → β) (zero : α)
    (rest : List α) (top : α) (hindex : index.toNat = l.length) :
    ∃ updated, collapse hash makeCanonicalPair l.length.size index false top
        (peaks (parent hash makeCanonicalPair) l ++ rest) [] =
        some (root (parent hash makeCanonicalPair) zero (l ++ [top]), updated) ∧
      updated ++ [root (parent hash makeCanonicalPair) zero (l ++ [top])] =
        MerkleTree.frontier (parent hash makeCanonicalPair) zero (l ++ [top]) := by
  induction l using levels_induction (parent hash makeCanonicalPair) generalizing top index with
  | nil =>
    have hpeaks : peaks (parent hash makeCanonicalPair) [top] = [top] := by
      rw [← nil_append [top], peaks_append _ rfl, pairFull, peaks_nil]
      rfl
    refine ⟨[], ?_, ?_⟩
    · rw [length_nil, Nat.size_zero, collapse, nil_append, root_singleton]
    · simp only [nil_append, MerkleTree.frontier, hpeaks, root_singleton]
      rfl
  | even l hne heven _ =>
    have hmore := peaks_ne_nil (parent hash makeCanonicalPair)
      (pairFull_ne_nil (parent hash makeCanonicalPair) hne heven)
    have hpos := length_pos_iff.mpr hmore
    refine ⟨top :: peaks (parent hash makeCanonicalPair)
      (pairFull (parent hash makeCanonicalPair) l), ?_, ?_⟩
    · rw [size_of_ne_nil hne, collapse_left _ _ (by rwa [hindex]), peaks_of_even _ heven,
        collapse_of_partial (toNat_shift_length hindex), root_append _ _ hne heven]
      rfl
    · rw [MerkleTree.frontier, peaks_append _ heven, if_neg (by rw [length_cons]; omega)]
  | odd _ _ heven ih =>
    rw [size_of_odd heven, peaks_append _ heven, cons_append,
      collapse_right _ _ (odd_index heven hindex), append_assoc, singleton_append,
      MerkleTree.frontier,
      peaks_append_pair _ heven, root_append_pair _ _ heven]
    exact ih _ (toNat_shift_of_odd heven hindex)

/-- The loop reads as many nodes as there are complete subtrees, whatever they are. -/
theorem collapse_eq_none_iff {isPartial : Bool} {top : α} {active updated : List α}
    (hindex : index.toNat = l.length) :
    collapse hash makeCanonicalPair l.length.size index isPartial top active updated = none ↔
      active.length < (peaks (parent hash makeCanonicalPair) l).length := by
  induction l using levels_induction (parent hash makeCanonicalPair)
    generalizing top index active updated isPartial with
  | nil =>
    rw [length_nil, Nat.size_zero, collapse, peaks_nil, length_nil]
    exact ⟨fun h => (nomatch h), fun h => absurd h (Nat.not_lt_zero _)⟩
  | even _ hne heven ih =>
    rw [size_of_ne_nil hne, collapse_left _ _ (by rwa [hindex]), peaks_of_even _ heven]
    exact ih (toNat_shift_length hindex)
  | odd _ _ heven ih =>
    rw [size_of_odd heven, peaks_append _ heven, length_cons]
    cases active with
    | nil =>
      rw [collapse, if_neg fun hzero => odd_index heven hindex (and_one_eq_zero.mp hzero)]
      exact ⟨fun _ => Nat.succ_pos _, fun _ => rfl⟩
    | cons =>
      rw [collapse_right _ _ (odd_index heven hindex), ih (toNat_shift_of_odd heven hindex),
        length_cons, Nat.add_lt_add_iff_right]

structure Holds (zero : α) (hash : β → α) (makeCanonicalPair : α → α → β) (digests : List α)
    (m : IncrementalMerkle α) : Prop where
  count : m.nodeCount.toNat = digests.length
  active : m.activeNodes = MerkleTree.frontier (parent hash makeCanonicalPair) zero digests
  top : m.getRoot zero = some (root (parent hash makeCanonicalPair) zero digests)

theorem frontier_eq_peaks_append (node : α → α → α) (zero : α) (l : List α) :
    ∃ rest, MerkleTree.frontier node zero l = peaks node l ++ rest := by
  unfold MerkleTree.frontier
  split
  · exact ⟨[], (append_nil _).symm⟩
  · exact ⟨_, rfl⟩

theorem Holds.append {m : IncrementalMerkle α} (h : Holds zero hash makeCanonicalPair digests m)
    (hlen : digests.length < 2 ^ 63) (digest : α) :
    ∃ m', m.append hash makeCanonicalPair digest = some m' ∧
      Holds zero hash makeCanonicalPair (digests ++ [digest]) m' := by
  obtain ⟨rest, hrest⟩ := frontier_eq_peaks_append (parent hash makeCanonicalPair) zero digests
  obtain ⟨updated, hcollapse, hupdated⟩ :=
    collapse_of_complete hash makeCanonicalPair zero rest digest h.count
  have hcount : (m.nodeCount + 1).toNat = digests.length + 1 := by
    rw [FixedWidth.toNat_add_of_lt, h.count]
    · rfl
    · rw [h.count]
      show digests.length + 1 < _
      omega
  refine ⟨⟨m.nodeCount + 1, updated ++ [root (parent hash makeCanonicalPair) zero
    (digests ++ [digest])]⟩, ?_, ?_⟩
  · simp only [IncrementalMerkle.append, calculateMaxDepth_succ (h.count ▸ hlen), Nat.add_sub_cancel,
      h.active, hrest, h.count, hcollapse]
    rfl
  · constructor
    · rw [hcount, length_append, length_singleton]
    · exact hupdated
    · have hpos : m.nodeCount + 1 > 0 := by
        rw [gt_iff_lt, UInt64.lt_iff_toNat_lt, hcount]
        exact Nat.succ_pos _
      rw [IncrementalMerkle.getRoot, if_pos hpos, getLast?_concat]

/-- The next append fails exactly if it would read a node that is not there. -/
theorem Holds.append_eq_none_iff {m : IncrementalMerkle α}
    (h : Holds zero hash makeCanonicalPair digests m) (hlen : digests.length < 2 ^ 63)
    (active : List α) (digest : α) :
    IncrementalMerkle.append hash makeCanonicalPair ⟨m.nodeCount, active⟩ digest = none ↔
      active.length < (peaks (parent hash makeCanonicalPair) digests).length := by
  have hreads : collapse hash makeCanonicalPair digests.length.size m.nodeCount false digest
      active [] = none ↔ _ := collapse_eq_none_iff h.count
  rw [← hreads]
  simp only [IncrementalMerkle.append, calculateMaxDepth_succ (h.count ▸ hlen), Nat.add_sub_cancel,
    h.count]
  cases collapse hash makeCanonicalPair digests.length.size m.nodeCount false digest active [] with
  | none => exact ⟨fun _ => rfl, fun _ => rfl⟩
  | some => exact ⟨fun h => (nomatch h), fun h => (nomatch h)⟩

theorem holds_appendAll (zero : α) (hlen : digests.length < 2 ^ 63) :
    ∃ m, IncrementalMerkle.appendAll hash makeCanonicalPair digests = some m ∧
      Holds zero hash makeCanonicalPair digests m := by
  induction digests using List.reverseRecOn with
  | nil =>
    refine ⟨{}, rfl, rfl, ?_, ?_⟩
    · rw [MerkleTree.frontier, peaks_nil]
      rfl
    · rw [root_nil]
      rfl
  | append_singleton _ digest ih =>
    rw [length_append, length_singleton] at hlen
    obtain ⟨m, hm, hholds⟩ := ih (by omega)
    obtain ⟨m', hm', hholds'⟩ := hholds.append (by omega) digest
    refine ⟨m', ?_, hholds'⟩
    rw [IncrementalMerkle.appendAll] at hm ⊢
    rw [foldlM_append, hm]
    simpa using hm'

end Incremental

/-! ## 5. The list -/

section List

variable {α β : Type} {hash : β → α} {makeCanonicalPair : α → α → β} {zero : α} {k : Nat}
  {ids : List α}

/-- One parent is written where its children have already been read. -/
theorem pairAt_of_lt (hash : β → α) (makeCanonicalPair : α → α → β) (hk : k < ids.length / 2)
    (hint : 2 * k + 1 ≤ intMax) :
    pairAt hash makeCanonicalPair
      ((pairFull (parent hash makeCanonicalPair) ids).take k ++ ids.drop k) k =
      some ((pairFull (parent hash makeCanonicalPair) ids).take (k + 1) ++ ids.drop (k + 1)) := by
  have htake : ((pairFull (parent hash makeCanonicalPair) ids).take k).length = k := by
    rw [length_take, length_pairFull]
    omega
  have hread : ∀ i, k ≤ i →
      ((pairFull (parent hash makeCanonicalPair) ids).take k ++ ids.drop k)[i]? = ids[i]? := by
    intro i hi
    rw [getElem?_append_right (by omega), htake, getElem?_drop, Nat.add_sub_cancel' hi]
  obtain ⟨left, hleft⟩ : ∃ left, ids[2 * k]? = some left := ⟨_, getElem?_eq_getElem (by omega)⟩
  obtain ⟨right, hright⟩ : ∃ right, ids[2 * k + 1]? = some right :=
    ⟨_, getElem?_eq_getElem (by omega)⟩
  have hparent := getElem?_pairFull (parent hash makeCanonicalPair) hleft hright
  have hdrop : ids.drop k = ids[k] :: ids.drop (k + 1) := drop_eq_getElem_cons (by omega)
  have hset : ∀ v, ((pairFull (parent hash makeCanonicalPair) ids).take k ++ ids.drop k).set k v =
      (pairFull (parent hash makeCanonicalPair) ids).take k ++ v :: ids.drop (k + 1) := by
    intro v
    rw [set_append_right _ _ (by omega), htake, Nat.sub_self, hdrop, set_cons_zero]
  rw [pairAt, if_pos hint, hread _ (by omega), hread _ (by omega), hleft, hright, take_add_one,
    hparent, append_assoc]
  exact congrArg some (hset _)

theorem pairAt_range (hash : β → α) (makeCanonicalPair : α → α → β) (hk : k ≤ ids.length / 2)
    (hint : 2 * k ≤ intMax + 1) :
    (List.range k).foldlM (pairAt hash makeCanonicalPair) ids =
      some ((pairFull (parent hash makeCanonicalPair) ids).take k ++ ids.drop k) := by
  induction k with
  | zero => rfl
  | succ _ ih =>
    rw [range_succ, foldlM_append, ih (by omega) (by omega)]
    simpa using pairAt_of_lt hash makeCanonicalPair hk (by omega)

theorem padded (node : α → α → α) (ids : List α) :
    ∃ even, (if ids.length % 2 = 1 then ids ++ ids.getLast?.toList else ids) = even ∧
      even.length = 2 * ((ids.length + 1) / 2) ∧ pairFull node even = pairUp node ids := by
  refine ⟨_, rfl, ?_⟩
  split_ifs with hodd
  · obtain ⟨front, last, rfl⟩ := (eq_nil_or_concat ids).resolve_left (by rintro rfl; cases hodd)
    rw [concat_eq_append] at *
    have hfront : front.length % 2 = 0 := by
      rw [length_append, length_singleton] at hodd
      omega
    rw [getLast?_concat, Option.toList_some, append_assoc, singleton_append,
      pairFull_append_pair node hfront, pairUp_append node hfront]
    refine ⟨?_, rfl⟩
    simp only [length_append, length_cons, length_nil]
    omega
  · exact ⟨by omega, (pairUp_of_even node (by omega)).symm⟩

theorem reduceLevel_of_le (hash : β → α) (makeCanonicalPair : α → α → β) (h : ids.length ≤ 2 ^ 31) :
    reduceLevel hash makeCanonicalPair ids = some (pairUp (parent hash makeCanonicalPair) ids) := by
  obtain ⟨even, heven, hlen, hpairs⟩ := padded (parent hash makeCanonicalPair) ids
  have hhalf : (pairFull (parent hash makeCanonicalPair) even).length = even.length / 2 :=
    length_pairFull _ _
  have hrange := pairAt_range hash makeCanonicalPair (Nat.le_refl (even.length / 2))
    (by unfold intMax; omega)
  rw [take_of_length_le (by omega)] at hrange
  simp only [reduceLevel, heven, hrange, ← hpairs]
  show some _ = some _
  rw [length_append, length_drop, hhalf, take_left']
  omega

/-- The index overflows if the list is too long. -/
theorem reduceLevel_of_lt (hash : β → α) (makeCanonicalPair : α → α → β) (h : 2 ^ 31 < ids.length) :
    reduceLevel hash makeCanonicalPair ids = none := by
  obtain ⟨even, heven, hlen, -⟩ := padded (parent hash makeCanonicalPair) ids
  obtain ⟨rest, hrest⟩ : ∃ rest, even.length / 2 = 2 ^ 30 + (rest + 1) :=
    ⟨even.length / 2 - 2 ^ 30 - 1, by omega⟩
  have hrange := pairAt_range hash makeCanonicalPair (show 2 ^ 30 ≤ even.length / 2 by omega)
    (by unfold intMax; omega)
  have hover : ∀ ids, pairAt hash makeCanonicalPair ids (2 ^ 30) = none := by
    intro ids
    rw [pairAt, if_neg (by unfold intMax; omega)]
  simp only [reduceLevel, heven]
  rw [hrest, range_add, range_succ_eq_map, map_cons, Nat.add_zero, foldlM_append, hrange]
  simp only [Option.bind_eq_bind, Option.bind_some, foldlM_cons, hover, Option.bind_none]

/-- The rounds end with the root, and there is none after the first if the list is too long. -/
theorem reduceLevels_eq (hash : β → α) (makeCanonicalPair : α → α → β) (zero : α) {rounds : Nat}
    (hne : ids ≠ []) (hrounds : ids.length ≤ rounds + 1) (h : ids.length ≤ 2 ^ 31) :
    reduceLevels hash makeCanonicalPair rounds ids =
      some (root (parent hash makeCanonicalPair) zero ids) := by
  have hpos := length_pos_iff.mpr hne
  have hone : ∀ ids : List α, ids ≠ [] → ids.length ≤ 1 →
      ids.head? = some (root (parent hash makeCanonicalPair) zero ids) := by
    intro ids hne hle
    match ids, hne, hle with
    | [a], _, _ => rw [root_singleton]; rfl
  induction rounds generalizing ids with
  | zero => exact hone ids hne (by omega)
  | succ _ ih =>
    rw [reduceLevels]
    split_ifs with hlt
    · have hlen := length_pairUp (parent hash makeCanonicalPair) ids
      rw [reduceLevel_of_le _ _ h, root_pairUp _ _ hlt]
      exact ih (length_pos_iff.mp (by omega)) (by omega) (by omega) (by omega)
    · exact hone ids hne (by omega)

theorem merkle_of_le (hash : β → α) (makeCanonicalPair : α → α → β) (zero : α)
    (h : ids.length ≤ 2 ^ 31) :
    merkle hash makeCanonicalPair zero ids = some (root (parent hash makeCanonicalPair) zero ids) := by
  unfold merkle
  split_ifs with hzero
  · rw [length_eq_zero_iff.mp hzero, root_nil]
  · exact reduceLevels_eq hash makeCanonicalPair zero
      (length_pos_iff.mp (Nat.pos_of_ne_zero hzero)) (Nat.le_succ _) h

theorem merkle_of_lt (hash : β → α) (makeCanonicalPair : α → α → β) (zero : α)
    (h : 2 ^ 31 < ids.length) : merkle hash makeCanonicalPair zero ids = none := by
  obtain ⟨rounds, hrounds⟩ : ∃ rounds, ids.length = rounds + 1 := ⟨ids.length - 1, by omega⟩
  rw [merkle, if_neg (by omega), hrounds, reduceLevels, if_pos (by omega), reduceLevel_of_lt _ _ h]
  rfl

/-- The incremental tree takes every list.  Its nodes are the left neighbours that the next
    append reads, followed by the root.  The root is that of `merkle` for the lists that `merkle`
    can take. -/
theorem incremental_root_eq_merkle_iff (hash : β → α) (makeCanonicalPair : α → α → β) (zero : α)
    (digests : List α) (hlen : digests.length < 2 ^ 63) :
    ∃ m, IncrementalMerkle.appendAll hash makeCanonicalPair digests = some m ∧
      m.activeNodes = MerkleTree.frontier (parent hash makeCanonicalPair) zero digests ∧
      (∀ active digest,
        IncrementalMerkle.append hash makeCanonicalPair ⟨m.nodeCount, active⟩ digest = none ↔
          active.length < (peaks (parent hash makeCanonicalPair) digests).length) ∧
      ((∃ top, m.getRoot zero = some top ∧ merkle hash makeCanonicalPair zero digests = some top) ↔
        digests.length ≤ 2 ^ 31) := by
  obtain ⟨m, hm, hholds⟩ := holds_appendAll zero hlen
  refine ⟨m, hm, hholds.active, hholds.append_eq_none_iff hlen, ?_⟩
  constructor
  · rintro ⟨top, _, htop⟩
    by_contra hlong
    rw [merkle_of_lt hash makeCanonicalPair zero (by omega)] at htop
    cases htop
  · intro hle
    exact ⟨_, hholds.top, merkle_of_le hash makeCanonicalPair zero hle⟩

theorem incremental_root_eq_merkle_iff_sample :
    ∃ m, IncrementalMerkle.appendAll (fun p : Nat × Nat => 3 * p.1 + 5 * p.2 + 1) Prod.mk [1, 2, 4] =
        some m ∧
      ∃ top, m.getRoot 0 = some top ∧
        merkle (fun p : Nat × Nat => 3 * p.1 + 5 * p.2 + 1) Prod.mk 0 [1, 2, 4] = some top := by
  obtain ⟨m, hm, _, _, htop⟩ := incremental_root_eq_merkle_iff
    (fun p : Nat × Nat => 3 * p.1 + 5 * p.2 + 1) Prod.mk 0 [1, 2, 4] (by decide)
  exact ⟨m, hm, htop.mpr (by decide)⟩

/-- A list of `2^31 + 1` digests has an incremental root, but `merkle` computes an index that
    is no `int`. -/
theorem long_list_has_no_merkle :
    (replicate (2 ^ 31 + 1) 0).length < 2 ^ 63 ∧
      (∃ m, IncrementalMerkle.appendAll (fun p : Nat × Nat => p.1 + p.2) Prod.mk
        (replicate (2 ^ 31 + 1) 0) = some m ∧ ∃ top, m.getRoot 0 = some top) ∧
      merkle (fun p : Nat × Nat => p.1 + p.2) Prod.mk 0 (replicate (2 ^ 31 + 1) 0) = none := by
  have hlen : (replicate (2 ^ 31 + 1) 0 : List Nat).length = 2 ^ 31 + 1 := length_replicate
  have hlt : (replicate (2 ^ 31 + 1) 0 : List Nat).length < 2 ^ 63 := by
    rw [hlen]
    decide
  obtain ⟨m, hm, hholds⟩ := holds_appendAll 0 hlt
  refine ⟨hlt, ⟨m, hm, _, hholds.top⟩, merkle_of_lt _ _ _ ?_⟩
  rw [hlen]
  exact Nat.lt_succ_self _

end List

end YottaChain.Merkle
