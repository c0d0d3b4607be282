/-
  **Which texts are names** (`chain/name.cpp`), and the suffix of a name (`types.hpp`).

  The chain accepts a text as a name if writing the name it reads gives the text again.  The
  suffix of a name is computed on its bits, with the thirteenth character, which has only
  four, moved into a place for five; it is the text after the last dot.
-/
import Mathlib.Data.List.DropRight
import YottaChain.Memos

namespace YottaChain

open Checked List UInt64

/-! ## 1. The names of the chain -/

namespace ChainName

/-- The loop of the chain's `string_to_name` from position `i` on.  After twelve characters
    one more is read, which is the NUL at the end if there is none. -/
def encodeFrom (i : Nat) (name : UInt64) : Text → UInt64
  | [] => if i = 12 then name ||| (charToSymbol '\x00' &&& 0x0f) else name
  | c :: rest =>
      if i < 12 then
        encodeFrom (i + 1)
          (name ||| ((charToSymbol c &&& 0x1f) <<< UInt64.ofNat (64 - 5 * (i + 1)))) rest
      else name ||| (charToSymbol c &&& 0x0f)

def stringToName (str : Text) : UInt64 := encodeFrom 0 0 str

/-- All thirteen characters of a name. -/
def characters (value : UInt64) : Text :=
  nameChars 12 (value >>> 4) [charmap.getD (value &&& 0x0f).toNat '.']

/-- `trim_right_if`, which leaves nothing of a string of dots. -/
def trimDots (str : Text) : Text := (str.reverse.dropWhile (· == '.')).reverse

/-- `operator string`. -/
def toString (value : UInt64) : Text := trimDots (characters value)

/-- `name::set`, with what it stores. -/
def set (str : Text) : Checked UInt64 := do
  ensure (str.length ≤ 13) "Name is longer than 13 characters"
  let value := stringToName str
  ensure (toString value = str) "Name not properly normalized"
  pure value

theorem encodeFrom_eq (l : Text) {i : Nat} (hi : i ≤ 12) (name : UInt64) :
    encodeFrom i name l = name ||| stringToNameFrom i l := by
  induction l generalizing i name with
  | nil =>
    rw [encodeFrom, stringToNameFrom, show charToSymbol '\x00' = 0 by decide]
    simp
  | cons c l ih =>
    rw [encodeFrom, stringToNameFrom]
    rcases Nat.lt_or_eq_of_le hi with hlt | rfl
    · rw [if_pos hlt, if_pos hlt, ih hlt, UInt64.or_assoc]
    · rw [if_neg (by decide), if_neg (by decide), if_pos rfl]

theorem nameChars_append (n : Nat) (tmp : UInt64) (acc : Text) :
    nameChars n tmp acc = nameChars n tmp [] ++ acc := by
  induction n generalizing tmp acc with
  | zero => rfl
  | succ n ih =>
    rw [nameChars, nameChars, ih _ (_ :: acc), ih _ [_], append_assoc, singleton_append]

theorem length_nameChars (n : Nat) (tmp : UInt64) : (nameChars n tmp []).length = n := by
  induction n generalizing tmp with
  | zero => rfl
  | succ n ih => rw [nameChars, nameChars_append, length_append, ih, length_singleton]

/-- The last characters are those of fewer digits. -/
theorem nameChars_add (m n : Nat) (tmp : UInt64) (acc : Text) :
    ∃ before : Text, before.length = m ∧
      nameChars (m + n) tmp acc = before ++ nameChars n tmp acc := by
  induction n generalizing tmp acc with
  | zero => exact ⟨nameChars m tmp [], length_nameChars m tmp, nameChars_append m tmp acc⟩
  | succ n ih => exact ih _ _

section

variable (value : UInt64)

include value

theorem length_characters : (characters value).length = 13 := by
  rw [characters, nameChars_append, length_append, length_nameChars, length_singleton]

theorem characters_subset : characters value ⊆ charmap :=
  nameChars_subset (cons_subset.mpr ⟨getD_mem_charmap _, nil_subset _⟩) 12 _

theorem characters_eq : ∃ k, characters value = toString value ++ replicate k '.' :=
  exists_append_dots (characters value)

theorem toString_begins : toString value <+: characters value := by
  obtain ⟨k, hk⟩ := characters_eq value
  exact ⟨_, hk.symm⟩

theorem stringToName_toString : stringToName (toString value) = value := by
  obtain ⟨k, hk⟩ := characters_eq value
  rw [stringToName, encodeFrom_eq _ (Nat.zero_le 12), UInt64.zero_or,
    ← stringToNameFrom_append_dots _ k, ← hk]
  exact stringToNameFrom_nameChars value

theorem getLast_toString : (toString value).getLast? ≠ some '.' := by
  rw [toString, trimDots, getLast?_reverse]
  intro h
  have hnot := head?_dropWhile_not (· == '.') (characters value).reverse
  rw [h] at hnot
  cases hnot

/-- The thirteenth character has four bits. -/
theorem thirteenth_lt {c : Char} (h : (toString value)[12]? = some c) : charToSymbol c < 16 := by
  obtain ⟨rest, hrest⟩ := toString_begins value
  have hlast : (characters value)[12]? = some c := by
    rw [← hrest, List.getElem?_append_left (List.getElem?_eq_some_iff.mp h).1, h]
  rw [characters, nameChars_append, List.getElem?_append_right (by rw [length_nameChars]),
    length_nameChars] at hlast
  cases hlast
  rw [lt_iff_toNat_lt, toNat_and_last, charToSymbol_charmap (by omega)]
  exact Nat.mod_lt _ (by decide)

end

theorem set_eq_ok_iff {s : Text} {v : UInt64} : set s = .ok v ↔ s = toString v := by
  simp only [set, ok_iff]
  constructor
  · rintro ⟨_, htext, rfl⟩
    exact htext.symm
  · rintro rfl
    have hlength := (toString_begins v).length_le
    rw [length_characters] at hlength
    rw [stringToName_toString]
    exact ⟨hlength, rfl, rfl⟩

/-- **The names of the chain and their texts are in bijection**: a text is accepted exactly if it
    is the text of the value that is then stored.  Such a text is not too long, has no other
    characters, no dot at its end and only four bits in its thirteenth character. -/
theorem texts_in_bijection :
    (∀ s v, set s = .ok v ↔ s = toString v) ∧ (∀ v, set (toString v) = .ok v) ∧
    (∀ s v, set s = .ok v → s.length ≤ 13 ∧ s ⊆ charmap ∧ s.getLast? ≠ some '.' ∧
      ∀ c, s[12]? = some c → charToSymbol c < 16) ∧
    ∀ s s' v, set s = .ok v → set s' = .ok v → s = s' := by
  refine ⟨fun s v => set_eq_ok_iff, fun v => set_eq_ok_iff.mpr rfl, ?_, ?_⟩
  · intro s v h
    obtain rfl := set_eq_ok_iff.mp h
    have hbegins := toString_begins v
    refine ⟨?_, fun c hc => characters_subset v (hbegins.subset hc), getLast_toString v,
      fun c => thirteenth_lt v⟩
    rw [← length_characters v]
    exact hbegins.length_le
  · intro s s' v h h'
    exact (set_eq_ok_iff.mp h).trans (set_eq_ok_iff.mp h').symm

/-- **Chain and contracts keep their names in sync**: they read the same name from every C string,
    and write the same text for every name but 0, for which a contract writes thirteen dots. -/
theorem contracts_in_sync :
    (∀ s : Text, YottaChain.stringToName s = stringToName (s.takeWhile (· ≠ '\x00'))) ∧
    ∀ v : UInt64, nameToString v = toString v ↔ v ≠ 0 := by
  refine ⟨fun s => ?_, fun v => ?_⟩
  · rw [stringToName, encodeFrom_eq _ (Nat.zero_le 12), UInt64.zero_or]
    rfl
  · by_cases hv : v = 0
    · subst hv
      decide
    · refine iff_of_true (if_neg fun hdots => hv ?_) hv
      -- a text of dots is trimmed to nothing, which is read as 0
      have hnil : toString v = [] := by
        unfold toString trimDots
        rw [reverse_eq_nil_iff, dropWhile_eq_nil_iff]
        intro c hc
        exact all_eq_true.mp hdots c (mem_reverse.mp hc)
      rw [← stringToName_toString v, hnil]
      rfl

end ChainName

/-! ## 2. Suffixes -/

/-- The loop of `name_suffix` over characters, the thirteenth too.  After the first of them
    `r` bits remain. -/
def scanFrom (r : Nat) : Text → Nat × Nat → Nat × Nat
  | [], st => st
  | c :: l, (tmp, last) => scanFrom (r - 5) l (if c = '.' then (r, last) else (tmp, tmp))

theorem scanFrom_append (l l' : Text) (r : Nat) (st : Nat × Nat) :
    scanFrom r (l ++ l') st = scanFrom (r - 5 * l.length) l' (scanFrom r l st) := by
  induction l generalizing r st with
  | nil => rfl
  | cons c l ih =>
    rw [cons_append, scanFrom, scanFrom, ih, length_cons, Nat.sub_sub,
      show 5 + 5 * l.length = 5 * (l.length + 1) by omega]

theorem scanFrom_dots (k r : Nat) (st : Nat × Nat) :
    (scanFrom r (replicate k '.') st).2 = st.2 := by
  induction k generalizing r st with
  | zero => rfl
  | succ k ih =>
    rw [replicate_succ, scanFrom, ih]
    rfl

theorem scanFrom_letters {l : Text} (h : '.' ∉ l) (r : Nat) (st : Nat × Nat) :
    scanFrom r l st = if l = [] then st else (st.1, st.1) := by
  induction l generalizing r st with
  | nil => rfl
  | cons c l ih =>
    have hc : c ≠ '.' := fun heq => h (heq ▸ mem_cons_self)
    rw [scanFrom, if_neg hc, ih fun hmem => h (mem_cons_of_mem _ hmem), if_neg (cons_ne_nil c l)]
    exact ite_self _

theorem getD_charmap_eq_dot {d : Nat} (hd : d < 32) : charmap.getD d '.' = '.' ↔ d = 0 := by
  have hall : ∀ d : Fin 32, charmap.getD d '.' = '.' ↔ (d : Nat) = 0 := by decide +kernel
  exact hall ⟨d, hd⟩

theorem digit_eq_dot (x : UInt64) : charmap.getD (x &&& 0x1f).toNat '.' = '.' ↔ x &&& 0x1f = 0 := by
  rw [getD_charmap_eq_dot (by rw [toNat_and_digit]; omega), ← UInt64.toNat_inj]
  rfl

theorem shiftRight_shiftRight (x : UInt64) {a b : Nat} (h : a + b < 64) :
    x >>> UInt64.ofNat a >>> UInt64.ofNat b = x >>> UInt64.ofNat (a + b) := by
  have hsmall : ∀ k, k < 64 → (UInt64.ofNat k).toNat % 64 = k := by
    intro k hk
    rw [toNat_ofNat']
    omega
  apply UInt64.toNat_inj.mp
  rw [UInt64.toNat_shiftRight, UInt64.toNat_shiftRight, UInt64.toNat_shiftRight,
    hsmall a (by omega), hsmall b (by omega), hsmall (a + b) h, Nat.shiftRight_add]

/-- The shifts to the last `n` digits above the bit `base`. -/
def shifts : Nat → Nat → List Nat
  | 0, _ => []
  | n + 1, base => shifts n (base + 5) ++ [base]

/-- The loop over digits reads the characters that are written for them. -/
theorem foldl_shifts {n base : Nat} (h : base + 5 * n ≤ 64) (x : UInt64) (st : Nat × Nat) :
    (shifts n base).foldl (fun (tmp, last) remaining =>
      if (x >>> UInt64.ofNat remaining) &&& 0x1f = 0 then (remaining, last) else (tmp, tmp)) st =
      scanFrom (base + 5 * n - 5) (nameChars n (x >>> UInt64.ofNat base) []) st := by
  induction n generalizing base with
  | zero => rfl
  | succ n ih =>
    have hchars : nameChars (n + 1) (x >>> UInt64.ofNat base) [] =
        nameChars n (x >>> UInt64.ofNat (base + 5)) [] ++
          [charmap.getD (x >>> UInt64.ofNat base &&& 0x1f).toNat '.'] := by
      cases n with
      | zero => rfl
      | succ n =>
        rw [← shiftRight_shiftRight x (by omega)]
        exact ChainName.nameChars_append (n + 1) _ _
    rw [shifts, foldl_append, ih (by omega), hchars, scanFrom_append,
      ChainName.length_nameChars, show base + 5 * (n + 1) - 5 = base + 5 + 5 * n - 5 by omega,
      show base + 5 + 5 * n - 5 - 5 * n = base by omega]
    simp only [foldl_cons, foldl_nil, scanFrom, digit_eq_dot]

theorem suffixScan_eq (n : UInt64) :
    suffixScan n = scanFrom 59 (nameChars 12 (n >>> 4) []) (0, 0) :=
  foldl_shifts (show 4 + 5 * 12 ≤ 64 by decide) n (0, 0)

/-- What the code calls the bits that remain after the last actual dot. -/
theorem nameSuffix_eq (n : Name) :
    nameSuffix n =
      let last := (scanFrom 59 (ChainName.characters n) (0, 0)).2
      if last = 0 then n
      else ((n &&& (((1 : UInt64) <<< UInt64.ofNat last) - 16)) <<< UInt64.ofNat (64 - last)) +
        ((n &&& 0x0f) <<< (UInt64.ofNat (64 - last) - 1)) := by
  have hdot : charmap.getD (n &&& 0x0f).toNat '.' = '.' ↔ n &&& 0x0f = 0 := by
    rw [getD_charmap_eq_dot (by rw [toNat_and_last]; omega), ← UInt64.toNat_inj]
    rfl
  have hlast : (scanFrom 59 (ChainName.characters n) (0, 0)).2 =
      if n &&& 0x0f ≠ 0 then (suffixScan n).1 else (suffixScan n).2 := by
    rw [ChainName.characters, ChainName.nameChars_append, scanFrom_append, ← suffixScan_eq]
    simp only [scanFrom, hdot, ite_not]
    split
    · rfl
    · rfl
  rw [hlast]
  rfl

theorem toNat_and_mask {e : Nat} (he : e ≤ 11) (n : UInt64) :
    (n &&& (((1 : UInt64) <<< UInt64.ofNat (5 * e + 4)) - 16)).toNat =
      n.toNat / 16 % 2 ^ (5 * e) * 16 := by
  have hpow : (2 : Nat) ^ (5 * e + 4) = 2 ^ (5 * e) * 16 := Nat.pow_add 2 (5 * e) 4
  have hone : ((1 : UInt64) <<< UInt64.ofNat (5 * e + 4)).toNat = 2 ^ (5 * e + 4) := by
    have hshift : (UInt64.ofNat (5 * e + 4)).toNat % 64 = 5 * e + 4 := by
      rw [toNat_ofNat']
      omega
    rw [UInt64.toNat_shiftLeft, hshift, UInt64.toNat_one, Nat.shiftLeft_eq, Nat.one_mul]
    exact Nat.mod_eq_of_lt (Nat.pow_lt_pow_right (by decide) (by omega))
  have hmask : (((1 : UInt64) <<< UInt64.ofNat (5 * e + 4)) - 16).toNat =
      (2 ^ (5 * e) - 1) <<< 4 := by
    have hle : (16 : UInt64).toNat ≤ ((1 : UInt64) <<< UInt64.ofNat (5 * e + 4)).toNat := by
      rw [hone, hpow]
      exact Nat.le_mul_of_pos_left 16 (Nat.two_pow_pos _)
    rw [FixedWidth.toNat_sub_of_le hle, hone, hpow, Nat.shiftLeft_eq, Nat.sub_mul]
    rfl
  have hand : ∀ a m : Nat, a &&& m <<< 4 = (a >>> 4 &&& m) <<< 4 := by
    intro a m
    apply Nat.eq_of_testBit_eq
    intro i
    simp only [Nat.testBit_and, Nat.testBit_shiftLeft, Nat.testBit_shiftRight]
    by_cases hi : 4 ≤ i
    · simp [hi]
    · simp [hi]
  rw [UInt64.toNat_and, hmask, hand, Nat.and_two_pow_sub_one_eq_mod, Nat.shiftLeft_eq,
    Nat.shiftRight_eq_div_pow]

/-- The bits below the last dot, moved to the front, are the name of what is written for them. -/
theorem suffix_value {e : Nat} (he : e ≤ 11) (n : UInt64) :
    ((n &&& (((1 : UInt64) <<< UInt64.ofNat (5 * e + 4)) - 16)) <<<
        UInt64.ofNat (64 - (5 * e + 4))) +
      ((n &&& 0x0f) <<< (UInt64.ofNat (64 - (5 * e + 4)) - 1)) =
      stringToNameFrom 0 (nameChars e (n >>> 4) [charmap.getD (n &&& 0x0f).toNat '.']) := by
  have hvalue : (stringToNameFrom 0
      (nameChars e (n >>> 4) [charmap.getD (n &&& 0x0f).toNat '.'])).toNat =
      n.toNat / 16 % 2 ^ (5 * e) * 16 * 2 ^ (60 - 5 * e) + n.toNat % 16 * 2 ^ (59 - 5 * e) := by
    rw [toNat_stringToNameFrom_nameChars e (by omega), toNat_and_last, toNat_shiftRight_last,
      Nat.add_zero, toNat_stringToNameFrom_cons (by omega) (by omega), Nat.mul_assoc _ 16,
      show 64 - 5 * e = 4 + (60 - 5 * e) by omega, Nat.pow_add,
      show 64 - 5 * (e + 1) = 59 - 5 * e by omega]
    rfl
  have hlt := (stringToNameFrom 0
    (nameChars e (n >>> 4) [charmap.getD (n &&& 0x0f).toNat '.'])).toNat_lt
  rw [hvalue] at hlt
  have hshift : (UInt64.ofNat (64 - (5 * e + 4))).toNat = 60 - 5 * e := by
    rw [toNat_ofNat']
    omega
  have hhigh : ((n &&& (((1 : UInt64) <<< UInt64.ofNat (5 * e + 4)) - 16)) <<<
      UInt64.ofNat (64 - (5 * e + 4))).toNat =
      n.toNat / 16 % 2 ^ (5 * e) * 16 * 2 ^ (60 - 5 * e) := by
    rw [UInt64.toNat_shiftLeft, toNat_and_mask he, hshift,
      Nat.mod_eq_of_lt (show 60 - 5 * e < 64 by omega), Nat.shiftLeft_eq]
    exact Nat.mod_eq_of_lt (Nat.lt_of_le_of_lt (Nat.le_add_right _ _) hlt)
  have hlow : ((n &&& 0x0f) <<< (UInt64.ofNat (64 - (5 * e + 4)) - 1)).toNat =
      n.toNat % 16 * 2 ^ (59 - 5 * e) := by
    have hless : (UInt64.ofNat (64 - (5 * e + 4)) - 1).toNat = 59 - 5 * e := by
      rw [FixedWidth.toNat_sub_of_le (by rw [hshift, toNat_one]; omega), hshift, toNat_one]
      omega
    rw [UInt64.toNat_shiftLeft, toNat_and_last, hless,
      Nat.mod_eq_of_lt (show 59 - 5 * e < 64 by omega), Nat.shiftLeft_eq]
    exact Nat.mod_eq_of_lt (Nat.lt_of_le_of_lt (Nat.le_add_left _ _) hlt)
  apply UInt64.toNat_inj.mp
  rw [UInt64.toNat_add, hhigh, hlow, Nat.mod_eq_of_lt hlt, hvalue]

/-- The text after the last dot. -/
def afterLastDot (t : Text) : Text := (t.reverse.takeWhile (· ≠ '.')).reverse

theorem nameSuffix_of_dot {n : Name} {before after : Text}
    (ht : ChainName.toString n = before ++ '.' :: after) (hafter : '.' ∉ after) :
    nameSuffix n = stringToName after := by
  obtain ⟨k, hk⟩ := ChainName.characters_eq n
  have hne : after ≠ [] := by
    rintro rfl
    refine ChainName.getLast_toString n ?_
    rw [ht, getLast?_append]
    rfl
  have hlength := ChainName.length_characters n
  have hpos := length_pos_iff.mpr hne
  rw [hk, ht, append_assoc, cons_append, length_append, length_cons, length_append] at hlength
  obtain ⟨e, he⟩ : ∃ e, before.length + 1 + e = 12 := ⟨11 - before.length, by omega⟩
  have hlast : (scanFrom 59 (ChainName.characters n) (0, 0)).2 = 5 * e + 4 := by
    rw [hk, ht, scanFrom_append, scanFrom_dots, scanFrom_append, scanFrom,
      scanFrom_letters hafter, if_neg hne, if_pos rfl]
    omega
  obtain ⟨first, hfirst, hsplit⟩ := ChainName.nameChars_add (before.length + 1) e (n >>> 4)
    [charmap.getD (n &&& 0x0f).toNat '.']
  rw [he] at hsplit
  have hrest : after ++ replicate k '.' =
      nameChars e (n >>> 4) [charmap.getD (n &&& 0x0f).toNat '.'] := by
    have hboth : (before ++ ['.']) ++ (after ++ replicate k '.') =
        first ++ nameChars e (n >>> 4) [charmap.getD (n &&& 0x0f).toNat '.'] := by
      rw [← hsplit]
      show _ = ChainName.characters n
      rw [hk, ht]
      simp
    refine (append_inj hboth ?_).2
    rw [length_append, hfirst, length_singleton]
  have hsubset : after ⊆ charmap := by
    intro c hc
    refine ChainName.characters_subset n ((ChainName.toString_begins n).subset ?_)
    rw [ht]
    exact mem_append_right _ (mem_cons_of_mem _ hc)
  rw [nameSuffix_eq, hlast, stringToName_of_subset hsubset, ← stringToNameFrom_append_dots _ k,
    hrest, ← suffix_value (by omega)]
  exact if_neg (by omega)

theorem nameSuffix_of_no_dot {n : Name} (h : '.' ∉ ChainName.toString n) : nameSuffix n = n := by
  obtain ⟨k, hk⟩ := ChainName.characters_eq n
  have hlast : (scanFrom 59 (ChainName.characters n) (0, 0)).2 = 0 := by
    rw [hk, scanFrom_append, scanFrom_dots, scanFrom_letters h]
    split
    · rfl
    · rfl
  rw [nameSuffix_eq, hlast]
  rfl

theorem trimDots_nameToString (n : Name) :
    ChainName.trimDots (nameToString n) = ChainName.toString n := by
  unfold nameToString trimRightDots
  split
  · rfl
  · unfold ChainName.toString ChainName.trimDots
    rw [reverse_reverse, dropWhile_idempotent]
    rfl

/-- **The suffix of a name is the text after its last dot**, dots at the end apart; a name
    without a dot is its own suffix. -/
theorem suffix_after_last_dot (n : Name) :
    let t := ChainName.trimDots (nameToString n)
    if '.' ∈ t then nameSuffix n = stringToName (afterLastDot t) else nameSuffix n = n := by
  rw [trimDots_nameToString]
  dsimp only
  split_ifs with hmem
  · obtain ⟨after, before, hsplit, hafter⟩ := eq_append_cons_of_mem (mem_reverse.mpr hmem)
    have ht : ChainName.toString n = before.reverse ++ '.' :: after.reverse := by
      rw [← reverse_reverse (ChainName.toString n), hsplit]
      simp
    have hrest : afterLastDot (ChainName.toString n) = after.reverse := by
      have hall : ∀ c ∈ after, decide (c ≠ '.') = true :=
        fun c hc => decide_eq_true fun heq => hafter (heq ▸ hc)
      rw [afterLastDot, hsplit, takeWhile_append_of_pos hall]
      simp
    rw [hrest]
    exact nameSuffix_of_dot ht fun hc => hafter (mem_reverse.mp hc)
  · exact nameSuffix_of_no_dot hmem

end YottaChain
