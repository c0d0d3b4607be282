/-
  **Names as text and back** (`types.hpp`), and the memos that carry them to `channel.sys`.

  A name is twelve digits of five bits and one of four, the first in the highest bits.  The
  text has a character for each digit, without the dots at its end, which stand for zeros; the
  reader takes a missing character as a zero.  No character is a colon or a NUL, so a memo is
  cut where it was put together.
-/
import YottaChain.ChannelSys
import YottaChain.HddPoolLottery
import Mathlib.Data.List.GetD
import Mathlib.Data.List.TakeWhile
import Mathlib.Tactic.Ring

namespace YottaChain

open List

/-! ## 1. Names -/

variable {d : Nat}

theorem charToSymbol_charmap (hd : d < 32) : (charToSymbol (charmap.getD d '.')).toNat = d := by
  have hall : ∀ d : Fin 32, (charToSymbol (charmap.getD d '.')).toNat = d := by decide +kernel
  exact hall ⟨d, hd⟩

theorem toNat_and_digit (x : UInt64) : (x &&& 0x1f).toNat = x.toNat % 32 := by
  rw [UInt64.toNat_and]
  exact Nat.and_two_pow_sub_one_eq_mod x.toNat 5

variable {i : Nat}

theorem toNat_and_last (x : UInt64) : (x &&& 0x0f).toNat = x.toNat % 16 := by
  rw [UInt64.toNat_and]
  exact Nat.and_two_pow_sub_one_eq_mod x.toNat 4

theorem toNat_shiftRight_last (x : UInt64) : (x >>> 4).toNat = x.toNat / 16 := by
  rw [UInt64.toNat_shiftRight]
  exact Nat.shiftRight_eq_div_pow x.toNat 4

theorem two_pow_digit (hi : i < 12) : 2 ^ (64 - 5 * i) = 32 * 2 ^ (64 - 5 * (i + 1)) := by
  rw [show 64 - 5 * i = 5 + (64 - 5 * (i + 1)) by omega, Nat.pow_add]

theorem toNat_digit_shiftLeft (hi : i < 12) (x : UInt64) :
    ((x &&& 0x1f) <<< UInt64.ofNat (64 - 5 * (i + 1))).toNat =
      (x.toNat % 32) <<< (64 - 5 * (i + 1)) := by
  have hshift : (UInt64.ofNat (64 - 5 * (i + 1))).toNat % 64 = 64 - 5 * (i + 1) := by
    rw [UInt64.toNat_ofNat']
    omega
  rw [UInt64.toNat_shiftLeft, toNat_and_digit, hshift]
  apply Nat.mod_eq_of_lt
  rw [Nat.shiftLeft_eq]
  calc x.toNat % 32 * 2 ^ (64 - 5 * (i + 1))
      < 32 * 2 ^ (64 - 5 * (i + 1)) :=
        Nat.mul_lt_mul_of_pos_right (Nat.mod_lt _ (by decide)) (Nat.two_pow_pos _)
    _ = 2 ^ (64 - 5 * i) := (two_pow_digit hi).symm
    _ ≤ 2 ^ 64 := Nat.pow_le_pow_right (by decide) (Nat.sub_le _ _)

/-- A character in front adds its digit, above all that follows. -/
theorem toNat_stringToNameFrom_cons_of_lt (hi : i < 12) (c : Char) {l : Text}
    (h : (stringToNameFrom (i + 1) l).toNat < 2 ^ (64 - 5 * (i + 1))) :
    (stringToNameFrom i (c :: l)).toNat =
      (charToSymbol c).toNat % 32 * 2 ^ (64 - 5 * (i + 1)) +
        (stringToNameFrom (i + 1) l).toNat := by
  rw [stringToNameFrom, if_pos hi, UInt64.toNat_or, toNat_digit_shiftLeft hi,
    ← Nat.shiftLeft_add_eq_or_of_lt h, Nat.shiftLeft_eq]

theorem toNat_stringToNameFrom_lt (l : Text) (hi : i ≤ 12) :
    (stringToNameFrom i l).toNat < 2 ^ (64 - 5 * i) := by
  induction l generalizing i with
  | nil => exact Nat.two_pow_pos _
  | cons c l ih =>
    rcases Nat.lt_or_eq_of_le hi with hlt | rfl
    · have htail := ih (show i + 1 ≤ 12 from hlt)
      have hdigit : (charToSymbol c).toNat % 32 < 32 := Nat.mod_lt _ (by decide)
      rw [toNat_stringToNameFrom_cons_of_lt hlt c htail, two_pow_digit hlt]
      calc (charToSymbol c).toNat % 32 * 2 ^ (64 - 5 * (i + 1)) + (stringToNameFrom (i + 1) l).toNat
          < (charToSymbol c).toNat % 32 * 2 ^ (64 - 5 * (i + 1)) + 2 ^ (64 - 5 * (i + 1)) :=
            Nat.add_lt_add_left htail _
        _ = ((charToSymbol c).toNat % 32 + 1) * 2 ^ (64 - 5 * (i + 1)) := (Nat.succ_mul _ _).symm
        _ ≤ 32 * 2 ^ (64 - 5 * (i + 1)) := Nat.mul_le_mul_right _ hdigit
    · rw [stringToNameFrom, if_neg (by decide), if_pos rfl, UInt64.toNat_and]
      exact Nat.lt_of_le_of_lt Nat.and_le_right (by decide)

theorem toNat_stringToNameFrom_cons (hd : d < 32) (hi : i < 12) (l : Text) :
    (stringToNameFrom i (charmap.getD d '.' :: l)).toNat =
      d * 2 ^ (64 - 5 * (i + 1)) + (stringToNameFrom (i + 1) l).toNat := by
  rw [toNat_stringToNameFrom_cons_of_lt hi _ (toNat_stringToNameFrom_lt l hi),
    charToSymbol_charmap hd, Nat.mod_eq_of_lt hd]

/-- The last `n` digits of `tmp`, written in front of a text that starts at position `i`. -/
theorem toNat_stringToNameFrom_nameChars (n : Nat) (hi : n + i ≤ 12) (tmp : UInt64) (acc : Text) :
    (stringToNameFrom i (nameChars n tmp acc)).toNat =
      tmp.toNat % 2 ^ (5 * n) * 2 ^ (64 - 5 * (n + i)) +
        (stringToNameFrom (n + i) acc).toNat := by
  induction n generalizing tmp acc with
  | zero => rw [nameChars, Nat.mul_zero, Nat.pow_zero, Nat.mod_one, Nat.zero_mul, Nat.zero_add,
      Nat.zero_add]
  | succ n ih =>
    have hrest : (tmp >>> 5).toNat = tmp.toNat / 32 := by
      rw [UInt64.toNat_shiftRight]
      exact Nat.shiftRight_eq_div_pow tmp.toNat 5
    have hsplit : tmp.toNat % 2 ^ (5 * (n + 1)) =
        tmp.toNat % 32 + 32 * (tmp.toNat / 32 % 2 ^ (5 * n)) := by
      rw [show 5 * (n + 1) = 5 + 5 * n by omega, Nat.pow_add]
      exact Nat.mod_mul
    rw [nameChars, ih (by omega), toNat_and_digit, hrest,
      toNat_stringToNameFrom_cons (Nat.mod_lt _ (by decide)) (by omega), hsplit,
      two_pow_digit (show n + i < 12 by omega), show n + 1 + i = n + i + 1 by omega]
    ring

theorem stringToNameFrom_dots (k i : Nat) : stringToNameFrom i (replicate k '.') = 0 := by
  induction k generalizing i with
  | zero => rfl
  | succ k ih =>
    rw [replicate_succ, stringToNameFrom, ih, show charToSymbol '.' = 0 by decide]
    simp

theorem stringToNameFrom_append_dots (l : Text) (k i : Nat) :
    stringToNameFrom i (l ++ replicate k '.') = stringToNameFrom i l := by
  induction l generalizing i with
  | nil => exact stringToNameFrom_dots k i
  | cons c l ih => rw [cons_append, stringToNameFrom, stringToNameFrom, ih]

theorem exists_append_dots (str : Text) :
    ∃ k, str = (str.reverse.dropWhile (· == '.')).reverse ++ replicate k '.' := by
  refine ⟨(str.reverse.takeWhile (· == '.')).length, ?_⟩
  have hdots : str.reverse.takeWhile (· == '.') =
      replicate (str.reverse.takeWhile (· == '.')).length '.' := by
    refine eq_replicate_of_mem fun c hc => ?_
    have hdot := mem_takeWhile_imp hc
    exact beq_iff_eq.mp hdot
  rw [← reverse_replicate, ← hdots, ← reverse_append, takeWhile_append_dropWhile, reverse_reverse]

theorem eq_trimRightDots_append (str : Text) :
    ∃ k, str = trimRightDots str ++ replicate k '.' := by
  unfold trimRightDots
  split
  · exact ⟨0, (append_nil _).symm⟩
  · exact exists_append_dots str

theorem getD_mem_charmap (d : Nat) : charmap.getD d '.' ∈ charmap := by
  rcases Nat.lt_or_ge d charmap.length with hd | hd
  · rw [getD_eq_getElem _ _ hd]
    exact getElem_mem hd
  · rw [getD_eq_default _ _ hd]
    decide

theorem nameChars_subset {acc : Text} (hacc : acc ⊆ charmap) (n : Nat) (tmp : UInt64) :
    nameChars n tmp acc ⊆ charmap := by
  induction n generalizing tmp acc with
  | zero => exact hacc
  | succ n ih => exact ih (cons_subset.mpr ⟨getD_mem_charmap _, hacc⟩) _

theorem nameToString_subset (value : Name) : nameToString value ⊆ charmap := by
  intro c hc
  obtain ⟨k, hk⟩ := eq_trimRightDots_append
    (nameChars 12 (value >>> 4) [charmap.getD (value &&& 0x0f).toNat '.'])
  have hlast : [charmap.getD (value &&& 0x0f).toNat '.'] ⊆ charmap :=
    cons_subset.mpr ⟨getD_mem_charmap _, nil_subset _⟩
  refine nameChars_subset hlast 12 (value >>> 4) ?_
  rw [hk]
  exact mem_append_left _ hc

theorem stringToNameFrom_nameChars (value : Name) :
    stringToNameFrom 0 (nameChars 12 (value >>> 4) [charmap.getD (value &&& 0x0f).toNat '.']) =
      value := by
  have hthirteenth : (stringToNameFrom 12 [charmap.getD (value.toNat % 16) '.']).toNat =
      value.toNat % 16 := by
    have hdigit := charToSymbol_charmap (show value.toNat % 16 < 32 by omega)
    rw [stringToNameFrom, if_neg (by decide), if_pos rfl, UInt64.toNat_and, hdigit]
    exact (Nat.and_two_pow_sub_one_eq_mod _ 4).trans (Nat.mod_mod _ _)
  have hlt := value.toNat_lt
  apply UInt64.toNat_inj.mp
  rw [toNat_stringToNameFrom_nameChars 12 (Nat.le_refl 12), toNat_and_last, toNat_shiftRight_last,
    hthirteenth, Nat.mod_eq_of_lt (by omega)]
  omega

theorem stringToName_of_subset {str : Text} (h : str ⊆ charmap) :
    stringToName str = stringToNameFrom 0 str := by
  have hnul : str.takeWhile (· ≠ '\x00') = str := by
    refine takeWhile_eq_self_iff.mpr fun c hc => ?_
    have hnot : '\x00' ∉ charmap := by decide
    exact decide_eq_true fun heq => hnot (heq ▸ h hc)
  rw [stringToName, hnul]

theorem stringToName_nameToString (value : Name) : stringToName (nameToString value) = value := by
  obtain ⟨k, hk⟩ := eq_trimRightDots_append
    (nameChars 12 (value >>> 4) [charmap.getD (value &&& 0x0f).toNat '.'])
  rw [stringToName_of_subset (nameToString_subset value), nameToString,
    ← stringToNameFrom_append_dots _ k, ← hk]
  exact stringToNameFrom_nameChars value

/-! ## 2. Memos -/

theorem splitColon_append {before : Text} (h : ':' ∉ before) (after : Text) :
    Channel.splitColon (before ++ ':' :: after) = .ok (before, after) := by
  have hspan : (before ++ ':' :: after).span (· ≠ ':') = (before, ':' :: after) := by
    have hall : ∀ c ∈ before, decide (c ≠ ':') = true :=
      fun c hc => decide_eq_true fun heq => h (heq ▸ hc)
    rw [span_eq_takeWhile_dropWhile, takeWhile_append_of_pos hall, dropWhile_append_of_pos hall]
    simp
  rw [Channel.splitColon, hspan]

theorem parseMemo_append {type : Text} (htype : ':' ∉ type) (u : Name) (rest : Text) :
    Channel.parseMemo (type ++ ':' :: nameToString u ++ ':' :: rest) =
      .ok (UInt8.ofNat (Channel.atoi type % 256).toNat, u) := by
  have hname : ':' ∉ nameToString u :=
    fun h => absurd (nameToString_subset u h) (by decide)
  rw [Channel.parseMemo, append_assoc, cons_append, splitColon_append htype]
  change (Channel.splitColon _ >>= _) = _
  rw [splitColon_append hname]
  exact congrArg (fun name => Except.ok (_, name)) (stringToName_nameToString u)

/-- **Reward and refund memos reach the right account.** -/
theorem memos_reach_account (u : Name) (type : UInt8) (hlow : 1 ≤ type) (hhigh : type ≤ 5)
    (minerid : UInt64) :
    Channel.parseMemo (HddPool.rewardMemo type u minerid) = .ok (type, u) ∧
    Channel.parseMemo ("3:".toList ++ nameToString u ++ ":0".toList) = .ok (3, u) ∧
    stringToName (nameToString u) = u := by
  refine ⟨?_, parseMemo_append (by decide : ':' ∉ ['3']) u ['0'], stringToName_nameToString u⟩
  have htypes : type = 1 ∨ type = 2 ∨ type = 3 ∨ type = 4 ∨ type = 5 := by
    simp only [UInt8.le_iff_toNat_le, ← UInt8.toNat_inj] at *
    change 1 ≤ type.toNat at hlow
    change type.toNat ≤ 5 at hhigh
    change _ = 1 ∨ _ = 2 ∨ _ = 3 ∨ _ = 4 ∨ _ = 5
    omega
  rcases htypes with rfl | rfl | rfl | rfl | rfl
  all_goals exact parseMemo_append (by decide) u _

theorem memos_reach_account_sample :
    Channel.parseMemo (HddPool.rewardMemo 1 (N "a.b") 7) = .ok (1, N "a.b") ∧
    Channel.parseMemo (HddPool.rewardMemo 5 (N "zzzzzzzzzzzzj") 7) = .ok (5, N "zzzzzzzzzzzzj") ∧
    Channel.parseMemo (HddPool.rewardMemo 2 0 7) = .ok (2, 0) :=
  ⟨(memos_reach_account _ 1 (by decide) (by decide) 7).1,
    (memos_reach_account _ 5 (by decide) (by decide) 7).1,
    (memos_reach_account 0 2 (by decide) (by decide) 7).1⟩

end YottaChain
