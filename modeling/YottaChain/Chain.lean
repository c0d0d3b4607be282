/-
  **What the contracts take from the chain and from `eosiolib`.**

    * account names and the `N(...)` macro       (`eosiolib/types.hpp`);
    * symbols and assets with their checks       (`eosiolib/symbol.hpp`,
      `eosiolib/asset.hpp`);
    * the execution context of one action: clock, authorisations, account
      existence, the producer and voter tables of `eosio.system`;
    * the floating-point expressions of the contracts, as functions the rest
      of the development does not look into.

  `uint64_t` is `UInt64` and `int64_t` is `Int64`, so every operator wraps
  where the compiled contract wraps.  A `std::string` is the list of its
  characters.
-/
import YottaChain.Checked
import YottaChain.FixedWidth

namespace YottaChain

open Checked FixedWidth

/-! ## 1. Names -/

abbrev Name := UInt64

abbrev Text := List Char

def charToSymbol (c : Char) : UInt64 :=
  if 'a' ≤ c ∧ c ≤ 'z' then (c.val.toUInt64 - 97) + 6
  else if '1' ≤ c ∧ c ≤ '5' then (c.val.toUInt64 - 49) + 1
  else 0

/-- The loop of `string_to_name` from position `i` on: five bits for each of
    the first twelve characters, four for the thirteenth. -/
def stringToNameFrom (i : Nat) : Text → UInt64
  | [] => 0
  | c :: rest =>
      if i < 12 then
        ((charToSymbol c &&& 0x1f) <<< UInt64.ofNat (64 - 5 * (i + 1))) |||
          stringToNameFrom (i + 1) rest
      else if i = 12 then charToSymbol c &&& 0x0f
      else 0

/-- `string_to_name` reads a C string, up to the first NUL character. -/
def stringToName (str : Text) : Name := stringToNameFrom 0 (str.takeWhile (· ≠ '\x00'))

/-- The macro `N(X)`. -/
def N (s : String) : Name := stringToName s.toList

def charmap : Text := ".12345abcdefghijklmnopqrstuvwxyz".toList

/-- The characters of `name::to_string` from the last one backwards, in front
    of those already read. -/
def nameChars : Nat → UInt64 → Text → Text
  | 0, _, acc => acc
  | n + 1, tmp, acc =>
      nameChars n (tmp >>> 5) (charmap.getD (tmp &&& 0x1f).toNat '.' :: acc)

/-- `trim_right_dots` leaves a string of dots alone: `find_last_not_of` then
    returns `npos`. -/
def trimRightDots (str : Text) : Text :=
  if str.all (· == '.') then str else (str.reverse.dropWhile (· == '.')).reverse

def nameToString (value : Name) : Text :=
  trimRightDots (nameChars 12 (value >>> 4) [charmap.getD (value &&& 0x0f).toNat '.'])

/-- The loop of `name_suffix` over the first twelve characters: the bits that remain
    after the last dot read, and after the last dot with a character behind it. -/
def suffixScan (n : UInt64) : Nat × Nat :=
  [59, 54, 49, 44, 39, 34, 29, 24, 19, 14, 9, 4].foldl
    (fun (tmp, last) remaining =>
      if (n >>> UInt64.ofNat remaining) &&& 0x1f = 0 then (remaining, last) else (tmp, tmp))
    (0, 0)

def nameSuffix (n : Name) : Name :=
  let (tmp, last) := suffixScan n
  let thirteenth := n &&& 0x0f
  let last := if thirteenth ≠ 0 then tmp else last
  if last = 0 then n
  else
    let mask := ((1 : UInt64) <<< UInt64.ofNat last) - 16
    let shift := UInt64.ofNat (64 - last)
    ((n &&& mask) <<< shift) + (thirteenth <<< (shift - 1))

/-! ## 2. Symbols and assets -/

/-- `CORE_SYMBOL`, that is `S(4,YTA)`. -/
def coreSymbol : UInt64 :=
  (4 : UInt64) ||| ((89 : UInt64) <<< 8) ||| ((84 : UInt64) <<< 16) ||| ((65 : UInt64) <<< 24)

def symbolName (symbol : UInt64) : UInt64 := symbol >>> 8

/-- The inner loop of `is_valid_symbol`: once a character is missing, all
    later ones are. -/
def symbolTail : Nat → UInt64 → Bool
  | 0, _ => true
  | n + 1, sym => if (sym >>> 8) &&& 0xff ≠ 0 then false else symbolTail n (sym >>> 8)

/-- The outer loop of `is_valid_symbol` with `n` characters to go. -/
def symbolLoop : Nat → UInt64 → Bool
  | 0, _ => true
  | n + 1, sym =>
      if ¬ (65 ≤ sym &&& 0xff ∧ sym &&& 0xff ≤ 90) then false
      else if (sym >>> 8) &&& 0xff = 0 then symbolTail (n + 1) (sym >>> 8)
      else symbolLoop n (sym >>> 8)

def isValidSymbol (sym : UInt64) : Bool := symbolLoop 7 (sym >>> 8)

structure Asset where
  amount : Int64
  symbol : UInt64
deriving DecidableEq, Repr

def maxAmount : Int64 := 4611686018427387903

namespace Asset

def isAmountWithinRange (amount : Int64) : Bool := decide (-maxAmount ≤ amount ∧ amount ≤ maxAmount)

def isValid (a : Asset) : Bool := isAmountWithinRange a.amount && isValidSymbol a.symbol

/-- The constructor `asset(a, s)` with its two checks. -/
def make (amount : Int64) (symbol : UInt64) : Checked Asset := do
  ensure (isAmountWithinRange amount) "magnitude of asset amount must be less than 2^62"
  ensure (isValidSymbol symbol) "invalid symbol name"
  pure ⟨amount, symbol⟩

/-- `operator+=`. -/
def add (a b : Asset) : Checked Asset := do
  ensure (b.symbol = a.symbol) "attempt to add asset with different symbol"
  ensure (-maxAmount ≤ a.amount + b.amount) "addition underflow"
  ensure (a.amount + b.amount ≤ maxAmount) "addition overflow"
  pure { a with amount := a.amount + b.amount }

/-- `operator-=`. -/
def sub (a b : Asset) : Checked Asset := do
  ensure (b.symbol = a.symbol) "attempt to subtract asset with different symbol"
  ensure (-maxAmount ≤ a.amount - b.amount) "subtraction underflow"
  ensure (a.amount - b.amount ≤ maxAmount) "subtraction overflow"
  pure { a with amount := a.amount - b.amount }

/-- `operator>=`. -/
def ge (a b : Asset) : Checked Bool := do
  ensure (a.symbol = b.symbol) "comparison of assets with different symbols is not allowed"
  pure (decide (b.amount ≤ a.amount))

/-- `operator<`. -/
def lt (a b : Asset) : Checked Bool := do
  ensure (a.symbol = b.symbol) "comparison of assets with different symbols is not allowed"
  pure (decide (a.amount < b.amount))

/-- `operator<=`. -/
def le (a b : Asset) : Checked Bool := do
  ensure (a.symbol = b.symbol) "comparison of assets with different symbols is not allowed"
  pure (decide (a.amount ≤ b.amount))

/-- `operator==`. -/
def eq (a b : Asset) : Checked Bool := do
  ensure (a.symbol = b.symbol) "comparison of assets with different symbols is not allowed"
  pure (decide (a.amount = b.amount))

/-- The unary `operator-`, which checks nothing. -/
def neg (a : Asset) : Asset := { a with amount := -a.amount }

/-- `asset(a)`, an amount of the core token without its checks. -/
def core (amount : Int64) : Asset := ⟨amount, coreSymbol⟩

def value (a : Asset) : ℤ := a.amount.toInt

theorem within_iff {x : Int64} : -maxAmount ≤ x ∧ x ≤ maxAmount ↔ InWindow x := by
  rw [Int64.le_iff_toInt_le, Int64.le_iff_toInt_le]
  exact Iff.rfl

variable {a : Asset}

theorem inWindow_of_isValid (h : a.isValid) : InWindow a.amount := by
  rw [isValid, Bool.and_eq_true, isAmountWithinRange, decide_eq_true_eq] at h
  exact within_iff.mp h.1

theorem make_ok {amount : Int64} {symbol : UInt64} (h : make amount symbol = .ok a) :
    a.amount = amount ∧ InWindow a.amount := by
  simp only [make, isAmountWithinRange, decide_eq_true_eq, ok_iff] at h
  obtain ⟨hw, _, rfl⟩ := h
  exact ⟨rfl, within_iff.mp hw⟩

theorem make_core {amount : Int64} (h : InWindow amount) :
    make amount coreSymbol = .ok (core amount) := by
  have hrange : isAmountWithinRange amount = true := decide_eq_true (within_iff.mpr h)
  have hsymbol : isValidSymbol coreSymbol = true := by decide
  simp only [make, hrange, hsymbol]
  rfl

variable {b : Asset}

theorem add_ok {r : Asset} (h : a.add b = .ok r) (ha : InWindow a.amount) :
    r.value = a.value + b.value ∧ InWindow r.amount := by
  simp only [add, ok_iff] at h
  obtain ⟨_, hlo, hhi, rfl⟩ := h
  have hr := within_iff.mp ⟨hlo, hhi⟩
  exact ⟨checked_add ha hr, hr⟩

theorem sub_ok {r : Asset} (h : a.sub b = .ok r) (ha : InWindow a.amount) :
    r.value = a.value - b.value ∧ InWindow r.amount := by
  simp only [sub, ok_iff] at h
  obtain ⟨_, hlo, hhi, rfl⟩ := h
  have hr := within_iff.mp ⟨hlo, hhi⟩
  exact ⟨checked_sub ha hr, hr⟩

theorem value_neg (h : InWindow a.amount) : a.neg.value = -a.value := by
  unfold InWindow at h
  unfold value neg
  dsimp only
  rw [Int64.toInt_neg]
  exact bmod_eq_of_bounds (by omega) (by omega)

variable {r : Bool}

theorem lt_eq_ok : a.lt b = .ok r ↔ a.symbol = b.symbol ∧ decide (a.amount < b.amount) = r := by
  simp only [lt, ok_iff]

theorem le_eq_ok : a.le b = .ok r ↔ a.symbol = b.symbol ∧ decide (a.amount ≤ b.amount) = r := by
  simp only [le, ok_iff]

theorem eq_eq_ok : a.eq b = .ok r ↔ a.symbol = b.symbol ∧ decide (a.amount = b.amount) = r := by
  simp only [eq, ok_iff]

theorem ge_ok (h : a.ge b = .ok r) : r = decide (b.amount ≤ a.amount) := by
  simp only [ge, ok_iff] at h
  exact h.2.symm

end Asset

/-! ## 3. The execution context of one action -/

/-- What an action sees of the chain.  `isAccount 0` is false because
    `apply_eosio_newaccount` refuses the empty name. -/
structure Ctx where
  currentTime : UInt64
  hasAuth : Name → Bool
  isAccount : Name → Bool
  isAccount_zero : isAccount 0 = false
  /-- `producersext`: sequence number and shadow account of a producer. -/
  producersExt : Name → Option (UInt16 × Name)
  isActiveVoter : Name → Bool
  taposBlockPrefix : UInt64
  taposBlockNum : UInt64

/-- `current_time()` in the block of a slot: microseconds since 1970, the slots
    being half seconds since 2000. -/
def blockTime (slot : UInt32) : UInt64 := (946684800000 + slot.toUInt64 * 500) * 1000

theorem toNat_blockTime (slot : UInt32) :
    (blockTime slot).toNat = (946684800000 + slot.toNat * 500) * 1000 := by
  have hslot := slot.toNat_lt
  simp only [blockTime, UInt64.toNat_mul, UInt64.toNat_add, UInt32.toNat_toUInt64,
    UInt64.reduceToNat]
  omega

namespace Ctx

@[reducible] def requireAuth (c : Ctx) (account : Name) : Checked Unit :=
  ensure (c.hasAuth account) "missing authority"

/-- `now()`, in seconds. -/
def now (c : Ctx) : UInt32 := (c.currentTime / 1000000).toUInt32

/-- `check_bp_account`: `getProducerSeq` returns 0 for an unknown producer. -/
def checkBpAccount (c : Ctx) (bpacc : Name) : Checked Unit :=
  match c.producersExt bpacc with
  | none => .error "invalidate bp account"
  | some (seqNum, shadow) => do
      ensure (0 < seqNum ∧ seqNum < 22) "invalidate bp account"
      c.requireAuth shadow

end Ctx

/-! ## 4. Floating-point expressions

Every place where a contract computes with `double` and casts the result back
is one function here, named after what it computes.  Nothing is assumed about
them; a result that depends on one of them says what it needs. -/

structure Doubles where
  /-- `(int64_t)((space / one_gb) * (fee_cycle / milliseconds_in_one_year) * 100000000)` -/
  cycleProfit : UInt64 → Int64
  /-- `(int64_t)((slot_t / fee_cycle) * hdd_per_cycle_profit)` -/
  tickProfit : UInt64 → Int64 → Int64
  /-- `(int64_t)((slot_t / fee_cycle) * (0 - hdd_per_cycle_fee))` -/
  tickFee : UInt64 → Int64 → Int64
  /-- `(int64_t)(0.k * x)` -/
  tenths : Nat → Int64 → Int64
  /-- YTA for an amount of HDD at `hdd_price` and `yta_price`. -/
  buyPrice : Int64 → UInt64 → UInt64 → Int64
  /-- YTA for an amount of HDD at both prices and both deduplication ratios. -/
  sellPrice : Int64 → UInt64 → UInt64 → UInt64 → UInt64 → Int64
  /-- Cumulated issue after a number of reward days. -/
  rewardIssue : UInt32 → Int64
  /-- `(int64_t)(blocks_per_day / (2 * span) + 0.5)` -/
  rewardsPerDay : UInt32 → Int64
  /-- `(int64_t)((space / one_gb) * (rate / 100) * 10000)` -/
  depositFor : UInt64 → Int64 → Int64
  /-- `(int64_t)((1.0 / sqrt(yta_u_price / 10000)) * 0.38 * 10000)` -/
  depositRate : UInt64 → Int64
  /-- `(int64_t)((amount / 100) * percent)` -/
  lockedPart : Int64 → UInt8 → Int64
  /-- `(uint64_t)(20 + 60 * (1 / (yta_price / usd_price + 1)))` -/
  splitRate : UInt64 → UInt64 → UInt64

/-- The per-cycle rate is zero without space and positive on every positive
    number of whole gigabytes. -/
structure Doubles.PositiveRate (fp : Doubles) : Prop where
  zero : fp.cycleProfit 0 = 0
  pos : ∀ space : UInt64, space ≠ 0 → space.toNat % 65536 = 0 → 0 < fp.cycleProfit space

/-- The expressions in whole-number arithmetic, to evaluate runs with.  The
    issue curve is replaced by its first-order term. -/
def Doubles.whole : Doubles where
  cycleProfit space := Int64.ofNat (min (space.toNat / 65536 * 100000000 / 365) (2 ^ 63 - 1))
  tickProfit slot profit := Int64.ofInt ((slot.toNat * profit.toInt).tdiv 86400000)
  tickFee slot fee := Int64.ofInt (-(slot.toNat * fee.toInt).tdiv 86400000)
  tenths k x := Int64.ofInt ((x.toInt * k).tdiv 10)
  buyPrice amount hdd yta := Int64.ofInt ((amount.toInt * hdd.toNat).tdiv (10000 * yta.toNat))
  sellPrice amount hdd yta dup dist :=
    Int64.ofInt ((amount.toInt * hdd.toNat * dup.toNat * dist.toNat).tdiv
      (10000 * yta.toNat * 10000 * 10000))
  rewardIssue day := Int64.ofNat (day.toNat * 4812942883)
  rewardsPerDay span := Int64.ofNat ((172800 + span.toNat) / (2 * span.toNat))
  depositFor space rate := Int64.ofInt (space.toNat / 65536 * rate.toInt * 100)
  depositRate price := Int64.ofNat (380000 / Nat.sqrt price.toNat)
  lockedPart amount percent := Int64.ofInt ((amount.toInt * percent.toNat).tdiv 100)
  splitRate yta usd := UInt64.ofNat (20 + 60 * usd.toNat / (yta.toNat + usd.toNat))

/-- A context in which every authorisation is given, every non-empty name is an
    account and every account is a block producer. -/
def Ctx.permissive (now : UInt64) : Ctx where
  currentTime := now
  hasAuth _ := true
  isAccount u := u != 0
  isAccount_zero := rfl
  producersExt u := some (1, u)
  isActiveVoter _ := true
  taposBlockPrefix := 1
  taposBlockNum := 1

end YottaChain
