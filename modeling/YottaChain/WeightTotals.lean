/-
  **The totals of the resource weights** (`resource_limits.cpp`, `initialize_account`,
  `set_account_limits` and `process_account_limit_updates`).

  New limits of an account are pending until the end of the block.  Then the total of each
  weight gives back what the account counted for and takes up the new value, one account
  after the other.  The sum over all rows, pending ones and others, bounds every total on the
  way, and no round lets it grow.
-/
import YottaChain.ElasticLimits

namespace YottaChain.Resources

open Checked Run Table

/-! ## 1. Runs -/

structure Tracked where
  manager : Manager
  last : Table Name AccountLimits

inductive LimitOp where
  | initializeAccount (account : Name)
  | setAccountLimits (account : Name) (ramBytes netWeight cpuWeight : Int64)
  | processAccountLimitUpdates

def Tracked.apply (w : Tracked) : LimitOp → Checked Tracked
  | .initializeAccount account => do
      let r ← w.manager.initializeAccount account
      pure ⟨r, w.last.put account {}⟩
  | .setAccountLimits account ramBytes netWeight cpuWeight => do
      let (r, _) ← w.manager.setAccountLimits account ramBytes netWeight cpuWeight
      pure ⟨r, w.last.put account ⟨netWeight, cpuWeight, ramBytes⟩⟩
  | .processAccountLimitUpdates => do
      let r ← w.manager.processAccountLimitUpdates
      pure ⟨r, w.last⟩

inductive Weight where
  | ram
  | net
  | cpu

def Weight.value : Weight → AccountLimits → Int64
  | .ram, l => l.ramBytes
  | .net, l => l.netWeight
  | .cpu, l => l.cpuWeight

def Weight.total : Weight → LimitsState → UInt64
  | .ram, s => s.totalRamBytes
  | .net, s => s.totalNetWeight
  | .cpu, s => s.totalCpuWeight

def positive (value : Int64) : Nat := value.toInt.toNat

def Tracked.sum (w : Tracked) (x : Weight) : Nat := w.last.total fun _ l => positive (x.value l)

/-- A call that keeps the sums of the positive values below `2^63`. -/
def LimitStep (w w' : Tracked) : Prop := ∃ op, w.apply op = .ok w' ∧ ∀ x, w'.sum x < 2 ^ 63

def initialTracked : Tracked := ⟨initialManager, ∅⟩

/-! ## 2. The rows -/

def actualSum (r : Manager) (x : Weight) : Nat :=
  r.limits.total fun k l => if k.1 then 0 else positive (x.value l)

def rowSum (r : Manager) (x : Weight) : Nat := r.limits.total fun _ l => positive (x.value l)

def pendingCount (r : Manager) : Nat := r.limits.total fun k _ => if k.1 then 1 else 0

def pendingSum (r : Manager) (x : Weight) : Nat :=
  r.limits.total fun k l => if k.1 then positive (x.value l) else 0

theorem rowSum_eq (r : Manager) (x : Weight) : rowSum r x = actualSum r x + pendingSum r x := by
  unfold rowSum actualSum pendingSum
  rw [← total_add]
  congr 1
  funext k l
  cases k.1 with
  | true => exact (Nat.zero_add _).symm
  | false => rfl

/-- The rows of the accounts: one for each, and another one where the last values are
    pending. -/
structure Rows (r : Manager) (last : Table Name AccountLimits) : Prop where
  initialized : ∀ a, r.limits.find (false, a) = none ↔ last.find a = none
  pending : ∀ a l, r.limits.find (true, a) = some l → last.find a = some l
  settled : ∀ a, r.limits.find (true, a) = none → r.limits.find (false, a) = last.find a

namespace Rows

variable {r : Manager} {last : Table Name AccountLimits}

theorem getAccountLimits (h : Rows r last) {a : Name} {l : AccountLimits} :
    r.getAccountLimits a = .ok l ↔ last.find a = some l := by
  unfold Manager.getAccountLimits
  cases hpending : r.limits.find (true, a) with
  | some p => rw [h.pending a p hpending, ok_eq_ok, Option.some.injEq]
  | none => rw [get_eq_ok, h.settled a hpending]

theorem rowSum_le (h : Rows r last) (x : Weight) :
    rowSum r x ≤ actualSum r x + last.total fun _ l => positive (x.value l) := by
  rw [rowSum_eq]
  apply Nat.add_le_add_left
  apply total_le_total Prod.snd
  · rintro ⟨b, a⟩ ⟨b', a'⟩ l l' _ _ hne hne' (rfl : a = a')
    cases b with
    | false => exact absurd rfl hne
    | true =>
      cases b' with
      | false => exact absurd rfl hne'
      | true => rfl
  · rintro ⟨b, a⟩ l hl hne
    cases b with
    | false => exact absurd rfl hne
    | true => exact ⟨l, h.pending a l hl, Nat.le_refl _⟩

theorem actualSum_eq (h : Rows r last) (hsettled : ∀ a, r.limits.find (true, a) = none)
    (x : Weight) : actualSum r x = last.total fun _ l => positive (x.value l) := by
  apply Nat.le_antisymm
  · apply total_le_total Prod.snd
    · rintro ⟨b, a⟩ ⟨b', a'⟩ l l' _ _ hne hne' (rfl : a = a')
      cases b with
      | true => exact absurd rfl hne
      | false =>
        cases b' with
        | true => exact absurd rfl hne'
        | false => rfl
    · rintro ⟨b, a⟩ l hl hne
      cases b with
      | true => exact absurd rfl hne
      | false =>
        rw [h.settled a (hsettled a)] at hl
        exact ⟨l, hl, Nat.le_refl _⟩
  · apply total_le_total (Prod.mk false)
    · intro a a' _ _ _ _ _ _ heq
      exact congrArg Prod.snd heq
    · intro a l hl _
      rw [← h.settled a (hsettled a)] at hl
      exact ⟨l, hl, Nat.le_refl _⟩

end Rows

/-! ## 3. One round -/

variable {value : Int64}

theorem toNat_toUInt64_of_pos (h : value > 0) : value.toUInt64.toNat = positive value := by
  have hpos : 0 < value.toInt := Int64.lt_iff_toInt_lt.mp h
  have hbound := (FixedWidth.toInt_bounds value).2
  have hmod := FixedWidth.toNat_toUInt64 value
  rw [Int.emod_eq_of_lt (by omega) (by omega)] at hmod
  unfold positive
  omega

theorem positive_of_not_pos (h : ¬ value > 0) : positive value = 0 := by
  have hle : value.toInt ≤ 0 := Int64.le_iff_toInt_le.mp (Int64.not_lt.mp h)
  exact Int.toNat_of_nonpos hle

/-- Giving back the old value and taking up the new one is exact. -/
theorem updateTotal_ok {total : UInt64} {pendingValue : Int64} (which : String)
    (hvalue : positive value ≤ total.toNat)
    (hsum : total.toNat - positive value + positive pendingValue ≤ uint64Max) :
    ∃ total', Manager.updateTotal total value pendingValue which = .ok total' ∧
      total'.toNat = total.toNat - positive value + positive pendingValue := by
  have hreverted : (if value > 0 then total - value.toUInt64 else total).toNat =
      total.toNat - positive value := by
    split_ifs with hpos
    · rw [FixedWidth.toNat_sub_of_le, toNat_toUInt64_of_pos hpos]
      rw [toNat_toUInt64_of_pos hpos]
      exact hvalue
    · rw [positive_of_not_pos hpos, Nat.sub_zero]
  simp only [Manager.updateTotal, ok_iff]
  refine ⟨_, ⟨?_, ?_, rfl⟩, ?_⟩
  · by_cases hpos : value > 0
    · right
      rw [ge_iff_le, UInt64.le_iff_toNat_le, toNat_toUInt64_of_pos hpos]
      exact hvalue
    · exact .inl (Int64.not_lt.mp hpos)
  · by_cases hpos : pendingValue > 0
    · right
      rw [hreverted, toNat_toUInt64_of_pos hpos]
      omega
    · exact .inl (Int64.not_lt.mp hpos)
  · split
    · rename_i hpos
      rw [FixedWidth.toNat_add_of_lt, hreverted, toNat_toUInt64_of_pos hpos]
      rw [hreverted, toNat_toUInt64_of_pos hpos]
      exact Nat.lt_succ_of_le hsum
    · rename_i hneg
      rw [hreverted, positive_of_not_pos hneg, Nat.add_zero]

section Round

variable {r : Manager} {last : Table Name AccountLimits} {owner : Name} {p actual : AccountLimits}

def settle (r : Manager) (owner : Name) (p : AccountLimits) : Table (Bool × Name) AccountLimits :=
  (r.limits.put (false, owner) p).erase (true, owner)

theorem find_settle (k : Bool × Name) : (settle r owner p).find k =
    if k = (true, owner) then none else if k = (false, owner) then some p else r.limits.find k := by
  rw [settle, find_erase, find_put]

theorem total_settle (hp : r.limits.find (true, owner) = some p)
    (hactual : r.limits.find (false, owner) = some actual) (f : Bool × Name → AccountLimits → Nat) :
    (settle r owner p).total f + f (true, owner) p + f (false, owner) actual =
      r.limits.total f + f (false, owner) p := by
  have hfind : (r.limits.put (false, owner) p).find (true, owner) = some p := by
    rw [find_put_ne _ _ (by simp), hp]
  rw [settle, total_erase_add f hfind, total_put_add p f hactual]

structure Looping (r : Manager) (last : Table Name AccountLimits) : Prop where
  rows : Rows r last
  totals : ∀ x : Weight, (x.total r.state).toNat = actualSum r x
  bounded : ∀ x, rowSum r x ≤ uint64Max

theorem Rows.settle (h : Rows r last) (hp : r.limits.find (true, owner) = some p)
    {r' : Manager} (hr' : r'.limits = settle r owner p) : Rows r' last := by
  have hlast := h.pending owner p hp
  constructor
  · intro a
    rw [hr', find_settle, if_neg (by simp)]
    split_ifs with heq
    · cases heq
      simp [hlast]
    · exact h.initialized a
  · intro a l hl
    rw [hr', find_settle] at hl
    split at hl
    · cases hl
    · rw [if_neg (by simp)] at hl
      exact h.pending a l hl
  · intro a hnone
    rw [hr', find_settle, if_neg (by simp)]
    split
    · rename_i heq
      cases heq
      exact hlast.symm
    · rename_i hne
      apply h.settled
      rw [hr', find_settle, if_neg, if_neg (by simp)] at hnone
      · exact hnone
      · intro heq
        exact hne (congrArg (fun k : Bool × Name => (false, k.2)) heq)

/-- One round of the loop: it does not throw, and there is one pending row less. -/
theorem Looping.applyPending (h : Looping r last) (hp : r.limits.find (true, owner) = some p) :
    ∃ r', r.applyPending owner = .ok r' ∧ Looping r' last ∧
      pendingCount r' + 1 = pendingCount r := by
  have hlast := h.rows.pending owner p hp
  obtain ⟨actual, hactual⟩ : ∃ actual, r.limits.find (false, owner) = some actual := by
    cases hrow : r.limits.find (false, owner) with
    | some actual => exact ⟨actual, rfl⟩
    | none =>
      rw [(h.rows.initialized owner).mp hrow] at hlast
      cases hlast
  -- the sums after the round, for each weight
  let r1 : Manager := { r with limits := settle r owner p }
  have hactualSum : ∀ x : Weight, actualSum r1 x + positive (x.value actual) =
      actualSum r x + positive (x.value p) := fun x =>
    total_settle hp hactual fun k l => if k.1 then 0 else positive (x.value l)
  have hrowSum : ∀ x : Weight, rowSum r1 x + positive (x.value actual) = rowSum r x := by
    intro x
    have hsum : rowSum r1 x + positive (x.value p) + positive (x.value actual) =
        rowSum r x + positive (x.value p) :=
      total_settle hp hactual fun _ l => positive (x.value l)
    omega
  have hpendingCount : pendingCount r1 + 1 = pendingCount r :=
    total_settle hp hactual fun k _ => if k.1 then 1 else 0
  have hbounded : ∀ x, rowSum r1 x ≤ uint64Max := fun x =>
    (Nat.le_of_add_right_le (hrowSum x).le).trans (h.bounded x)
  have hround : ∀ (x : Weight) (which : String), ∃ total, Manager.updateTotal (x.total r.state)
      (x.value actual) (x.value p) which = .ok total ∧ total.toNat = actualSum r1 x := by
    intro x which
    have hle : positive (x.value actual) ≤ actualSum r x :=
      le_total (f := fun (k : Bool × Name) l => if k.1 then 0 else positive (x.value l))
        (fun _ _ _ => Nat.zero_le _) hactual
    have hsum : (x.total r.state).toNat - positive (x.value actual) + positive (x.value p) =
        actualSum r1 x := by
      have hsums := hactualSum x
      rw [h.totals x]
      omega
    have hrow := rowSum_eq r1 x
    have hboundedx := hbounded x
    rw [← hsum]
    apply updateTotal_ok
    · rw [h.totals x]
      exact hle
    · omega
  obtain ⟨ram, hram, hramSum⟩ := hround .ram "ram_bytes"
  obtain ⟨cpu, hcpu, hcpuSum⟩ := hround .cpu "cpu_weight"
  obtain ⟨net, hnet, hnetSum⟩ := hround .net "net_weight"
  refine ⟨{ r1 with state := { r.state with
    totalRamBytes := ram
    totalCpuWeight := cpu
    totalNetWeight := net } }, ?_, ⟨h.rows.settle hp rfl, ?_, hbounded⟩, hpendingCount⟩
  · simp only [Manager.applyPending, ok_iff]
    exact ⟨p, hp, actual, hactual, ram, hram, cpu, hcpu, net, hnet, rfl⟩
  · intro x
    cases x with
    | ram => exact hramSum
    | net => exact hnetSum
    | cpu => exact hcpuSum

end Round

/-! ## 4. The loop -/

section Loop

variable {r : Manager} {last : Table Name AccountLimits}

def indexEntry (k : Bool × Name) : Bool ×ₗ Nat := toLex (!k.1, k.2.toNat)

theorem firstPending_eq_some {owner : Name} (h : r.firstPending = some owner) :
    ∃ p, r.limits.find (true, owner) = some p := by
  unfold Manager.firstPending at h
  rw [Option.bind_eq_some_iff] at h
  obtain ⟨⟨b, a⟩, hfirst, hif⟩ := h
  cases b with
  | false => cases hif
  | true =>
    cases hif
    obtain ⟨p, hp, _⟩ := first_eq_some (fun k _ => indexEntry k) _
      (fun k _ => by simp [indexEntry]) hfirst
    exact ⟨p, hp⟩

theorem firstPending_eq_none (h : r.firstPending = none) (a : Name) :
    r.limits.find (true, a) = none := by
  unfold Manager.firstPending at h
  rw [Option.bind_eq_none_iff] at h
  cases hrow : r.limits.find (true, a) with
  | none => rfl
  | some p =>
    cases hfirst : r.limits.first (fun k _ => (toLex (!k.1, k.2.toNat) : Bool ×ₗ Nat))
        (fun i => (!(ofLex i).1, UInt64.ofNat (ofLex i).2)) with
    | none =>
      rw [first_eq_none hfirst] at hrow
      cases hrow
    | some k =>
      have hk := h k hfirst
      obtain ⟨b, owner⟩ := k
      cases b with
      | true => cases hk
      | false =>
        -- a pending row would come first
        obtain ⟨_, _, hleast⟩ := first_eq_some (fun k _ => indexEntry k) _
          (fun k _ => by simp [indexEntry]) hfirst
        have hle := hleast (true, a) p hrow
        rw [indexEntry, indexEntry, Prod.Lex.toLex_le_toLex] at hle
        rcases hle with hlt | ⟨heq, _⟩
        · exact Bool.noConfusion (Bool.lt_iff.mp hlt).1
        · cases heq

theorem Looping.processPending {rounds : Nat} (h : Looping r last)
    (hrounds : pendingCount r ≤ rounds) :
    ∃ r', Manager.processPending rounds r = .ok r' ∧ Looping r' last ∧
      ∀ a, r'.limits.find (true, a) = none := by
  induction rounds generalizing r with
  | zero =>
    have hnone : r.firstPending = none := by
      cases hfirst : r.firstPending with
      | none => rfl
      | some =>
        obtain ⟨p, hp⟩ := firstPending_eq_some hfirst
        obtain ⟨_, _, _, hcount⟩ := h.applyPending hp
        omega
    refine ⟨r, ?_, h, firstPending_eq_none hnone⟩
    simp only [Manager.processPending, ok_iff]
    exact ⟨hnone, trivial⟩
  | succ _ ih =>
    cases hfirst : r.firstPending with
    | none =>
      refine ⟨r, ?_, h, firstPending_eq_none hfirst⟩
      simp only [Manager.processPending, hfirst]
      rfl
    | some =>
      obtain ⟨p, hp⟩ := firstPending_eq_some hfirst
      obtain ⟨r1, happly, hlooping, hcount⟩ := h.applyPending hp
      obtain ⟨r', hrest, hlooping', hnone⟩ := ih hlooping (by omega)
      refine ⟨r', ?_, hlooping', hnone⟩
      simp only [Manager.processPending, hfirst, bind_eq_ok]
      exact ⟨r1, happly, hrest⟩

theorem pendingCount_le_size (r : Manager) : pendingCount r ≤ r.limits.size := by
  apply total_le_total id
  · intro k k' _ _ _ _ _ _ heq
    exact heq
  · intro k l hl _
    refine ⟨l, hl, ?_⟩
    split
    · exact Nat.le_refl 1
    · exact Nat.zero_le 1

end Loop

/-! ## 5. Runs -/

structure Tracked.Inv (w : Tracked) : Prop where
  rows : Rows w.manager w.last
  totals : ∀ x : Weight, (x.total w.manager.state).toNat = actualSum w.manager x
  actual : ∀ x, actualSum w.manager x < 2 ^ 63
  small : ∀ x, w.sum x < 2 ^ 63

namespace Tracked.Inv

variable {w w' : Tracked}

theorem initial : Inv initialTracked where
  rows := ⟨fun _ => by simp [initialTracked, initialManager], fun _ _ h => by
    simp [initialTracked, initialManager] at h, fun _ _ => by simp [initialTracked, initialManager]⟩
  totals := fun x => by cases x <;> rfl
  actual := fun x => by
    show (∅ : Table (Bool × Name) AccountLimits).total _ < _
    rw [total_empty]
    decide
  small := fun x => by
    show (∅ : Table Name AccountLimits).total _ < _
    rw [total_empty]
    decide

theorem process (h : Inv w) :
    ∃ r', w.manager.processAccountLimitUpdates = .ok r' ∧ Inv ⟨r', w.last⟩ ∧
      (∀ a, r'.limits.find (true, a) = none) ∧
      ∀ x : Weight, (x.total r'.state).toNat = w.sum x := by
  have hlooping : Looping w.manager w.last := by
    refine ⟨h.rows, h.totals, fun x => (h.rows.rowSum_le x).trans ?_⟩
    have hactual := h.actual x
    have hsmall := h.small x
    unfold Tracked.sum at hsmall
    unfold uint64Max
    omega
  obtain ⟨r', hok, hlooping', hnone⟩ := hlooping.processPending (pendingCount_le_size w.manager)
  have hsum : ∀ x : Weight, actualSum r' x = w.sum x := hlooping'.rows.actualSum_eq hnone
  refine ⟨r', hok, ⟨hlooping'.rows, hlooping'.totals, fun x => ?_, h.small⟩, hnone, fun x => ?_⟩
  · rw [hsum x]
    exact h.small x
  · rw [hlooping'.totals x, hsum x]

variable {r : Manager}

theorem actualSum_put {k : Bool × Name} {l : AccountLimits} {x : Weight}
    (hzero : (if k.1 then 0 else positive (x.value l)) = 0)
    (hold : k.1 = false → r.limits.find k = none) :
    actualSum { r with limits := r.limits.put k l } x = actualSum r x := by
  have hsum := total_put r.limits k l fun k l => if k.1 then 0 else positive (x.value l)
  have hvalue : r.limits.valueAt (fun k l => if k.1 then 0 else positive (x.value l)) k = 0 := by
    unfold Table.valueAt
    cases hfind : r.limits.find k with
    | none => rfl
    | some =>
      cases hk : k.1 with
      | true => simp [hk]
      | false =>
        rw [hold hk] at hfind
        cases hfind
  rw [hzero, hvalue] at hsum
  exact hsum

variable {account : Name}

theorem initializeAccount (h : Inv w) (hok : w.manager.initializeAccount account = .ok r)
    (hsmall : ∀ x, (⟨r, w.last.put account {}⟩ : Tracked).sum x < 2 ^ 63) :
    Inv ⟨r, w.last.put account {}⟩ := by
  simp only [Manager.initializeAccount, ok_iff] at hok
  obtain ⟨limits, ⟨hfresh, rfl⟩, usage, _, rfl⟩ := hok
  have hlast := (h.rows.initialized account).mp hfresh
  have hsum : ∀ x, actualSum { w.manager with limits := w.manager.limits.put (false, account) {} } x =
      actualSum w.manager x := by
    intro x
    refine actualSum_put ?_ fun _ => hfresh
    cases x <;> rfl
  refine ⟨⟨fun a => ?_, fun a l hl => ?_, fun a hnone => ?_⟩, fun x => ?_, fun x => ?_, hsmall⟩
  · show (w.manager.limits.put (false, account) {}).find (false, a) = none ↔ _
    simp only [find_put, Prod.mk.injEq, true_and]
    by_cases heq : a = account
    · simp [heq]
    · simpa [heq] using h.rows.initialized a
  · rw [find_put_ne _ _ (by simp)] at hl
    have hrow := h.rows.pending a l hl
    rw [find_put_ne]
    · exact hrow
    · rintro rfl
      rw [hlast] at hrow
      cases hrow
  · rw [find_put_ne _ _ (by simp)] at hnone
    show (w.manager.limits.put (false, account) {}).find (false, a) = _
    simp only [find_put, Prod.mk.injEq, true_and]
    by_cases heq : a = account
    · simp [heq]
    · simpa [heq] using h.rows.settled a hnone
  · exact (h.totals x).trans (hsum x).symm
  · exact (hsum x).symm ▸ h.actual x

theorem setAccountLimits (h : Inv w) {ramBytes netWeight cpuWeight : Int64} {decreased : Bool}
    (hok : w.manager.setAccountLimits account ramBytes netWeight cpuWeight = .ok (r, decreased))
    (hsmall : ∀ x, (⟨r, w.last.put account ⟨netWeight, cpuWeight, ramBytes⟩⟩ : Tracked).sum x <
      2 ^ 63) : Inv ⟨r, w.last.put account ⟨netWeight, cpuWeight, ramBytes⟩⟩ := by
  simp only [Manager.setAccountLimits, ok_iff] at hok
  obtain ⟨limits, hlimits, rfl, _⟩ := hok
  have hlast := h.rows.getAccountLimits.mp hlimits
  let limits' := w.manager.limits.put (true, account) ⟨netWeight, cpuWeight, ramBytes⟩
  have hsum : ∀ x, actualSum { w.manager with limits := limits' } x = actualSum w.manager x :=
    fun x => actualSum_put rfl nofun
  refine ⟨⟨fun a => ?_, fun a l hl => ?_, fun a hnone => ?_⟩, fun x => ?_, fun x => ?_, hsmall⟩
  · rw [find_put_ne _ _ (by simp), find_put, h.rows.initialized a]
    by_cases heq : a = account
    · simp [heq, hlast]
    · rw [if_neg heq]
  · simp only [find_put, Prod.mk.injEq, true_and] at hl
    rw [find_put]
    by_cases heq : a = account
    · simpa [heq] using hl
    · rw [if_neg heq]
      exact h.rows.pending a l (by simpa [heq] using hl)
  · simp only [find_put, Prod.mk.injEq, true_and] at hnone
    rw [find_put_ne _ _ (by simp), find_put]
    by_cases heq : a = account
    · simp [heq] at hnone
    · rw [if_neg heq]
      exact h.rows.settled a (by simpa [heq] using hnone)
  · exact (h.totals x).trans (hsum x).symm
  · exact (hsum x).symm ▸ h.actual x

theorem step (h : Inv w) (hstep : LimitStep w w') : Inv w' := by
  obtain ⟨op, hop, hsmall⟩ := hstep
  cases op with
  | initializeAccount =>
    simp only [Tracked.apply, ok_iff] at hop
    obtain ⟨r, hok, rfl⟩ := hop
    exact h.initializeAccount hok hsmall
  | setAccountLimits =>
    simp only [Tracked.apply, ok_iff] at hop
    obtain ⟨⟨r, decreased⟩, hok, rfl⟩ := hop
    exact h.setAccountLimits hok hsmall
  | processAccountLimitUpdates =>
    simp only [Tracked.apply, ok_iff] at hop
    obtain ⟨r, hok, rfl⟩ := hop
    obtain ⟨r', hok', hinv, _⟩ := h.process
    rw [hok] at hok'
    cases hok'
    exact hinv

end Tracked.Inv

def limitStep (w : Tracked) (op : LimitOp) : Checked Tracked := do
  let w' ← w.apply op
  ensure (w'.sum .ram < 2 ^ 63 ∧ w'.sum .net < 2 ^ 63 ∧ w'.sum .cpu < 2 ^ 63) "sum too large"
  pure w'

theorem limitStep_ok (op : LimitOp) (w w' : Tracked) (h : limitStep w op = .ok w') :
    LimitStep w w' := by
  simp only [limitStep, ok_iff] at h
  obtain ⟨w1, hop, ⟨hram, hnet, hcpu⟩, rfl⟩ := h
  refine ⟨op, hop, fun x => ?_⟩
  cases x with
  | ram => exact hram
  | net => exact hnet
  | cpu => exact hcpu

/-- Two accounts, one of which goes from limited to unlimited and back while the other's limits
    are processed. -/
def sampleLimits : List LimitOp :=
  [.initializeAccount 7, .initializeAccount 9, .setAccountLimits 7 4096 10 20,
    .setAccountLimits 9 8192 30 40, .processAccountLimitUpdates, .setAccountLimits 7 (-1) (-1) (-1),
    .processAccountLimitUpdates, .setAccountLimits 7 2048 1 2]

/-- **The totals of the weights.**  In every run whose sums of positive values stay below `2^63`,
    each account has its row and at most a pending one, the limits read are those set last, and
    `process_account_limit_updates` ends without a throw, with no pending row and with the sums
    over the last limits as totals. -/
theorem weight_totals {w : Tracked} (hrun : Steps LimitStep initialTracked w) :
    Rows w.manager w.last ∧
      (∀ a l, w.manager.getAccountLimits a = .ok l ↔ w.last.find a = some l) ∧
      ∃ r', w.manager.processAccountLimitUpdates = .ok r' ∧
        (∀ a, r'.limits.find (true, a) = none) ∧
        ∀ x : Weight, (x.total r'.state).toNat = w.sum x := by
  have hinv : w.Inv := invariant (fun _ _ h hstep => h.step hstep) Tracked.Inv.initial hrun
  obtain ⟨r', hok, _, hnone, htotals⟩ := hinv.process
  exact ⟨hinv.rows, fun a l => hinv.rows.getAccountLimits, r', hok, hnone, htotals⟩

theorem weight_totals_sample :
    ∃ w, Steps LimitStep initialTracked w ∧ w.sum .cpu = 42 ∧
      ∃ r', w.manager.processAccountLimitUpdates = .ok r' ∧ r'.state.totalCpuWeight.toNat = 42 := by
  have hview : (sampleLimits.foldlM limitStep initialTracked).map (fun w => w.sum .cpu) =
      .ok 42 := by
    decide +kernel
  obtain ⟨w, hok, hsum⟩ := exists_of_map_eq_ok hview
  have hrun : Steps LimitStep initialTracked w := steps_of_foldlM (fun op _ => limitStep_ok op) hok
  obtain ⟨_, _, r', hprocess, _, htotals⟩ := weight_totals hrun
  exact ⟨w, hrun, hsum, r', hprocess, (htotals .cpu).trans hsum⟩

end YottaChain.Resources
