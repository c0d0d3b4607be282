/-
  **The authority checker** (`authority_checker.hpp`) **and what it proves.**

  The checker decides whether keys, permissions and a delay satisfy a permission
  level.  It walks the graph of authorities, which may be cyclic, with a cache of
  what it has found and of what it is evaluating, down to a limited depth.  An
  authority is left as soon as its threshold is reached; the keys it marked as used
  are given back when it is not reached, what it cached is kept.

  `Holds` is the meaning of a satisfied level: the least relation closed under what
  is provided and under authorities whose holding factors reach the threshold.
  Every cached success has such a derivation, so the checker is sound
  (`satisfied_sound`).
-/
import YottaChain.Permissions

namespace YottaChain.Permissions

open List

/-! ## 1. Factors -/

/-- `meta_permission`. -/
inductive Factor (K : Type) where
  | account (p : PermissionLevelWeight)
  | key (k : KeyWeight K)
  | wait (w : WaitWeight)
deriving DecidableEq

variable {K : Type}

def Factor.weight : Factor K → UInt16
  | .account p => p.weight
  | .key k => k.weight
  | .wait w => w.weight

def Factor.which : Factor K → Nat
  | .account _ => 0
  | .key _ => 1
  | .wait _ => 2

/-- `meta_permission_comparator`: heavier factors come first, then waits before keys before
    accounts. -/
def Factor.before (a b : Factor K) : Bool :=
  decide (b.weight < a.weight ∨ b.weight = a.weight ∧ b.which < a.which)

def Authority.entries (auth : Authority K) : List (Factor K) :=
  auth.waits.map .wait ++ auth.keys.map .key ++ auth.accounts.map .account

def Authority.factors (auth : Authority K) : List (Factor K) :=
  auth.entries.insertionSort fun a b => b.before a = false

theorem Authority.factors_perm (auth : Authority K) : auth.factors.Perm auth.entries :=
  perm_insertionSort _ _

def factorSum (l : List (Factor K)) : Nat := weightSum (l.map Factor.weight)

@[simp] theorem factorSum_cons (f : Factor K) (l : List (Factor K)) :
    factorSum (f :: l) = f.weight.toNat + factorSum l := rfl

theorem factorSum_append (l m : List (Factor K)) :
    factorSum (l ++ m) = factorSum l + factorSum m := by
  simp [factorSum, weightSum]

theorem factorSum_perm {l m : List (Factor K)} (h : l.Perm m) : factorSum l = factorSum m :=
  ((h.map _).map _).sum_eq

/-- What `validate` guarantees and what the empty authorities of the chain's own accounts
    have as well. -/
structure Authority.Checkable (auth : Authority K) : Prop where
  threshold : auth.threshold ≠ 0
  size : auth.weights.length ≤ 65536

variable {auth : Authority K}

theorem Authority.Checkable.of_validate [LinearOrder K] (h : validate auth = true) :
    auth.Checkable :=
  ⟨(validate_ok h).1, (validate_ok h).2⟩

theorem Authority.Checkable.threshold_pos (h : auth.Checkable) : 0 < auth.threshold.toNat := by
  rcases Nat.eq_zero_or_pos auth.threshold.toNat with hzero | hpos
  · exact absurd (UInt32.toNat_inj.mp hzero) h.threshold
  · exact hpos

theorem Authority.Checkable.factorSum_lt (h : auth.Checkable) :
    factorSum auth.factors < 2 ^ 32 := by
  rw [factorSum_perm auth.factors_perm]
  refine weightSum_lt ?_
  have hsize := h.size
  simp only [Authority.weights, Authority.entries, length_append, length_map]
    at hsize ⊢
  omega

/-! ## 2. The checker -/

/-- What a transaction brings; the delay is in microseconds. -/
structure Provided (K : Type) where
  keys : Finset K
  permissions : List PermissionLevel
  delay : Int

def seconds (n : UInt32) : Int := (n.toNat : Int) * 1000000

inductive CacheStatus where
  | beingEvaluated
  | unsatisfied
  | satisfied
deriving DecidableEq

structure CheckerState (K : Type) where
  cache : Table PermissionLevel CacheStatus
  used : Finset K

/-- `permission_status_in_cache`: an entry of the actor without a permission counts for all
    its levels. -/
def statusInCache (cache : Table PermissionLevel CacheStatus) (level : PermissionLevel) :
    Option CacheStatus :=
  match cache.find level with
  | some status => some status
  | none => cache.find ⟨level.actor, 0⟩

def initializePermissionCache (permissions : List PermissionLevel) :
    Table PermissionLevel CacheStatus :=
  permissions.foldl (fun cache p => cache.put p .satisfied) ∅

section Checker

variable [DecidableEq K]

/-- The visitor on one factor: whether its weight counts. -/
def visitFactor (p : Provided K)
    (visit : CheckerState K → PermissionLevel → Bool × CheckerState K) (st : CheckerState K) :
    Factor K → Bool × CheckerState K
  | .wait w => (decide (seconds w.waitSec ≤ p.delay), st)
  | .key k =>
      if k.key ∈ p.keys then (true, { st with used := insert k.key st.used }) else (false, st)
  | .account a => visit st a.permission

/-- The loop over the factors: it ends as soon as the threshold is reached. -/
def tally (p : Provided K) (visit : CheckerState K → PermissionLevel → Bool × CheckerState K)
    (threshold : UInt32) : List (Factor K) → UInt32 → CheckerState K → Bool × CheckerState K
  | [], _, st => (false, st)
  | f :: fs, total, st =>
      let out := visitFactor p visit st f
      let total := if out.1 then total + f.weight.toUInt32 else total
      if threshold ≤ total then (true, out.2) else tally p visit threshold fs total out.2

/-- `satisfied(authority, cache, depth)`: keys used in vain are not used. -/
def satisfiedAuthority (p : Provided K)
    (visit : CheckerState K → PermissionLevel → Bool × CheckerState K) (auth : Authority K)
    (st : CheckerState K) : Bool × CheckerState K :=
  let out := tally p visit auth.threshold auth.factors 0 st
  if out.1 then out else (false, { out.2 with used := st.used })

/-- The visitor on a level, with `n` more authorities allowed: `authorityOf` finds no
    authority where `permission_to_authority` throws. -/
def visitLevel (authorityOf : PermissionLevel → Option (Authority K)) (p : Provided K) :
    Nat → CheckerState K → PermissionLevel → Bool × CheckerState K
  | 0, st, level => (decide (statusInCache st.cache level = some .satisfied), st)
  | n + 1, st, level =>
      match statusInCache st.cache level with
      | some status => (decide (status = .satisfied), st)
      | none =>
          match authorityOf level with
          | none => (false, st)
          | some auth =>
              let out := satisfiedAuthority p (visitLevel authorityOf p n) auth
                { st with cache := st.cache.put level .beingEvaluated }
              let status : CacheStatus := if out.1 then .satisfied else .unsatisfied
              (out.1, { out.2 with cache := out.2.cache.put level status })

/-- `satisfied(level)` with a cache of its own: the answer and the keys used from now on. -/
def satisfied (authorityOf : PermissionLevel → Option (Authority K)) (limit : Nat)
    (p : Provided K) (used : Finset K) (level : PermissionLevel) : Bool × Finset K :=
  let out := visitLevel authorityOf p limit ⟨initializePermissionCache p.permissions, used⟩ level
  (out.1, out.2.used)

/-! ## 3. The rule for the loop -/

/-- An invariant of the loop gives what holds when it ends.  The sums do not wrap as long as
    all weights fit. -/
theorem tally_rule {p : Provided K}
    (visit : CheckerState K → PermissionLevel → Bool × CheckerState K) (threshold : UInt32)
    (fs : List (Factor K)) (total : UInt32) (st : CheckerState K)
    {I : List (Factor K) → Nat → CheckerState K → Prop} {Q : Bool → CheckerState K → Prop}
    (hstep : ∀ f fs total st, I (f :: fs) total st →
      (threshold.toNat ≤ total + (if (visitFactor p visit st f).1 then f.weight.toNat else 0) →
        Q true (visitFactor p visit st f).2) ∧
      (total + (if (visitFactor p visit st f).1 then f.weight.toNat else 0) < threshold.toNat →
        I fs (total + if (visitFactor p visit st f).1 then f.weight.toNat else 0)
          (visitFactor p visit st f).2))
    (hend : ∀ total st, I [] total st → Q false st)
    (hsize : total.toNat + factorSum fs < 2 ^ 32) (h : I fs total.toNat st) :
    Q (tally p visit threshold fs total st).1 (tally p visit threshold fs total st).2 := by
  induction fs generalizing total st with
  | nil => exact hend _ _ h
  | cons f fs ih =>
    rw [factorSum_cons] at hsize
    obtain ⟨hreach, hgo⟩ := hstep f fs _ st h
    have htotal : (if (visitFactor p visit st f).1 then total + f.weight.toUInt32 else total).toNat =
        total.toNat + if (visitFactor p visit st f).1 then f.weight.toNat else 0 := by
      split
      · rw [UInt32.toNat_add, UInt16.toNat_toUInt32]
        exact Nat.mod_eq_of_lt (by omega)
      · rfl
    rw [← htotal] at hreach hgo
    rw [tally]
    by_cases hle : threshold ≤ if (visitFactor p visit st f).1 then total + f.weight.toUInt32
        else total
    · rw [if_pos hle]
      exact hreach (UInt32.le_iff_toNat_le.mp hle)
    · rw [if_neg hle]
      refine ih _ _ ?_ (hgo ?_)
      · rw [htotal]
        split <;> omega
      · rw [UInt32.le_iff_toNat_le] at hle
        exact Nat.lt_of_not_le hle

end Checker

/-! ## 4. What a satisfied level means -/

def Provided.Gives (p : Provided K) (level : PermissionLevel) : Prop :=
  level ∈ p.permissions ∨ (⟨level.actor, 0⟩ : PermissionLevel) ∈ p.permissions

/-- **A level holds** if it is provided, or if factors of its authority that hold reach the
    threshold.  The factors are chosen each at most once. -/
inductive Holds (authorityOf : PermissionLevel → Option (Authority K)) (p : Provided K) :
    PermissionLevel → Prop where
  | provided {level : PermissionLevel} : p.Gives level → Holds authorityOf p level
  | authority {level : PermissionLevel} {auth : Authority K} (chosen : List (Factor K)) :
      authorityOf level = some auth → chosen.Subperm auth.entries →
      (∀ w, .wait w ∈ chosen → seconds w.waitSec ≤ p.delay) →
      (∀ k, .key k ∈ chosen → k.key ∈ p.keys) →
      (∀ a, .account a ∈ chosen → Holds authorityOf p a.permission) →
      auth.threshold.toNat ≤ factorSum chosen → Holds authorityOf p level

/-- What `get_permission` guarantees of the authorities it returns: no level with an empty
    name has one. -/
structure Regular (authorityOf : PermissionLevel → Option (Authority K)) : Prop where
  named : ∀ level auth, authorityOf level = some auth → level.permission ≠ 0
  checkable : ∀ level auth, authorityOf level = some auth → auth.Checkable

section Soundness

variable [DecidableEq K] {authorityOf : PermissionLevel → Option (Authority K)} {p : Provided K}

def FactorHolds (authorityOf : PermissionLevel → Option (Authority K)) (p : Provided K) :
    Factor K → Prop
  | .wait w => seconds w.waitSec ≤ p.delay
  | .key k => k.key ∈ p.keys
  | .account a => Holds authorityOf p a.permission

/-- Every cached success has a derivation; an entry without a permission is a provided one. -/
def CheckerState.Sound (authorityOf : PermissionLevel → Option (Authority K)) (p : Provided K)
    (st : CheckerState K) : Prop :=
  ∀ level, st.cache.find level = some .satisfied →
    Holds authorityOf p level ∧ (level.permission = 0 → level ∈ p.permissions)

variable {st : CheckerState K} {level : PermissionLevel}

omit [DecidableEq K] in
theorem CheckerState.Sound.status (h : st.Sound authorityOf p)
    (hstatus : statusInCache st.cache level = some .satisfied) : Holds authorityOf p level := by
  unfold statusInCache at hstatus
  split at hstatus
  · rename_i status hfind
    rw [hstatus] at hfind
    exact (h level hfind).1
  · exact .provided (.inr ((h _ hstatus).2 rfl))

omit [DecidableEq K] in

/-- An entry that is not a success, or one that holds, can be written. -/
theorem CheckerState.Sound.put (h : st.Sound authorityOf p) (hname : level.permission ≠ 0)
    {status : CacheStatus} (hstatus : status = .satisfied → Holds authorityOf p level)
    (used : Finset K) : CheckerState.Sound authorityOf p ⟨st.cache.put level status, used⟩ := by
  intro l hput
  have hfind := (Table.find_put st.cache level l status).symm.trans hput
  split_ifs at hfind with heq
  · subst heq
    exact ⟨hstatus (Option.some.inj hfind), fun hzero => absurd hzero hname⟩
  · exact h l hfind

/-- A visitor of levels that is right when it says yes and keeps the cache sound. -/
def SoundVisit (authorityOf : PermissionLevel → Option (Authority K)) (p : Provided K)
    (visit : CheckerState K → PermissionLevel → Bool × CheckerState K) : Prop :=
  ∀ st level, st.Sound authorityOf p → (visit st level).2.Sound authorityOf p ∧
    ((visit st level).1 = true → Holds authorityOf p level)

variable {visit : CheckerState K → PermissionLevel → Bool × CheckerState K}

theorem SoundVisit.factor (hvisit : SoundVisit authorityOf p visit) (hst : st.Sound authorityOf p)
    (f : Factor K) :
    (visitFactor p visit st f).2.Sound authorityOf p ∧
      ((visitFactor p visit st f).1 = true → FactorHolds authorityOf p f) := by
  cases f with
  | wait => exact ⟨hst, of_decide_eq_true⟩
  | key =>
    rw [visitFactor]
    split
    · rename_i hkey
      exact ⟨hst, fun _ => hkey⟩
    · exact ⟨hst, fun h => absurd h Bool.false_ne_true⟩
  | account a => exact hvisit st a.permission hst

/-- An authority found satisfied has factors that hold and reach the threshold. -/
theorem SoundVisit.satisfiedAuthority (hvisit : SoundVisit authorityOf p visit) {auth : Authority K}
    (hauth : auth.Checkable) (hst : st.Sound authorityOf p) :
    (satisfiedAuthority p visit auth st).2.Sound authorityOf p ∧
      ((satisfiedAuthority p visit auth st).1 = true → ∃ chosen : List (Factor K),
        chosen.Subperm auth.entries ∧ (∀ f ∈ chosen, FactorHolds authorityOf p f) ∧
          auth.threshold.toNat ≤ factorSum chosen) := by
  -- the invariant: the factors counted so far are among those passed
  have hloop := tally_rule (p := p) visit auth.threshold auth.factors 0 st
    (I := fun fs total st => st.Sound authorityOf p ∧ ∃ passed chosen : List (Factor K),
      auth.factors = passed ++ fs ∧ chosen.Sublist passed ∧
        (∀ f ∈ chosen, FactorHolds authorityOf p f) ∧ factorSum chosen = total)
    (Q := fun r st => st.Sound authorityOf p ∧ (r = true → ∃ chosen : List (Factor K),
      chosen.Sublist auth.factors ∧ (∀ f ∈ chosen, FactorHolds authorityOf p f) ∧
        auth.threshold.toNat ≤ factorSum chosen)) ?_ ?_ ?_ ?_
  · obtain ⟨hsound, hreach⟩ := hloop
    unfold Permissions.satisfiedAuthority
    dsimp only
    split
    · rename_i hr
      obtain ⟨chosen, hsub, hrest⟩ := hreach hr
      exact ⟨hsound, fun _ => ⟨chosen, hsub.subperm.trans auth.factors_perm.subperm, hrest⟩⟩
    · exact ⟨hsound, fun h => absurd h Bool.false_ne_true⟩
  · rintro f fs total st ⟨hst, passed, chosen, hfactors, hsub, hholds, hsum⟩
    obtain ⟨hst', hfactor⟩ := hvisit.factor hst f
    have hnext : ∃ chosen' : List (Factor K), chosen'.Sublist (passed ++ [f]) ∧
        (∀ f ∈ chosen', FactorHolds authorityOf p f) ∧ factorSum chosen' =
          total + if (visitFactor p visit st f).1 then f.weight.toNat else 0 := by
      split_ifs with hr
      · refine ⟨chosen ++ [f], hsub.append (Sublist.refl _), ?_, ?_⟩
        · exact forall_mem_append.mpr ⟨hholds, forall_mem_singleton.mpr (hfactor hr)⟩
        · rw [factorSum_append, hsum]
          rfl
      · exact ⟨chosen, hsub.trans (sublist_append_left _ _), hholds, hsum⟩
    obtain ⟨chosen', hsub', hholds', hsum'⟩ := hnext
    have hfactors' : auth.factors = (passed ++ [f]) ++ fs := by
      rw [hfactors, append_assoc]
      rfl
    refine ⟨fun hle => ⟨hst', fun _ => ⟨chosen', ?_, hholds', ?_⟩⟩, fun _ => ?_⟩
    · rw [hfactors']
      exact hsub'.trans (sublist_append_left _ _)
    · rw [hsum']
      exact hle
    · exact ⟨hst', passed ++ [f], chosen', hfactors', hsub', hholds', hsum'⟩
  · rintro total st ⟨hst, _⟩
    exact ⟨hst, fun h => absurd h Bool.false_ne_true⟩
  · rw [UInt32.toNat_zero, Nat.zero_add]
    exact hauth.factorSum_lt
  · exact ⟨hst, [], [], rfl, Sublist.refl _, by simp, rfl⟩

/-- The visitor of levels is sound at every depth. -/
theorem visitLevel_sound (hreg : Regular authorityOf) (n : Nat) :
    SoundVisit authorityOf p (visitLevel authorityOf p n) := by
  induction n with
  | zero =>
    intro st level hst
    exact ⟨hst, fun h => hst.status (of_decide_eq_true h)⟩
  | succ n ih =>
    intro st level hst
    rw [visitLevel]
    split
    · rename_i status hstatus
      refine ⟨hst, fun h => hst.status ?_⟩
      rw [hstatus, of_decide_eq_true h]
    · split
      · exact ⟨hst, fun h => absurd h Bool.false_ne_true⟩
      · rename_i auth hauth
        have hname := hreg.named level auth hauth
        have hentered : CheckerState.Sound authorityOf p
            { st with cache := st.cache.put level .beingEvaluated } :=
          hst.put hname (fun h => absurd h (by decide)) _
        obtain ⟨hsound, hreach⟩ :=
          SoundVisit.satisfiedAuthority ih (hreg.checkable level auth hauth) hentered
        have hlevel : (satisfiedAuthority p (visitLevel authorityOf p n) auth
            { st with cache := st.cache.put level .beingEvaluated }).1 = true →
            Holds authorityOf p level := by
          intro hr
          obtain ⟨chosen, hsub, hholds, hle⟩ := hreach hr
          exact .authority chosen hauth hsub (fun _ hw => hholds _ hw) (fun _ hk => hholds _ hk)
            (fun _ ha => hholds _ ha) hle
        refine ⟨hsound.put hname (fun h => ?_) _, hlevel⟩
        split at h
        · rename_i hr
          exact hlevel hr
        · cases h

omit [DecidableEq K] in
theorem find_initializePermissionCache (permissions : List PermissionLevel)
    (level : PermissionLevel) : (initializePermissionCache permissions).find level =
      if level ∈ permissions then some .satisfied else none := by
  have hgen : ∀ (ps : List PermissionLevel) (cache : Table PermissionLevel CacheStatus),
      (ps.foldl (fun cache p => cache.put p .satisfied) cache).find level =
        if level ∈ ps then some .satisfied else cache.find level := by
    intro ps
    induction ps with
    | nil =>
      intro cache
      simp
    | cons q ps ih =>
      intro cache
      rw [foldl_cons, ih, Table.find_put]
      by_cases hps : level ∈ ps
      · simp [hps]
      · by_cases hq : level = q
        · simp [hq]
        · simp [hps, hq]
  rw [initializePermissionCache, hgen, Table.find_empty]

/-- **The checker is sound**: a level it finds satisfied holds. -/
theorem satisfied_sound (hreg : Regular authorityOf) {limit : Nat} {used : Finset K}
    (h : (satisfied authorityOf limit p used level).1 = true) : Holds authorityOf p level := by
  refine (visitLevel_sound hreg limit _ level ?_).2 h
  intro l hcache
  have hfind := (find_initializePermissionCache p.permissions l).symm.trans hcache
  split at hfind
  · rename_i hmem
    exact ⟨.provided (.inl hmem), fun _ => hmem⟩
  · cases hfind

end Soundness

end YottaChain.Permissions
