/-
  **What the authority checker visits, and what it would find without its cache.**

  A visit of the checker is a level, the levels that are being evaluated above it and the
  number of authorities that may still be entered.  `AllVisits` says something of every
  visit of a walk in the state in which the checker makes it: an authority is left as soon
  as its threshold is reached, and a level that is found in the cache is not entered.

  `evaluate` is the checker without a cache: the keys that a level marks where it is met,
  if it succeeds there.  What the checker finds in its cache comes from another place of
  the same level, and need not be right where it is found.  If no level that is found as
  failed would succeed there, with these keys or with some of them, no visit fails that
  would succeed with them without the cache (`evaluate_eq_none_of_visit`).
-/
import YottaChain.AuthorityChecker

namespace YottaChain.Permissions

variable {K : Type}

/-! ## 1. The cache along the walk -/

instance (p : Provided K) (level : PermissionLevel) : Decidable (p.Gives level) :=
  inferInstanceAs (Decidable (_ ∨ _))

/-- The cache when the walk stands below `path`: these levels are being evaluated, what is
    provided is satisfied, and entries without a permission are provided ones. -/
structure OnPath (p : Provided K) (st : CheckerState K) (path : List PermissionLevel) : Prop where
  evaluating : ∀ l, st.cache.find l = some .beingEvaluated ↔ l ∈ path
  given : ∀ l, p.Gives l → statusInCache st.cache l = some .satisfied
  nameless : ∀ l s, st.cache.find l = some s → l.permission = 0 → s = .satisfied ∧ p.Gives l

section Path

variable {p : Provided K} {st : CheckerState K} {path : List PermissionLevel}
  {l level : PermissionLevel} {s : CacheStatus}

theorem statusInCache_of_find {cache : Table PermissionLevel CacheStatus}
    (h : cache.find l = some s) : statusInCache cache l = some s := by
  rw [statusInCache, h]

section

variable (h : OnPath p st path)

include h

theorem OnPath.status_eq (hgives : ¬ p.Gives l) : statusInCache st.cache l = st.cache.find l := by
  unfold statusInCache
  split
  · rename_i s hfind
    exact hfind.symm
  · rename_i hnone
    rw [hnone]
    cases hfind : st.cache.find ⟨l.actor, 0⟩ with
    | none => rfl
    | some s =>
      have hactor := (h.nameless _ s hfind rfl).2
      exact absurd (.inr (hactor.elim id id)) hgives

theorem OnPath.of_none (hstatus : statusInCache st.cache l = none) : ¬ p.Gives l ∧ l ∉ path := by
  constructor
  · intro hgives
    rw [h.given l hgives] at hstatus
    cases hstatus
  · intro hpath
    rw [statusInCache_of_find ((h.evaluating l).mpr hpath)] at hstatus
    cases hstatus

theorem OnPath.of_beingEvaluated
    (hstatus : statusInCache st.cache l = some .beingEvaluated) : ¬ p.Gives l ∧ l ∈ path := by
  have hgives : ¬ p.Gives l := by
    intro hgives
    rw [h.given l hgives] at hstatus
    cases hstatus
  rw [h.status_eq hgives] at hstatus
  exact ⟨hgives, (h.evaluating l).mp hstatus⟩

theorem OnPath.given_put (hname : level.permission ≠ 0)
    (hgives : ¬ p.Gives level) (s : CacheStatus) (l : PermissionLevel) (hl : p.Gives l) :
    statusInCache (st.cache.put level s) l = some .satisfied := by
  have hne : l ≠ level := by
    rintro rfl
    exact hgives hl
  have hactor : (⟨l.actor, 0⟩ : PermissionLevel) ≠ level := by
    intro heq
    exact hname (congrArg PermissionLevel.permission heq).symm
  have hkept := h.given l hl
  unfold statusInCache at hkept ⊢
  rw [Table.find_put_ne _ _ hne, Table.find_put_ne _ _ hactor]
  exact hkept

theorem OnPath.nameless_put (hname : level.permission ≠ 0) (s : CacheStatus)
    (l : PermissionLevel) (t : CacheStatus) (hfind : (st.cache.put level s).find l = some t)
    (hzero : l.permission = 0) : t = .satisfied ∧ p.Gives l := by
  have hne : l ≠ level := by
    rintro rfl
    exact hname hzero
  rw [Table.find_put_ne _ _ hne] at hfind
  exact h.nameless l t hfind hzero

theorem OnPath.enter (hname : level.permission ≠ 0) (hgives : ¬ p.Gives level) :
    OnPath p { st with cache := st.cache.put level .beingEvaluated } (level :: path) where
  evaluating := by
    intro l
    rw [Table.find_put, List.mem_cons]
    split_ifs with heq
    · exact iff_of_true rfl (.inl heq)
    · rw [h.evaluating, or_iff_right heq]
  given := h.given_put hname hgives _
  nameless := h.nameless_put hname _

end

theorem OnPath.leave (h : OnPath p st (level :: path)) (hname : level.permission ≠ 0)
    (hgives : ¬ p.Gives level) (hpath : level ∉ path) (hs : s ≠ .beingEvaluated) (used : Finset K) :
    OnPath p ⟨st.cache.put level s, used⟩ path where
  evaluating := by
    intro l
    rw [Table.find_put]
    split_ifs with heq
    · subst heq
      exact iff_of_false (fun h => hs (Option.some.inj h)) hpath
    · rw [h.evaluating, List.mem_cons, or_iff_right heq]
  given := h.given_put hname hgives _
  nameless := h.nameless_put hname _

theorem OnPath.used (h : OnPath p st path) (used : Finset K) :
    OnPath p { st with used := used } path :=
  ⟨h.evaluating, h.given, h.nameless⟩

theorem OnPath.start (p : Provided K) (used : Finset K) :
    OnPath p ⟨initializePermissionCache p.permissions, used⟩ [] where
  evaluating := by
    intro l
    rw [find_initializePermissionCache]
    split <;> simp
  given := by
    intro l hgives
    unfold statusInCache
    rw [find_initializePermissionCache, find_initializePermissionCache]
    by_cases hl : l ∈ p.permissions
    · rw [if_pos hl]
    · rw [if_neg hl, if_pos (hgives.resolve_left hl)]
  nameless := by
    intro l s hfind hzero
    rw [find_initializePermissionCache] at hfind
    split at hfind
    · rename_i hl
      cases hfind
      exact ⟨rfl, .inl hl⟩
    · cases hfind

end Path

variable [DecidableEq K]

/-! ## 2. The checker without a cache -/

def factorKeys (p : Provided K) (eval : PermissionLevel → Option (Finset K)) :
    Factor K → Option (Finset K)
  | .wait w => if seconds w.waitSec ≤ p.delay then some ∅ else none
  | .key k => if k.key ∈ p.keys then some {k.key} else none
  | .account a => eval a.permission

def countedWeight (p : Provided K) (eval : PermissionLevel → Option (Finset K)) (f : Factor K) :
    Nat :=
  if (factorKeys p eval f).isSome then f.weight.toNat else 0

def tallyKeys (p : Provided K) (eval : PermissionLevel → Option (Finset K)) (threshold : Nat) :
    List (Factor K) → Nat → Finset K → Option (Finset K)
  | [], _, _ => none
  | f :: fs, total, marks =>
      let total := total + countedWeight p eval f
      let marks := marks ∪ (factorKeys p eval f).getD ∅
      if threshold ≤ total then some marks else tallyKeys p eval threshold fs total marks

/-- The keys that a level marks below `path` with `n` more authorities, if it succeeds. -/
def evaluate (authorityOf : PermissionLevel → Option (Authority K)) (p : Provided K) :
    Nat → List PermissionLevel → PermissionLevel → Option (Finset K)
  | 0, _, level => if p.Gives level then some ∅ else none
  | n + 1, path, level =>
      if p.Gives level then some ∅
      else if level ∈ path then none
      else
        match authorityOf level with
        | none => none
        | some auth =>
            tallyKeys p (evaluate authorityOf p n (level :: path)) auth.threshold.toNat
              auth.factors 0 ∅

variable {authorityOf : PermissionLevel → Option (Authority K)} {p : Provided K} {n : Nat}
  {path : List PermissionLevel} {level : PermissionLevel}

theorem evaluate_of_gives (h : p.Gives level) : evaluate authorityOf p n path level = some ∅ := by
  cases n with
  | zero | succ => rw [evaluate, if_pos h]

theorem evaluate_zero (hgives : ¬ p.Gives level) : evaluate authorityOf p 0 path level = none := by
  rw [evaluate, if_neg hgives]

theorem evaluate_of_path (hgives : ¬ p.Gives level) (hpath : level ∈ path) :
    evaluate authorityOf p n path level = none := by
  cases n with
  | zero => exact evaluate_zero hgives
  | succ => rw [evaluate, if_neg hgives, if_pos hpath]

theorem evaluate_entered (hgives : ¬ p.Gives level) (hpath : level ∉ path) :
    evaluate authorityOf p (n + 1) path level = (authorityOf level).bind fun auth =>
      tallyKeys p (evaluate authorityOf p n (level :: path)) auth.threshold.toNat
        auth.factors 0 ∅ := by
  rw [evaluate, if_neg hgives, if_neg hpath]
  cases authorityOf level <;> rfl

def countedSum (p : Provided K) (eval : PermissionLevel → Option (Finset K))
    (l : List (Factor K)) : Nat :=
  (l.map (countedWeight p eval)).sum

theorem countedSum_cons (eval : PermissionLevel → Option (Finset K)) (f : Factor K)
    (l : List (Factor K)) :
    countedSum p eval (f :: l) = countedWeight p eval f + countedSum p eval l :=
  rfl

variable {eval : PermissionLevel → Option (Finset K)} {threshold total : Nat} {fs : List (Factor K)}
  {marks : Finset K}

/-- The loop succeeds exactly if the factors that count reach the threshold. -/
theorem tallyKeys_isSome_iff (hlt : total < threshold) :
    (tallyKeys p eval threshold fs total marks).isSome = true ↔
      threshold ≤ total + countedSum p eval fs := by
  induction fs generalizing total marks with
  | nil => exact iff_of_false Bool.false_ne_true (Nat.not_le.mpr hlt)
  | cons f fs ih =>
    rw [tallyKeys, countedSum_cons, ← Nat.add_assoc]
    split_ifs with hreach
    · exact iff_of_true rfl (hreach.trans (Nat.le_add_right _ _))
    · exact ih (Nat.lt_of_not_le hreach)

/-! ## 3. Visits -/

def Factor.Visits (good : PermissionLevel → Prop) : Factor K → Prop
  | .account a => good a.permission
  | .key _ => True
  | .wait _ => True

/-- What the loop over the factors visits, each factor in the state in which it is visited. -/
def TallyVisits (p : Provided K)
    (visit : CheckerState K → PermissionLevel → Bool × CheckerState K)
    (good : CheckerState K → PermissionLevel → Prop) (threshold : Nat) :
    List (Factor K) → Nat → CheckerState K → Prop
  | [], _, _ => True
  | f :: fs, total, st =>
      f.Visits (good st) ∧
        (total + (if (visitFactor p visit st f).1 then f.weight.toNat else 0) < threshold →
          TallyVisits p visit good threshold fs
            (total + if (visitFactor p visit st f).1 then f.weight.toNat else 0)
            (visitFactor p visit st f).2)

/-- Every visit of the walk from a level is `good`, the first one included. -/
def AllVisits (authorityOf : PermissionLevel → Option (Authority K)) (p : Provided K)
    (good : Nat → List PermissionLevel → CheckerState K → PermissionLevel → Prop) :
    Nat → List PermissionLevel → CheckerState K → PermissionLevel → Prop
  | 0, path, st, level => good 0 path st level
  | n + 1, path, st, level =>
      good (n + 1) path st level ∧
        (statusInCache st.cache level = none →
          match authorityOf level with
          | none => True
          | some auth =>
              TallyVisits p (visitLevel authorityOf p n)
                (AllVisits authorityOf p good n (level :: path)) auth.threshold.toNat auth.factors 0
                { st with cache := st.cache.put level .beingEvaluated })

variable {visit : CheckerState K → PermissionLevel → Bool × CheckerState K} {st : CheckerState K}
  {good good' : Nat → List PermissionLevel → CheckerState K → PermissionLevel → Prop}
  {auth : Authority K}

theorem AllVisits.first (h : AllVisits authorityOf p good n path st level) :
    good n path st level := by
  cases n with
  | zero => exact h
  | succ => exact h.1

theorem AllVisits.entered (h : AllVisits authorityOf p good (n + 1) path st level)
    (hstatus : statusInCache st.cache level = none) (hauth : authorityOf level = some auth) :
    TallyVisits p (visitLevel authorityOf p n) (AllVisits authorityOf p good n (level :: path))
      auth.threshold.toNat auth.factors 0
      { st with cache := st.cache.put level .beingEvaluated } := by
  have hvisits := h.2 hstatus
  rw [hauth] at hvisits
  exact hvisits

instance (f : Factor K) (good : PermissionLevel → Prop) [∀ l, Decidable (good l)] :
    Decidable (f.Visits good) :=
  match f with
  | .account a => inferInstanceAs (Decidable (good a.permission))
  | .key _ => .isTrue trivial
  | .wait _ => .isTrue trivial

instance decidableTallyVisits (good : CheckerState K → PermissionLevel → Prop)
    [∀ st l, Decidable (good st l)] (threshold : Nat) (fs : List (Factor K)) (total : Nat)
    (st : CheckerState K) : Decidable (TallyVisits p visit good threshold fs total st) :=
  match fs with
  | [] => .isTrue trivial
  | f :: fs =>
      have := decidableTallyVisits good threshold fs
        (total + if (visitFactor p visit st f).1 then f.weight.toNat else 0)
        (visitFactor p visit st f).2
      inferInstanceAs (Decidable (f.Visits (good st) ∧ (_ → _)))

instance decidableAllVisits [∀ n path st l, Decidable (good n path st l)] (n : Nat)
    (path : List PermissionLevel) (st : CheckerState K) (level : PermissionLevel) :
    Decidable (AllVisits authorityOf p good n path st level) :=
  match n with
  | 0 => inferInstanceAs (Decidable (good 0 path st level))
  | n + 1 =>
      have : Decidable (match authorityOf level with
          | none => True
          | some auth =>
              TallyVisits p (visitLevel authorityOf p n)
                (AllVisits authorityOf p good n (level :: path)) auth.threshold.toNat auth.factors 0
                { st with cache := st.cache.put level .beingEvaluated }) :=
        match authorityOf level with
        | none => .isTrue trivial
        | some auth =>
            have := decidableAllVisits n (level :: path)
            decidableTallyVisits _ auth.threshold.toNat auth.factors 0 _
      inferInstanceAs (Decidable (good (n + 1) path st level ∧ (_ → _)))

/-- The levels that are being evaluated are the same after a visit as before it. -/
def KeepsPath (p : Provided K)
    (visit : CheckerState K → PermissionLevel → Bool × CheckerState K) : Prop :=
  ∀ st path level, OnPath p st path → OnPath p (visit st level).2 path

theorem KeepsPath.factor (hvisit : KeepsPath p visit) (h : OnPath p st path) (f : Factor K) :
    OnPath p (visitFactor p visit st f).2 path := by
  cases f with
  | wait => exact h
  | key =>
    rw [visitFactor]
    split
    · exact h.used _
    · exact h
  | account a => exact hvisit st path a.permission h

theorem KeepsPath.satisfiedAuthority (hvisit : KeepsPath p visit) (hauth : auth.Checkable)
    (h : OnPath p st path) :
    OnPath p (satisfiedAuthority p visit auth st).2 path := by
  have hloop := tally_rule (p := p) visit auth.threshold auth.factors 0 st
    (I := fun _ _ st => OnPath p st path) (Q := fun _ st => OnPath p st path)
    (fun f _ _ _ h => ⟨fun _ => hvisit.factor h f, fun _ => hvisit.factor h f⟩) (fun _ _ h => h)
    (by rw [UInt32.toNat_zero, Nat.zero_add]; exact hauth.factorSum_lt) h
  unfold Permissions.satisfiedAuthority
  dsimp only
  split
  · exact hloop
  · exact hloop.used _

theorem visitLevel_keepsPath (hreg : Regular authorityOf) (n : Nat) :
    KeepsPath p (visitLevel authorityOf p n) := by
  induction n with
  | zero =>
    intro st path level h
    exact h
  | succ n ih =>
    intro st path level h
    rw [visitLevel]
    cases hstatus : statusInCache st.cache level with
    | some => exact h
    | none =>
      obtain ⟨hgives, hnot⟩ := h.of_none hstatus
      cases hauth : authorityOf level with
      | none => exact h
      | some auth =>
        have hname := hreg.named level auth hauth
        refine (ih.satisfiedAuthority (hreg.checkable level auth hauth)
          (h.enter hname hgives)).leave hname hgives hnot ?_ _
        split <;> decide

/-- Something follows of every visit if it follows of the first visit of every walk. -/
theorem AllVisits.imp (hreg : Regular authorityOf)
    (himp : ∀ n path st level, OnPath p st path → AllVisits authorityOf p good n path st level →
      good' n path st level) (hpath : OnPath p st path)
    (h : AllVisits authorityOf p good n path st level) :
    AllVisits authorityOf p good' n path st level := by
  induction n generalizing path st level with
  | zero => exact himp 0 path st level hpath h
  | succ n ih =>
    refine ⟨himp _ _ _ _ hpath h, fun hstatus => ?_⟩
    cases hauth : authorityOf level with
    | none => trivial
    | some auth =>
      have henter := hpath.enter (hreg.named level auth hauth) (hpath.of_none hstatus).1
      have hvisits := h.entered hstatus hauth
      have hloop : ∀ (fs : List (Factor K)) total st, OnPath p st (level :: path) →
          TallyVisits p (visitLevel authorityOf p n)
            (AllVisits authorityOf p good n (level :: path)) auth.threshold.toNat fs total st →
          TallyVisits p (visitLevel authorityOf p n)
            (AllVisits authorityOf p good' n (level :: path)) auth.threshold.toNat fs total st := by
        intro fs
        induction fs with
        | nil => exact fun _ _ _ _ => trivial
        | cons f fs ihfs =>
          intro total st hst hvisits
          refine ⟨?_, fun hlt => ihfs _ _ ((visitLevel_keepsPath hreg n).factor hst f)
            (hvisits.2 hlt)⟩
          cases f with
          | account a => exact ih hst hvisits.1
          | key | wait => trivial
      exact hloop _ _ _ henter hvisits

/-! ## 4. Failures that are found in the cache -/

variable {keys : Finset K}

/-- No level that is found as failed would succeed with `keys` where it is found. -/
def FreshFailures (authorityOf : PermissionLevel → Option (Authority K)) (p : Provided K)
    (keys : Finset K) : Nat → List PermissionLevel → CheckerState K → PermissionLevel → Prop :=
  AllVisits authorityOf p fun n path st level => statusInCache st.cache level = some .unsatisfied →
    evaluate authorityOf { p with keys := keys } n path level = none

theorem countedWeight_le {f : Factor K} {r : Bool}
    (h : r = false → factorKeys p eval f = none) :
    countedWeight p eval f ≤ if r then f.weight.toNat else 0 := by
  rw [countedWeight]
  cases r with
  | true =>
    rw [if_pos rfl]
    split
    · exact le_refl _
    · exact Nat.zero_le _
  | false =>
    rw [h rfl]
    exact le_refl _

theorem factorKeys_of_visit (hkeys : keys ⊆ p.keys) {f : Factor K}
    (hvisit : f.Visits fun l => (visit st l).1 = false → eval l = none)
    (h : (visitFactor p visit st f).1 = false) :
    factorKeys { p with keys := keys } eval f = none := by
  cases f with
  | wait => exact if_neg (of_decide_eq_false h)
  | key k =>
    rw [visitFactor] at h
    split at h
    · cases h
    · rename_i hkey
      exact if_neg fun hmem => hkey (hkeys hmem)
  | account => exact hvisit h

/-- An authority that fails does not reach its threshold without the cache either: the weight
    counted covers that of the factors passed that count there. -/
theorem tallyKeys_of_tally (hkeys : keys ⊆ p.keys) (hauth : auth.Checkable)
    (hkeeps : KeepsPath p visit) {fresh : CheckerState K → PermissionLevel → Prop}
    (hvisit : ∀ st l, OnPath p st path → fresh st l → (visit st l).1 = false → eval l = none)
    (hpath : OnPath p st path)
    (hvisits : TallyVisits p visit fresh auth.threshold.toNat auth.factors 0 st)
    (h : (tally p visit auth.threshold auth.factors 0 st).1 = false) :
    tallyKeys { p with keys := keys } eval auth.threshold.toNat auth.factors 0 ∅ = none := by
  let q : Provided K := { p with keys := keys }
  have hloop := tally_rule (p := p) visit auth.threshold auth.factors 0 st
    (I := fun fs total st => total < auth.threshold.toNat ∧ OnPath p st path ∧
      TallyVisits p visit fresh auth.threshold.toNat fs total st ∧
      countedSum q eval auth.factors ≤ total + countedSum q eval fs)
    (Q := fun r _ => r = false → countedSum q eval auth.factors < auth.threshold.toNat) ?_ ?_ ?_ ?_
  · rw [← Option.not_isSome_iff_eq_none, tallyKeys_isSome_iff hauth.threshold_pos, Nat.zero_add]
    exact Nat.not_le.mpr (hloop h)
  · rintro f fs total st ⟨_, hst, ⟨hfirst, hrest⟩, hsum⟩
    refine ⟨fun _ h => absurd h.symm Bool.false_ne_true, fun hlt => ⟨hlt, hkeeps.factor hst f,
      hrest hlt, ?_⟩⟩
    have hweight : countedWeight q eval f ≤
        if (visitFactor p visit st f).1 then f.weight.toNat else 0 := by
      refine countedWeight_le fun hr => factorKeys_of_visit hkeys ?_ hr
      cases f with
      | account a => exact hvisit st a.permission hst hfirst
      | key | wait => trivial
    rw [countedSum_cons] at hsum
    omega
  · rintro total st ⟨hlt, _, _, hsum⟩ _
    exact Nat.lt_of_le_of_lt hsum hlt
  · rw [UInt32.toNat_zero, Nat.zero_add]
    exact hauth.factorSum_lt
  · exact ⟨hauth.threshold_pos, hpath, hvisits, by rw [UInt32.toNat_zero, Nat.zero_add]⟩

/-- A level that is not found in the cache is what its authority is. -/
theorem visitLevel_entered (hstatus : statusInCache st.cache level = none)
    (hauth : authorityOf level = some auth) :
    (visitLevel authorityOf p (n + 1) st level).1 =
        (tally p (visitLevel authorityOf p n) auth.threshold auth.factors 0
          { st with cache := st.cache.put level .beingEvaluated }).1 ∧
      ((visitLevel authorityOf p (n + 1) st level).1 = true →
        (visitLevel authorityOf p (n + 1) st level).2.used =
          (tally p (visitLevel authorityOf p n) auth.threshold auth.factors 0
            { st with cache := st.cache.put level .beingEvaluated }).2.used) := by
  rw [visitLevel]
  simp only [hstatus, hauth, satisfiedAuthority]
  split
  · exact ⟨rfl, fun _ => rfl⟩
  · rename_i hr
    exact ⟨(Bool.eq_false_of_not_eq_true hr).symm, fun h => absurd h Bool.false_ne_true⟩

theorem visitLevel_found {status : CacheStatus} (hstatus : statusInCache st.cache level = some status) :
    visitLevel authorityOf p n st level = (decide (status = .satisfied), st) := by
  cases n with
  | zero =>
    rw [visitLevel, hstatus]
    simp only [Option.some.injEq]
  | succ => rw [visitLevel, hstatus]

/-- **Fresh failures**: a visit that fails would fail without the cache. -/
theorem evaluate_eq_none_of_visit (hreg : Regular authorityOf) (hkeys : keys ⊆ p.keys)
    (hpath : OnPath p st path) (hfresh : FreshFailures authorityOf p keys n path st level)
    (h : (visitLevel authorityOf p n st level).1 = false) :
    evaluate authorityOf { p with keys := keys } n path level = none := by
  induction n generalizing path st level with
  | zero =>
    refine evaluate_zero fun hgives => ?_
    rw [visitLevel, hpath.given level hgives] at h
    cases h
  | succ n ih =>
    cases hstatus : statusInCache st.cache level with
    | some status =>
      rw [visitLevel_found hstatus] at h
      cases status with
      | satisfied => cases h
      | unsatisfied => exact hfresh.first hstatus
      | beingEvaluated =>
        obtain ⟨hgives, hmem⟩ := hpath.of_beingEvaluated hstatus
        exact evaluate_of_path hgives hmem
    | none =>
      obtain ⟨hgives, hnot⟩ := hpath.of_none hstatus
      rw [evaluate_entered (p := { p with keys := keys }) hgives hnot]
      cases hauth : authorityOf level with
      | none => rfl
      | some auth =>
        rw [(visitLevel_entered hstatus hauth).1] at h
        exact tallyKeys_of_tally hkeys (hreg.checkable level auth hauth)
          (visitLevel_keepsPath hreg n) (fun _ _ hst hvisits hr => ih hst hvisits hr)
          (hpath.enter (hreg.named level auth hauth) hgives) (hfresh.entered hstatus hauth) h

end YottaChain.Permissions
