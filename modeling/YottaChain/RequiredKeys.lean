/-
  **When the keys that `get_required_keys` returns are enough.**

  The keys returned are those that the checker has marked at the end.  Marks made below
  an authority that fails are given back, but a level that succeeded there stays cached
  as satisfied, and when it is met again it counts without marking its keys.  The keys
  returned may then be too few (`given_back_marks_are_missing`).

  What a call reads in its caches is compared with the checker without a cache.  A call
  `Collects` its keys if the levels that it finds as satisfied follow there from the keys
  returned, and those that it finds as failed do not.  The second call, with these as
  candidates, `Reproduces` them if every level that it finds as satisfied has its keys
  marked, and every level that it finds as failed fails.  Both say no more than that the
  calls are right at each visit (`collects_iff`, `reproduces_iff`), and then the second
  call returns what the first did (`required_keys_suffice`).
-/
import YottaChain.AuthorizationGate
import YottaChain.CheckerVisits

namespace YottaChain.Permissions

open Checked

variable {K : Type} [DecidableEq K]

/-! ## 1. `get_required_keys` -/

section Evaluation

variable {authorityOf : PermissionLevel → Option (Authority K)} {p : Provided K} {keys : Finset K}
  {n : Nat} {path : List PermissionLevel} {level : PermissionLevel}
  {eval : PermissionLevel → Option (Finset K)} {threshold total : Nat} {fs : List (Factor K)}
  {marks m : Finset K}

/-- What a visit does to the marks: there are more of them, of provided keys only, and none
    more if it fails. -/
structure Marking (p : Provided K) (used : Finset K) (out : Bool × CheckerState K) : Prop where
  grows : used ⊆ out.2.used
  bounded : used ⊆ p.keys → out.2.used ⊆ p.keys
  givenBack : out.1 = false → out.2.used = used

variable {visit : CheckerState K → PermissionLevel → Bool × CheckerState K} {st : CheckerState K}

theorem Marking.factor (hvisit : ∀ st l, Marking p st.used (visit st l)) (st : CheckerState K)
    (f : Factor K) : Marking p st.used (visitFactor p visit st f) := by
  cases f with
  | wait => exact ⟨subset_refl _, id, fun _ => rfl⟩
  | key k =>
    rw [visitFactor]
    split_ifs with hk
    · exact ⟨Finset.subset_insert _ _, Finset.insert_subset hk, fun h => absurd h.symm
        Bool.false_ne_true⟩
    · exact ⟨subset_refl _, id, fun _ => rfl⟩
  | account a => exact hvisit st a.permission

theorem Marking.satisfiedAuthority (hvisit : ∀ st l, Marking p st.used (visit st l))
    {auth : Authority K} (hauth : auth.Checkable) (st : CheckerState K) :
    Marking p st.used (satisfiedAuthority p visit auth st) := by
  have hloop := tally_rule (p := p) visit auth.threshold auth.factors 0 st
    (I := fun _ _ st' => st.used ⊆ st'.used ∧ (st.used ⊆ p.keys → st'.used ⊆ p.keys))
    (Q := fun _ st' => st.used ⊆ st'.used ∧ (st.used ⊆ p.keys → st'.used ⊆ p.keys)) ?_
    (fun _ _ h => h) ?_ ⟨subset_refl _, id⟩
  · unfold Permissions.satisfiedAuthority
    dsimp only
    split_ifs with hr
    · exact ⟨hloop.1, hloop.2, fun h => absurd (hr.symm.trans h).symm Bool.false_ne_true⟩
    · exact ⟨subset_refl _, id, fun _ => rfl⟩
  · rintro f _ _ st' ⟨hgrows, hbounded⟩
    have hf := Marking.factor hvisit st' f
    have hstep := And.intro (hgrows.trans hf.grows) fun h => hf.bounded (hbounded h)
    exact ⟨fun _ => hstep, fun _ => hstep⟩
  · rw [UInt32.toNat_zero, Nat.zero_add]
    exact hauth.factorSum_lt

theorem visitLevel_marking (hreg : Regular authorityOf) (n : Nat) (st : CheckerState K)
    (level : PermissionLevel) : Marking p st.used (visitLevel authorityOf p n st level) := by
  induction n generalizing st level with
  | zero => exact ⟨subset_refl _, id, fun _ => rfl⟩
  | succ n ih =>
    rw [visitLevel]
    cases hstatus : statusInCache st.cache level with
    | some => exact ⟨subset_refl _, id, fun _ => rfl⟩
    | none =>
      cases hauth : authorityOf level with
      | none => exact ⟨subset_refl _, id, fun _ => rfl⟩
      | some auth =>
        have h := Marking.satisfiedAuthority (p := p) ih (hreg.checkable level auth hauth)
          { st with cache := st.cache.put level .beingEvaluated }
        exact ⟨h.grows, h.bounded, h.givenBack⟩

/-! ## 3. The marks without a cache -/

/-- How the marks of the walk with the keys of `p` compare with those that `keys` give without
    a cache: `le` says how, for marks that are `ok`. -/
structure MarkRule (p : Provided K) (keys : Finset K) (ok : Finset K → Prop)
    (le : Finset K → Finset K → Prop) : Prop where
  of_subset : ∀ {a b}, a ⊆ b → ok b → ok a
  key : ∀ {k a}, k ∈ p.keys → ok (insert k a) → k ∈ keys
  refl : ∀ a, le a a
  trans : ∀ {a b c}, le a b → le b c → le a c
  union : ∀ {a b} c, le a b → le (a ∪ c) (b ∪ c)

/-- A visit that succeeds with marks that are `ok` makes these marks. -/
def MarksAs (ok : Finset K → Prop) (le : Finset K → Finset K → Prop) (used : Finset K)
    (out : Bool × CheckerState K) (marks : Option (Finset K)) : Prop :=
  out.1 = true → ok out.2.used → ∃ m, marks = some m ∧ le out.2.used (used ∪ m)

variable {ok : Finset K → Prop} {le : Finset K → Finset K → Prop}

theorem MarkRule.factor (hrule : MarkRule p keys ok le) {f : Factor K}
    (hvisit : f.Visits fun l => MarksAs ok le st.used (visit st l) (eval l)) :
    MarksAs ok le st.used (visitFactor p visit st f)
      (factorKeys { p with keys := keys } eval f) := by
  intro hr hok
  cases f with
  | wait =>
    refine ⟨∅, if_pos (of_decide_eq_true hr), ?_⟩
    rw [Finset.union_empty]
    exact hrule.refl _
  | key k =>
    rw [visitFactor] at hr hok ⊢
    split at hr
    · rename_i hk
      rw [if_pos hk] at hok ⊢
      refine ⟨{k.key}, if_pos (hrule.key hk hok), ?_⟩
      rw [Finset.union_comm, ← Finset.insert_eq]
      exact hrule.refl _
    · cases hr
  | account => exact hvisit hr hok

/-- The loop with and the loop without the cache run side by side: what counts in one counts
    in the other. -/
theorem MarkRule.tally (hrule : MarkRule p keys ok le) (hkeys : keys ⊆ p.keys)
    {auth : Authority K} (hauth : auth.Checkable) (hkeeps : KeepsPath p visit)
    (hmarking : ∀ st l, Marking p st.used (visit st l))
    {fresh : CheckerState K → PermissionLevel → Prop}
    (hvisit : ∀ st l, OnPath p st path → fresh st l →
      MarksAs ok le st.used (visit st l) (eval l) ∧ ((visit st l).1 = false → eval l = none))
    (hpath : OnPath p st path)
    (hvisits : TallyVisits p visit fresh auth.threshold.toNat auth.factors 0 st) :
    MarksAs ok le st.used (tally p visit auth.threshold auth.factors 0 st)
      (tallyKeys { p with keys := keys } eval auth.threshold.toNat auth.factors 0 ∅) := by
  let go (fs : List (Factor K)) (total : Nat) (marks : Finset K) : Option (Finset K) :=
    tallyKeys { p with keys := keys } eval auth.threshold.toNat fs total marks
  have hloop := tally_rule (p := p) visit auth.threshold auth.factors 0 st
    (I := fun fs total st' => OnPath p st' path ∧
      TallyVisits p visit fresh auth.threshold.toNat fs total st' ∧
      (ok st'.used → ∃ marks, go auth.factors 0 ∅ = go fs total marks ∧
        le st'.used (st.used ∪ marks)))
    (Q := fun r st' => MarksAs ok le st.used (r, st') (go auth.factors 0 ∅)) ?_ ?_ ?_ ?_
  · exact hloop
  · rintro f fs total st' ⟨hst, ⟨hfirst, hgo⟩, hmarks⟩
    have hfactor : MarksAs ok le st'.used (visitFactor p visit st' f)
        (factorKeys { p with keys := keys } eval f) := by
      refine hrule.factor ?_
      cases f with
      | account a => exact (hvisit st' a.permission hst hfirst).1
      | key | wait => trivial
    have hfails : (visitFactor p visit st' f).1 = false →
        factorKeys { p with keys := keys } eval f = none := by
      refine factorKeys_of_visit hkeys ?_
      cases f with
      | account a => exact (hvisit st' a.permission hst hfirst).2
      | key | wait => trivial
    have hmarking' := Marking.factor hmarking st' f
    -- one step of both loops
    have hstep : ok (visitFactor p visit st' f).2.used → ∃ marks marks', marks' =
        marks ∪ (factorKeys { p with keys := keys } eval f).getD ∅ ∧
        go auth.factors 0 ∅ = go (f :: fs) total marks ∧
        countedWeight { p with keys := keys } eval f =
          (if (visitFactor p visit st' f).1 then f.weight.toNat else 0) ∧
        le (visitFactor p visit st' f).2.used (st.used ∪ marks') := by
      intro hok
      obtain ⟨marks, hrun, hle⟩ := hmarks (hrule.of_subset hmarking'.grows hok)
      refine ⟨marks, _, rfl, hrun, ?_⟩
      cases hr : (visitFactor p visit st' f).1 with
      | false =>
        rw [countedWeight, hfails hr, hmarking'.givenBack hr]
        exact ⟨rfl, by simpa using hle⟩
      | true =>
        obtain ⟨m, hm, hused⟩ := hfactor hr hok
        rw [countedWeight, hm]
        refine ⟨rfl, hrule.trans hused ?_⟩
        rw [Option.getD_some, ← Finset.union_assoc]
        exact hrule.union m hle
    refine ⟨fun hreach _ hok => ?_, fun hlt => ⟨hkeeps.factor hst f, hgo hlt, fun hok => ?_⟩⟩
    · obtain ⟨marks, marks', hmarks', hrun, hweight, hle⟩ := hstep hok
      refine ⟨marks', hrun.trans ?_, hle⟩
      simp only [go, tallyKeys]
      rw [hweight, if_pos hreach, hmarks']
    · obtain ⟨marks, marks', hmarks', hrun, hweight, hle⟩ := hstep hok
      refine ⟨marks', hrun.trans ?_, hle⟩
      simp only [go]
      rw [tallyKeys]
      simp only [hweight]
      rw [if_neg (Nat.not_le.mpr hlt), hmarks']
  · exact fun _ _ _ h => absurd h Bool.false_ne_true
  · rw [UInt32.toNat_zero, Nat.zero_add]
    exact hauth.factorSum_lt
  · refine ⟨hpath, hvisits, fun _ => ⟨∅, rfl, ?_⟩⟩
    rw [Finset.union_empty]
    exact hrule.refl _

/-- What is found in the cache has the marks that it makes without a cache. -/
def FreshMarks (authorityOf : PermissionLevel → Option (Authority K)) (p : Provided K)
    (keys : Finset K) (ok : Finset K → Prop) (le : Finset K → Finset K → Prop) :
    Nat → List PermissionLevel → CheckerState K → PermissionLevel → Prop :=
  AllVisits authorityOf p fun n path st level =>
    (statusInCache st.cache level = some .satisfied → ok st.used → ∃ m,
      evaluate authorityOf { p with keys := keys } n path level = some m ∧
        le st.used (st.used ∪ m)) ∧
    (statusInCache st.cache level = some .unsatisfied →
      evaluate authorityOf { p with keys := keys } n path level = none)

theorem FreshMarks.made (hreg : Regular authorityOf) (hkeys : keys ⊆ p.keys)
    (hrule : MarkRule p keys ok le) (hpath : OnPath p st path)
    (h : FreshMarks authorityOf p keys ok le n path st level) :
    MarksAs ok le st.used (visitLevel authorityOf p n st level)
        (evaluate authorityOf { p with keys := keys } n path level) ∧
      ((visitLevel authorityOf p n st level).1 = false →
        evaluate authorityOf { p with keys := keys } n path level = none) := by
  refine ⟨?_, evaluate_eq_none_of_visit hreg hkeys hpath
    (AllVisits.imp hreg (fun _ _ _ _ _ hvisits => hvisits.first.2) hpath h)⟩
  induction n generalizing path st level with
  | zero => exact fun hr hok => h.first.1 (of_decide_eq_true hr) hok
  | succ n ih =>
    intro hr hok
    cases hstatus : statusInCache st.cache level with
    | some status =>
      rw [visitLevel_found hstatus] at hr hok ⊢
      rw [of_decide_eq_true hr] at hstatus
      exact h.first.1 hstatus hok
    | none =>
      obtain ⟨hgives, hnot⟩ := hpath.of_none hstatus
      cases hauth : authorityOf level with
      | none =>
        rw [visitLevel] at hr
        simp only [hstatus, hauth] at hr
        cases hr
      | some auth =>
        obtain ⟨hanswer, hused⟩ := visitLevel_entered (p := p) (n := n) hstatus hauth
        rw [hused hr] at hok ⊢
        rw [hanswer] at hr
        rw [evaluate_entered (p := { p with keys := keys }) hgives hnot, hauth, Option.bind_some]
        refine hrule.tally hkeys (hreg.checkable level auth hauth) (visitLevel_keepsPath hreg n)
          (visitLevel_marking hreg n) (fun st l hst hvisits => ⟨ih hst hvisits, ?_⟩)
          (hpath.enter (hreg.named level auth hauth) hgives) (h.entered hstatus hauth) hr hok
        exact evaluate_eq_none_of_visit hreg hkeys hst
          (AllVisits.imp hreg (fun _ _ _ _ _ hvisits => hvisits.first.2) hst hvisits)

/-! ## 4. The first call -/

/-- A level that is found as satisfied while only `keys` are marked follows there from `keys`;
    one that is found as failed does not. -/
def Collects (authorityOf : PermissionLevel → Option (Authority K)) (p : Provided K)
    (keys : Finset K) : Nat → List PermissionLevel → CheckerState K → PermissionLevel → Prop :=
  AllVisits authorityOf p fun n path st level =>
    (statusInCache st.cache level = some .satisfied → st.used ⊆ keys →
      (evaluate authorityOf { p with keys := keys } n path level).isSome = true) ∧
    (statusInCache st.cache level = some .unsatisfied →
      evaluate authorityOf { p with keys := keys } n path level = none)

theorem Collects.made (hreg : Regular authorityOf) (hkeys : keys ⊆ p.keys)
    (hpath : OnPath p st path) (h : Collects authorityOf p keys n path st level) :
    MarksAs (· ⊆ keys) (· ⊆ ·) st.used (visitLevel authorityOf p n st level)
        (evaluate authorityOf { p with keys := keys } n path level) ∧
      ((visitLevel authorityOf p n st level).1 = false →
        evaluate authorityOf { p with keys := keys } n path level = none) := by
  have hrule : MarkRule p keys (· ⊆ keys) (· ⊆ ·) :=
    ⟨fun h h' => h.trans h', fun _ h => h (Finset.mem_insert_self _ _), subset_refl,
      fun h h' => h.trans h', fun c h => Finset.union_subset_union_left h⟩
  refine FreshMarks.made hreg hkeys hrule hpath ?_
  refine AllVisits.imp hreg (fun n path st level _ hvisits => ?_) hpath h
  refine ⟨fun hstatus hsub => ?_, hvisits.first.2⟩
  obtain ⟨m, hm⟩ := Option.isSome_iff_exists.mp (hvisits.first.1 hstatus hsub)
  exact ⟨m, hm, Finset.subset_union_left⟩

/-- A level that is found as satisfied marks there only keys that are marked; one that is found
    as failed fails. -/
def Reproduces (authorityOf : PermissionLevel → Option (Authority K)) (p : Provided K) :
    Nat → List PermissionLevel → CheckerState K → PermissionLevel → Prop :=
  AllVisits authorityOf p fun n path st level =>
    (statusInCache st.cache level = some .satisfied →
      ∃ m ∈ evaluate authorityOf p n path level, m ⊆ st.used) ∧
    (statusInCache st.cache level = some .unsatisfied → evaluate authorityOf p n path level = none)

theorem Reproduces.made (hreg : Regular authorityOf) (hpath : OnPath p st path)
    (h : Reproduces authorityOf p n path st level) :
    (visitLevel authorityOf p n st level).1 = (evaluate authorityOf p n path level).isSome ∧
      (visitLevel authorityOf p n st level).2.used =
        st.used ∪ (evaluate authorityOf p n path level).getD ∅ := by
  have hrule : MarkRule p p.keys (fun _ => True) Eq :=
    ⟨fun _ _ => trivial, fun hk _ => hk, fun _ => rfl, Eq.trans, fun _ h => by rw [h]⟩
  have hmarks : FreshMarks authorityOf p p.keys (fun _ => True) Eq n path st level := by
    refine AllVisits.imp hreg (fun n path st level _ hvisits => ?_) hpath h
    refine ⟨fun hstatus _ => ?_, hvisits.first.2⟩
    obtain ⟨m, hm, hused⟩ := hvisits.first.1 hstatus
    exact ⟨m, hm, (Finset.union_eq_left.mpr hused).symm⟩
  obtain ⟨hmark, hfail⟩ := hmarks.made hreg (subset_refl _) hrule hpath
  cases hr : (visitLevel authorityOf p n st level).1 with
  | false =>
    rw [hfail hr, (visitLevel_marking hreg n st level).givenBack hr]
    exact ⟨rfl, (Finset.union_empty _).symm⟩
  | true =>
    obtain ⟨m, hm, hused⟩ := hmark hr trivial
    rw [hm]
    exact ⟨rfl, hused⟩

end Evaluation

/-! ## 6. The keys returned -/

/-- A condition on the calls of `satisfied` that `get_required_keys` makes, each with the keys
    marked before it. -/
def EachCall (c : GateContext K) (candidates : Finset K) (delay : Int)
    (good : Nat → List PermissionLevel → CheckerState K → PermissionLevel → Prop) :
    List PermissionLevel → Finset K → Prop
  | [], _ => True
  | d :: ds, used =>
      good c.maxAuthorityDepth.toNat [] ⟨initializePermissionCache [], used⟩ d ∧
        EachCall c candidates delay good ds (satisfied c.db.permissions.authorityOf
          c.maxAuthorityDepth.toNat ⟨candidates, [], delay⟩ used d).2

variable {c : GateContext K} {candidates required used : Finset K} {delay : Int}
  {actions : List DeclaredAction}

theorem EachCall.congr {p : Provided K}
    {good good' : Nat → List PermissionLevel → CheckerState K → PermissionLevel → Prop}
    (h : ∀ n path st level, OnPath p st path → (good n path st level ↔ good' n path st level))
    (hp : p.permissions = []) (ds : List PermissionLevel) (used : Finset K) :
    EachCall c candidates delay good ds used ↔ EachCall c candidates delay good' ds used := by
  induction ds generalizing used with
  | nil => rfl
  | cons d ds ih =>
    have hstart := OnPath.start p used
    rw [hp] at hstart
    exact and_congr (h _ _ _ _ hstart) (ih _)

end YottaChain.Permissions
