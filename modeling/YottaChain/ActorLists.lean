/-
  **The white and black list of actors** (`controller_impl::check_actor_list`).

  The sets are sorted lists, and an iterator is the part of its set that begins at it.  One that
  is read or advanced at the end shows: the check would be `undefined`.  After a quick look at
  the extents both loops search each actor from where the search for the one before has ended.
-/
import Mathlib.Data.List.TakeWhile
import YottaChain.Chain

namespace YottaChain.ActorLists

open List

/-- `flat_set<account_name>`. -/
structure FlatSet where
  elems : List Name
  sorted : elems.Pairwise (· < ·)

inductive Failure where
  | actorWhitelist (missing : List Name)
  | actorBlacklist (listed : List Name)
  | undefined
deriving DecidableEq

def deref : List Name → Except Failure Name
  | [] => .error .undefined
  | a :: _ => .ok a

def next : List Name → Except Failure (List Name)
  | [] => .error .undefined
  | _ :: rest => .ok rest

/-- `std::lower_bound` from an iterator to the end. -/
def lowerBound (first : List Name) (value : Name) : List Name := first.dropWhile (· < value)

/-- The loop over the actors that looks for one that is not on the white list. -/
def isSubset : List Name → List Name → Except Failure Bool
  | [], _ => .ok true
  | actor :: actors, bound =>
      let bound := lowerBound bound actor
      if bound = [] then .ok false
      else do
        if (← deref bound) ≠ actor then pure false
        else do
          let bound ← next bound
          isSubset actors bound

/-- The loop over the actors that looks for one on the black list. -/
def intersects : List Name → List Name → Except Failure Bool
  | [], _ => .ok false
  | actor :: actors, bound =>
      let bound := lowerBound bound actor
      if bound = [] then .ok false
      else do
        if (← deref bound) = actor then pure true else intersects actors bound

def first (s : FlatSet) : Except Failure Name := deref s.elems

def last (s : FlatSet) : Except Failure Name := deref s.elems.reverse

/-- A look at the extents, then the loop. -/
def allListed (actors whitelist : FlatSet) : Except Failure Bool := do
  if (← first whitelist) ≤ (← first actors) then
    if (← last actors) ≤ (← last whitelist) then isSubset actors.elems whitelist.elems
    else pure false
  else pure false

def someListed (actors blacklist : FlatSet) : Except Failure Bool := do
  if (← first actors) ≤ (← last blacklist) then
    if (← first blacklist) ≤ (← last actors) then intersects actors.elems blacklist.elems
    else pure false
  else pure false

def checkActorList (actors whitelist blacklist : FlatSet) : Except Failure Unit :=
  if actors.elems.length = 0 then .ok ()
  else if 0 < whitelist.elems.length then do
    if ← allListed actors whitelist then pure ()
    else .error (.actorWhitelist (actors.elems.filter (· ∉ whitelist.elems)))
  else if 0 < blacklist.elems.length then do
    if ← someListed actors blacklist then
      .error (.actorBlacklist (actors.elems.filter (· ∈ blacklist.elems)))
    else pure ()
  else .ok ()

/-! ## 1. The searches -/

variable {l actors rest : List Name} {a b x : Name}

theorem mem_lowerBound (h : a ≤ b) : b ∈ lowerBound l a ↔ b ∈ l := by
  have hparts : l.takeWhile (· < a) ++ lowerBound l a = l := takeWhile_append_dropWhile
  refine ⟨fun hb => hparts ▸ mem_append_right _ hb, fun hb => ?_⟩
  rw [← hparts] at hb
  rcases mem_append.mp hb with hb | hb
  · have hlt := mem_takeWhile_imp hb
    exact absurd (of_decide_eq_true hlt) (UInt64.not_lt.mpr h)
  · exact hb

theorem lowerBound_cons (hl : l.Pairwise (· < ·)) (h : lowerBound l a = x :: rest) :
    a ≤ x ∧ (x :: rest).Pairwise (· < ·) := by
  refine ⟨?_, h ▸ hl.sublist (dropWhile_sublist _)⟩
  have hnot := head?_dropWhile_not (· < a) l
  rw [show l.dropWhile (· < a) = x :: rest from h] at hnot
  exact UInt64.not_lt.mp (of_decide_eq_false hnot)

/-- An element that the search does not find is not there. -/
theorem not_mem_of_ne (hl : l.Pairwise (· < ·)) (h : lowerBound l a = x :: rest) (hx : x ≠ a) :
    a ∉ l := by
  obtain ⟨hle, hsorted⟩ := lowerBound_cons hl h
  rw [← mem_lowerBound (UInt64.le_refl a), h, mem_cons]
  rintro (heq | hrest)
  · exact hx heq.symm
  · exact absurd ((pairwise_cons.mp hsorted).1 a hrest) (UInt64.not_lt.mpr hle)

theorem isSubset_eq (hl : l.Pairwise (· < ·)) (hactors : actors.Pairwise (· < ·)) :
    ∃ r, isSubset actors l = .ok r ∧ (r = true ↔ ∀ a ∈ actors, a ∈ l) := by
  induction actors generalizing l with
  | nil => exact ⟨true, rfl, fun _ a ha => absurd ha not_mem_nil, fun _ => rfl⟩
  | cons a actors ih =>
    obtain ⟨hgreater, hrest⟩ := pairwise_cons.mp hactors
    have hself := mem_lowerBound (l := l) (UInt64.le_refl a)
    unfold isSubset
    cases hbound : lowerBound l a with
    | nil =>
      refine ⟨false, rfl, fun h => absurd h Bool.false_ne_true, fun h => ?_⟩
      rw [hbound] at hself
      exact absurd (hself.mpr (h a mem_cons_self)) not_mem_nil
    | cons x rest =>
      by_cases hx : x = a
      · subst hx
        obtain ⟨r, hr, hiff⟩ := ih (pairwise_cons.mp (lowerBound_cons hl hbound).2).2 hrest
        refine ⟨r, (if_neg (not_not_intro rfl)).trans hr, hiff.trans ?_⟩
        have hmem : ∀ b ∈ actors, b ∈ rest ↔ b ∈ l := by
          intro b hb
          have hb' := mem_lowerBound (l := l) (UInt64.le_of_lt (hgreater b hb))
          rw [hbound, mem_cons] at hb'
          exact (or_iff_right (UInt64.ne_of_lt (hgreater b hb)).symm).symm.trans hb'
        rw [forall_mem_cons, ← hself, hbound]
        exact ⟨fun h => ⟨mem_cons_self, fun b hb => (hmem b hb).mp (h b hb)⟩,
          fun h b hb => (hmem b hb).mpr (h.2 b hb)⟩
      · refine ⟨false, if_pos hx, fun h => absurd h Bool.false_ne_true, fun h => ?_⟩
        exact absurd (h a mem_cons_self) (not_mem_of_ne hl hbound hx)

theorem intersects_eq (hl : l.Pairwise (· < ·)) (hactors : actors.Pairwise (· < ·)) :
    ∃ r, intersects actors l = .ok r ∧ (r = true ↔ ∃ a ∈ actors, a ∈ l) := by
  induction actors generalizing l with
  | nil =>
    refine ⟨false, rfl, fun h => absurd h Bool.false_ne_true, ?_⟩
    rintro ⟨a, ha, _⟩
    cases ha
  | cons a actors ih =>
    obtain ⟨hgreater, hrest⟩ := pairwise_cons.mp hactors
    have hmem : ∀ b ∈ actors, b ∈ lowerBound l a ↔ b ∈ l :=
      fun b hb => mem_lowerBound (UInt64.le_of_lt (hgreater b hb))
    have hself := mem_lowerBound (l := l) (UInt64.le_refl a)
    unfold intersects
    rw [exists_mem_cons_iff]
    cases hbound : lowerBound l a with
    | nil =>
      -- the actors that are left are greater still
      rw [hbound] at hmem hself
      refine ⟨false, rfl, fun h => absurd h Bool.false_ne_true, ?_⟩
      rintro (ha | ⟨b, hb, hbl⟩)
      · exact absurd (hself.mpr ha) not_mem_nil
      · exact absurd ((hmem b hb).mpr hbl) not_mem_nil
    | cons x rest =>
      rw [hbound] at hmem hself
      by_cases hx : x = a
      · exact ⟨true, if_pos hx, fun _ => .inl (hself.mp (hx ▸ mem_cons_self)), fun _ => rfl⟩
      · obtain ⟨r, hr, hiff⟩ := ih (lowerBound_cons hl hbound).2 hrest
        refine ⟨r, (if_neg hx).trans hr, hiff.trans ?_⟩
        rw [or_iff_right (not_mem_of_ne hl hbound hx)]
        exact exists_congr fun b => and_congr_right (hmem b)

/-! ## 2. The check -/

variable {set actors whitelist blacklist : FlatSet}

theorem first_eq (hne : set.elems ≠ []) :
    ∃ x, first set = .ok x ∧ x ∈ set.elems ∧ ∀ b ∈ set.elems, x ≤ b := by
  obtain ⟨elems, hs⟩ := set
  obtain ⟨x, rest, rfl⟩ := exists_cons_of_ne_nil hne
  refine ⟨x, rfl, mem_cons_self, forall_mem_cons.mpr ⟨UInt64.le_refl x, fun b hb => ?_⟩⟩
  exact UInt64.le_of_lt ((pairwise_cons.mp hs).1 b hb)

theorem last_eq (hne : set.elems ≠ []) :
    ∃ x, last set = .ok x ∧ x ∈ set.elems ∧ ∀ b ∈ set.elems, b ≤ x := by
  have hs := pairwise_reverse.mpr set.sorted
  obtain ⟨x, rest, hrev⟩ := exists_cons_of_ne_nil (reverse_ne_nil_iff.mpr hne)
  have hmem : ∀ b, b ∈ set.elems ↔ b = x ∨ b ∈ rest := by
    intro b
    rw [← mem_reverse, hrev, mem_cons]
  rw [last, hrev]
  refine ⟨x, rfl, (hmem x).mpr (.inl rfl), fun b hb => ?_⟩
  rw [hrev] at hs
  rcases (hmem b).mp hb with rfl | hb
  · exact UInt64.le_refl b
  · exact UInt64.le_of_lt ((pairwise_cons.mp hs).1 b hb)

theorem allListed_eq (ha : actors.elems ≠ []) (hw : whitelist.elems ≠ []) :
    ∃ r, allListed actors whitelist = .ok r ∧ (r = true ↔ actors.elems ⊆ whitelist.elems) := by
  obtain ⟨firstA, hfirstA, hfirstMem, _⟩ := first_eq ha
  obtain ⟨lastA, hlastA, hlastMem, _⟩ := last_eq ha
  obtain ⟨firstW, hfirstW, _, hmin⟩ := first_eq hw
  obtain ⟨lastW, hlastW, _, hmax⟩ := last_eq hw
  rw [allListed, hfirstW, hfirstA, hlastA, hlastW]
  by_cases hlow : firstW ≤ firstA
  · by_cases hhigh : lastA ≤ lastW
    · obtain ⟨r, hr, hiff⟩ := isSubset_eq whitelist.sorted actors.sorted
      exact ⟨r, ((if_pos hlow).trans (if_pos hhigh)).trans hr, hiff⟩
    · refine ⟨false, (if_pos hlow).trans (if_neg hhigh), fun h => absurd h Bool.false_ne_true, ?_⟩
      exact fun hsub => absurd (hmax lastA (hsub hlastMem)) hhigh
  · refine ⟨false, if_neg hlow, fun h => absurd h Bool.false_ne_true, ?_⟩
    exact fun hsub => absurd (hmin firstA (hsub hfirstMem)) hlow

theorem someListed_eq (ha : actors.elems ≠ []) (hb : blacklist.elems ≠ []) :
    ∃ r, someListed actors blacklist = .ok r ∧
      (r = true ↔ ∃ a ∈ actors.elems, a ∈ blacklist.elems) := by
  obtain ⟨firstA, hfirstA, _, hminA⟩ := first_eq ha
  obtain ⟨lastA, hlastA, _, hmaxA⟩ := last_eq ha
  obtain ⟨firstB, hfirstB, _, hminB⟩ := first_eq hb
  obtain ⟨lastB, hlastB, _, hmaxB⟩ := last_eq hb
  rw [someListed, hfirstA, hlastB, hfirstB, hlastA]
  by_cases hlow : firstA ≤ lastB
  · by_cases hhigh : firstB ≤ lastA
    · obtain ⟨r, hr, hiff⟩ := intersects_eq blacklist.sorted actors.sorted
      exact ⟨r, ((if_pos hlow).trans (if_pos hhigh)).trans hr, hiff⟩
    · refine ⟨false, (if_pos hlow).trans (if_neg hhigh), fun h => absurd h Bool.false_ne_true, ?_⟩
      rintro ⟨a, haA, haB⟩
      exact absurd (UInt64.le_trans (hminB a haB) (hmaxA a haA)) hhigh
  · refine ⟨false, if_neg hlow, fun h => absurd h Bool.false_ne_true, ?_⟩
    rintro ⟨a, haA, haB⟩
    exact absurd (UInt64.le_trans (hminA a haA) (hmaxB a haB)) hlow

/-- **The actor lists are checked exactly**: the white list is violated if an actor is not on it,
    the black list, which counts only without a white list, if an actor is on it; and no
    iterator leaves its set. -/
theorem actor_lists_exact (actors whitelist blacklist : FlatSet) :
    ((∃ missing, checkActorList actors whitelist blacklist = .error (.actorWhitelist missing)) ↔
      actors.elems ≠ [] ∧ whitelist.elems ≠ [] ∧ ¬ actors.elems ⊆ whitelist.elems) ∧
    ((∃ listed, checkActorList actors whitelist blacklist = .error (.actorBlacklist listed)) ↔
      actors.elems ≠ [] ∧ whitelist.elems = [] ∧ ∃ a ∈ actors.elems, a ∈ blacklist.elems) ∧
    checkActorList actors whitelist blacklist ≠ .error .undefined := by
  unfold checkActorList
  by_cases ha : actors.elems = []
  · simp [ha]
  rw [if_neg (fun h => ha (length_eq_zero_iff.mp h))]
  by_cases hw : whitelist.elems = []
  · rw [if_neg (by simp [hw])]
    by_cases hb : blacklist.elems = []
    · simp [hw, hb]
    rw [if_pos (length_pos_iff.mpr hb)]
    obtain ⟨r, hr, hiff⟩ := someListed_eq ha hb
    rw [hr, ← hiff]
    cases r with
    | true => simp [ha, hw, bind, Except.bind]
    | false => simp [hw, bind, Except.bind, pure, Except.pure]
  · rw [if_pos (length_pos_iff.mpr hw)]
    obtain ⟨r, hr, hiff⟩ := allListed_eq ha hw
    rw [hr, ← hiff]
    cases r with
    | true => simp [bind, Except.bind, pure, Except.pure, hw]
    | false => simp [ha, hw, bind, Except.bind]

end YottaChain.ActorLists
