/-
  **The votes of a producer are the weights of those who vote for it, with an exception.**

  Votes are counted by differences: a vote takes the old weight of the voter from the
  producers it voted for and adds the new weight to those it votes for.  `support` is
  what the votes of a producer should be.  The differences of one vote are kept in the
  order of names, so that each producer has one (`Ordered`) and the loop over them
  brings every registered producer to its support (`applyDeltas_tally`).  No total
  becomes negative on the way.

  Removing a producer erases its votes and not those who voted for it.  When it is
  registered again its votes start at 0, while its support may not be 0: this is the
  exception.
-/
import Mathlib.Algebra.BigOperators.Group.List.Basic
import Mathlib.Tactic.Linarith
import YottaChain.EconomyEffects
import YottaChain.VotingEffects

namespace YottaChain.System

open Checked Table

variable {env : Env} {c : Ctx} {deposit : HddDeposit.Tables} {e e' e1 : Election} {user u p q : Name}
  {producers : List Name} {voter v : VoterInfo} {weight delta : ℤ} {missing : Name}
  {voting isNew : Bool} {deltas : Deltas}

/-! ## 1. The differences of a vote -/

def deltaAt (p : Name) (deltas : Deltas) : ℤ := (deltas.map fun x => if x.1 = p then x.2.1 else 0).sum

def Ordered (deltas : Deltas) : Prop := (deltas.map Prod.fst).Pairwise (· < ·)

theorem deltaAt_cons (x : Name × ℤ × Bool) :
    deltaAt p (x :: deltas) = (if x.1 = p then x.2.1 else 0) + deltaAt p deltas := by
  rw [deltaAt, List.map_cons, List.sum_cons, deltaAt]

theorem deltaAt_bump (q : Name) (delta : ℤ) (isNew : Bool) (deltas : Deltas) :
    deltaAt p (bump q delta isNew deltas) = deltaAt p deltas + if q = p then delta else 0 := by
  induction deltas with
  | nil =>
    rw [bump, deltaAt_cons]
    exact add_comm _ _
  | cons x _ ih =>
    obtain ⟨r, d, old⟩ := x
    unfold bump
    split
    · rw [deltaAt_cons]
      exact add_comm _ _
    · split
      · rename_i heq
        subst heq
        rw [deltaAt_cons, deltaAt_cons]
        dsimp only
        split
        · omega
        · omega
      · rw [deltaAt_cons, deltaAt_cons, ih, add_assoc]

theorem deltaAt_foldl (isNew : Bool) (ps : List Name) (deltas : Deltas) :
    deltaAt p (ps.foldl (fun d q => bump q weight isNew d) deltas) =
      deltaAt p deltas + ps.count p * weight := by
  induction ps generalizing deltas with
  | nil => simp
  | cons q _ ih =>
    rw [List.foldl_cons, ih, deltaAt_bump, List.count_cons]
    by_cases hq : q = p
    · simp only [hq, if_true, beq_self_eq_true]
      push_cast
      linarith
    · simp [hq]

theorem mem_bump {x : Name} (h : x ∈ (bump q delta isNew deltas).map Prod.fst) :
    x = q ∨ x ∈ deltas.map Prod.fst := by
  induction deltas with
  | nil => simpa [bump] using h
  | cons y _ ih =>
    obtain ⟨r, d, old⟩ := y
    unfold bump at h
    split at h
    · simpa using h
    · split at h
      · exact .inr (by simpa using h)
      · rw [List.map_cons, List.mem_cons] at h
        rcases h with rfl | h
        · exact .inr (by simp)
        · rcases ih h with rfl | hrest
          · exact .inl rfl
          · exact .inr (by simpa using .inr (by simpa using hrest))

theorem Ordered.bump (h : Ordered deltas) : Ordered (bump q delta isNew deltas) := by
  induction deltas with
  | nil => simp [System.bump, Ordered]
  | cons y _ ih =>
    obtain ⟨r, d, old⟩ := y
    have hcons := h
    unfold Ordered at hcons
    rw [List.map_cons, List.pairwise_cons] at hcons
    obtain ⟨hhead, hrest⟩ := hcons
    unfold System.bump Ordered
    split
    · rename_i hlt
      rw [List.map_cons, List.pairwise_cons]
      refine ⟨fun x hx => ?_, h⟩
      rw [List.map_cons, List.mem_cons] at hx
      rcases hx with rfl | hx
      · exact hlt
      · exact UInt64.lt_trans hlt (hhead x hx)
    · rename_i hnot
      split
      · rename_i heq
        subst heq
        exact h
      · rename_i hne
        rw [List.map_cons, List.pairwise_cons]
        refine ⟨fun x hx => ?_, ih hrest⟩
        rcases mem_bump hx with rfl | hx
        · exact UInt64.lt_of_le_of_ne (UInt64.not_lt.mp hnot) (fun heq => hne heq.symm)
        · exact hhead x hx

theorem Ordered.foldl (isNew : Bool) (ps : List Name) (h : Ordered deltas) :
    Ordered (ps.foldl (fun d q => System.bump q weight isNew d) deltas) := by
  induction ps generalizing deltas with
  | nil => exact h
  | cons _ _ ih => exact ih h.bump

theorem deltaAt_of_notMem (h : p ∉ deltas.map Prod.fst) : deltaAt p deltas = 0 := by
  induction deltas with
  | nil => rfl
  | cons _ _ ih =>
    rw [List.map_cons, List.mem_cons, not_or] at h
    rw [deltaAt_cons, if_neg (fun heq => h.1 heq.symm), ih h.2, add_zero]

theorem Ordered.deltaAt_of_mem (h : Ordered deltas) (hmem : (p, delta, isNew) ∈ deltas) :
    deltaAt p deltas = delta := by
  induction deltas with
  | nil => cases hmem
  | cons x rest ih =>
    unfold Ordered at h
    rw [List.map_cons, List.pairwise_cons] at h
    obtain ⟨hhead, hrest⟩ := h
    rw [deltaAt_cons]
    rcases List.mem_cons.mp hmem with rfl | hmem
    · have hnot : p ∉ rest.map Prod.fst := fun hin => UInt64.lt_irrefl _ (hhead p hin)
      rw [if_pos rfl, deltaAt_of_notMem hnot, add_zero]
    · have hin : p ∈ rest.map Prod.fst := List.mem_map_of_mem hmem
      have hne : x.1 ≠ p := by
        rintro rfl
        exact UInt64.lt_irrefl _ (hhead _ hin)
      rw [if_neg hne, zero_add, ih hrest hmem]

theorem voteDeltas_ordered (voter : VoterInfo) (producers : List Name) (weight : ℤ) :
    Ordered (voteDeltas voter 0 producers weight) := by
  have hnil : Ordered [] := List.Pairwise.nil
  unfold voteDeltas
  dsimp only
  split
  · refine Ordered.foldl true producers ?_
    split
    · exact hnil.foldl false voter.producers
    · exact hnil
  · split
    · exact hnil.foldl false voter.producers
    · exact hnil

def contribution (p : Name) (v : VoterInfo) : ℤ := if p ∈ v.producers then v.lastVoteWeight else 0

theorem deltaAt_voteDeltas (hproxy : voter.proxy = 0) (hold : voter.producers.Nodup)
    (hnew : producers.Nodup) (hlast : 0 ≤ voter.lastVoteWeight) (hweight : 0 ≤ weight) (p : Name) :
    deltaAt p (voteDeltas voter 0 producers weight) =
      (if p ∈ producers then weight else 0) - contribution p voter := by
  have htaken : deltaAt p (if 0 < voter.lastVoteWeight ∧ voter.proxy = 0 then
      voter.producers.foldl (fun d p => bump p (-voter.lastVoteWeight) false d) [] else []) =
      -contribution p voter := by
    unfold contribution
    split
    · rw [deltaAt_foldl, hold.count]
      split <;> simp [deltaAt]
    · rename_i hnot
      have hzero : voter.lastVoteWeight = 0 := by
        by_contra hne
        exact hnot ⟨by omega, hproxy⟩
      simp [deltaAt, hzero]
  unfold voteDeltas
  dsimp only
  rw [if_pos ⟨rfl, hweight⟩, deltaAt_foldl, htaken, hnew.count]
  split
  · simp
    omega
  · simp

/-! ## 2. The law -/

/-- A row of a voter: no producer twice, and neither weight nor stake negative. -/
structure VoterInfo.Sound (v : VoterInfo) : Prop where
  nodup : v.producers.Nodup
  weight : 0 ≤ v.lastVoteWeight
  staked : 0 ≤ v.staked.toInt

def support (e : Election) (p : Name) : ℤ := e.voters.total fun _ v => contribution p v

structure TallyLaw (e : Election) : Prop where
  noProxies : NoProxies e
  rows : ∀ u v, e.voters.find u = some v → v.Sound
  tally : ∀ p row, e.producers.find p = some row → row.totalVotes = support e p
  total : e.totalProducerVoteWeight = e.producers.total fun _ row => row.totalVotes

theorem contribution_nonneg (h : v.Sound) (p : Name) : 0 ≤ contribution p v := by
  unfold contribution
  split
  · exact h.weight
  · exact le_refl 0

def supportAfter (e : Election) (voter : VoterInfo) (producers : List Name) (weight : ℤ) (p : Name) :
    ℤ := support e p - contribution p voter + if p ∈ producers then weight else 0

theorem supportAfter_nonneg (h : ∀ u v, e.voters.find u = some v → v.Sound)
    (hrow : e.voters.find user = some voter) (hweight : 0 ≤ weight) (producers : List Name) (p : Name) :
    0 ≤ supportAfter e voter producers weight p := by
  have hle : contribution p voter ≤ support e p :=
    le_total (f := fun _ v => contribution p v)
      (fun u v hv => contribution_nonneg (h u v hv) p) hrow
  unfold supportAfter
  split
  · omega
  · omega

variable {row : ProducerInfo}

theorem TallyLaw.add_deltaAt (h : TallyLaw e) (hrow : e.voters.find user = some voter)
    (hnew : producers.Nodup) (hweight : 0 ≤ weight) (hp : e.producers.find p = some row) :
    row.totalVotes + deltaAt p (voteDeltas voter 0 producers weight) =
      supportAfter e voter producers weight p := by
  have hsound := h.rows user voter hrow
  have hdelta := deltaAt_voteDeltas (h.noProxies user voter hrow).1 hsound.nodup hnew hsound.weight
    hweight p
  rw [h.tally p row hp, hdelta]
  unfold supportAfter
  omega

/-- No total becomes negative, so that none is cut off at 0. -/
theorem TallyLaw.not_clamped (h : TallyLaw e) (hrow : e.voters.find user = some voter)
    (hnew : producers.Nodup) (hweight : 0 ≤ weight)
    (hmem : (p, delta, isNew) ∈ voteDeltas voter 0 producers weight)
    (hp : e.producers.find p = some row) : 0 ≤ row.totalVotes + delta := by
  have hdelta := (voteDeltas_ordered voter producers weight).deltaAt_of_mem hmem
  have hsum := h.add_deltaAt hrow hnew hweight hp
  have hafter := supportAfter_nonneg h.rows hrow hweight producers p
  omega

/-! ## 3. The loop over the differences -/

/-- In the middle of the loop: the votes of every registered producer and the difference
    still to come make up its goal. -/
structure Counting (voters : Table Name VoterInfo) (goal : Name → ℤ) (s : Election × Name)
    (rest : Deltas) : Prop where
  voters : s.1.voters = voters
  ordered : Ordered rest
  tally : ∀ p row, s.1.producers.find p = some row → row.totalVotes + deltaAt p rest = goal p
  total : s.1.totalProducerVoteWeight = s.1.producers.total fun _ row => row.totalVotes
  missing : s.2 = 0 ∨ s.1.producers.find s.2 = none

variable {s s' : Election × Name}

theorem applyDelta_counting {voters : Table Name VoterInfo} {goal : Name → ℤ} {x : Name × ℤ × Bool}
    {rest : Deltas} (hgoal : ∀ p, 0 ≤ goal p) (h : Counting voters goal s (x :: rest))
    (hcall : applyDelta voting s x = .ok s') : Counting voters goal s' rest := by
  obtain ⟨e, missing⟩ := s
  obtain ⟨p, delta, isNew⟩ := x
  obtain ⟨e', missing'⟩ := s'
  have hordered := h.ordered
  unfold Ordered at hordered
  rw [List.map_cons, List.pairwise_cons] at hordered
  obtain ⟨hhead, hrest⟩ := hordered
  have hothers : ∀ q row, q ≠ p → e.producers.find q = some row →
      row.totalVotes + deltaAt q rest = goal q := by
    intro q row hq hrow
    have hold := h.tally q row hrow
    rw [deltaAt_cons, if_neg (fun heq => hq heq.symm), zero_add] at hold
    exact hold
  rcases applyDelta_ok hcall with ⟨row, hp, rfl, rfl⟩ | ⟨hp, rfl, rfl⟩
  · have hnot : p ∉ rest.map Prod.fst := fun hin => UInt64.lt_irrefl _ (hhead p hin)
    have hreached : row.totalVotes + delta = goal p := by
      have hold := h.tally p row hp
      rw [deltaAt_cons, if_pos rfl, deltaAt_of_notMem hnot, add_zero] at hold
      exact hold
    have hvotes : (addVotes row delta).totalVotes = row.totalVotes + delta := by
      have hnonneg := hgoal p
      exact if_neg (by omega)
    refine ⟨?_, hrest, ?_, ?_, ?_⟩
    · simpa [tally] using h.voters
    · intro q row' hq
      simp only [tally, producers_relist] at hq
      by_cases hqp : q = p
      · subst hqp
        rw [find_put_self] at hq
        cases hq
        rw [hvotes, deltaAt_of_notMem hnot, add_zero]
        exact hreached
      · rw [find_put_ne _ _ hqp] at hq
        exact hothers q row' hqp hq
    · have htotal := total_put_add (addVotes row delta) (fun _ r => r.totalVotes) hp
      have hold := h.total
      simp only [tally, producers_relist, totalProducerVoteWeight_relist]
      dsimp only at hold htotal
      omega
    · rcases h.missing with hzero | hnone
      · exact .inl hzero
      · right
        have hne : missing' ≠ p := by
          rintro rfl
          dsimp only at hnone
          rw [hnone] at hp
          cases hp
        simp only [tally, producers_relist]
        rw [find_put_ne _ _ hne]
        exact hnone
  · refine ⟨?_, hrest, ?_, ?_, ?_⟩
    · simpa using h.voters
    · intro q row hq
      rw [producers_relist] at hq
      have hqp : q ≠ missing' := by
        rintro rfl
        rw [hp] at hq
        cases hq
      exact hothers q row hqp hq
    · simpa using h.total
    · right
      rw [producers_relist]
      exact hp

theorem applyDeltas_counting {voters : Table Name VoterInfo} {goal : Name → ℤ}
    (hgoal : ∀ p, 0 ≤ goal p) (h : Counting voters goal s deltas)
    (hrun : deltas.foldlM (applyDelta voting) s = .ok s') : Counting voters goal s' [] := by
  have hall : Counting voters goal s (deltas ++ []) := by
    rw [List.append_nil]
    exact h
  refine Dispatch.foldlM_rule (I := Counting voters goal) ?_ hall hrun
  intro s x rest s' hI hcall
  exact applyDelta_counting hgoal hI hcall

theorem activate_frame (now : UInt64) (e : Election) (voter : VoterInfo) :
    (activate now e voter).producers = e.producers ∧
      (activate now e voter).totalProducerVoteWeight = e.totalProducerVoteWeight := by
  unfold activate
  split
  · exact ⟨rfl, rfl⟩
  · exact ⟨rfl, rfl⟩

/-! ## 4. Votes and stakes -/

theorem recordVote_sound (hsound : voter.Sound) (hnew : producers.Nodup) (hweight : 0 ≤ weight) :
    (recordVote 0 producers weight missing voter).Sound := by
  refine ⟨?_, hweight, hsound.staked⟩
  unfold recordVote
  dsimp only
  split
  · exact hnew.erase missing
  · exact hnew

theorem contribution_recordVote (hne : p ≠ missing ∨ missing = 0) :
    contribution p (recordVote 0 producers weight missing voter) =
      if p ∈ producers then weight else 0 := by
  unfold contribution recordVote
  dsimp only
  by_cases hzero : missing = 0
  · rw [if_neg (not_not_intro hzero)]
  · simp only [if_pos hzero, List.mem_erase_of_ne (hne.resolve_right hzero)]

theorem nodup_of_single (h : producers.length ≤ 1) : producers.Nodup := by
  rcases producers with _ | ⟨a, _ | ⟨b, rest⟩⟩
  · exact List.nodup_nil
  · exact List.nodup_singleton a
  · simp at h

theorem Voted.tallyLaw (h : Voted c deposit e user producers voter weight missing e1 e' voting)
    (hlaw : TallyLaw e) (hweight : 0 ≤ weight) : TallyLaw e' := by
  have hnew := nodup_of_single h.single
  have hsound := hlaw.rows user voter h.row
  obtain ⟨hproducers, htotal⟩ := activate_frame c.currentTime e voter
  have hstart : Counting e.voters (supportAfter e voter producers weight)
      (activate c.currentTime e voter, 0) (voteDeltas voter 0 producers weight) := by
    refine ⟨voters_activate _ _ _, voteDeltas_ordered _ _ _, ?_, ?_, .inl rfl⟩
    · intro p row hp
      dsimp only at hp
      rw [hproducers] at hp
      exact hlaw.add_deltaAt h.row hnew hweight hp
    · dsimp only
      rw [htotal, hproducers]
      exact hlaw.total
  have hend := applyDeltas_counting (supportAfter_nonneg hlaw.rows h.row hweight producers) hstart h.loop
  have hvoters : e1.voters = e.voters := hend.voters
  have hput : e1.voters.adjust user (recordVote 0 producers weight missing) =
      e.voters.put user (recordVote 0 producers weight missing voter) := by
    rw [hvoters]
    exact adjust_of_some _ h.row
  refine ⟨h.noProxies hlaw.noProxies, ?_, ?_, ?_⟩
  · rw [h.written]
    dsimp only
    rw [hput]
    exact forall_put hlaw.rows (recordVote_sound hsound hnew hweight)
  · intro p row hp
    rw [h.written] at hp ⊢
    dsimp only at hp
    have hreached := hend.tally p row hp
    have hne : p ≠ missing ∨ missing = 0 := by
      rcases hend.missing with hzero | hnone
      · exact .inr hzero
      · left
        rintro rfl
        dsimp only at hnone
        rw [hnone] at hp
        cases hp
    have hsum := total_put_add (recordVote 0 producers weight missing voter)
      (fun _ v => contribution p v) h.row
    rw [contribution_recordVote hne] at hsum
    unfold support
    dsimp only
    rw [hput]
    have hdelta : deltaAt p [] = 0 := rfl
    unfold supportAfter support at hreached
    omega
  · rw [h.written]
    exact hend.total

/-- A new stake changes neither producers nor weights. -/
theorem TallyLaw.restake {owner : Name} {amount : Int64} (hlaw : TallyLaw e)
    (hstaked : 0 ≤ (restaked e owner amount).staked) : TallyLaw (restake e owner amount) := by
  have hnonneg : 0 ≤ (restaked e owner amount).staked.toInt := by
    rw [Int64.le_iff_toInt_le, Int64.toInt_zero] at hstaked
    exact hstaked
  have hcontribution : ∀ p, e.voters.valueAt (fun _ v => contribution p v) owner =
      contribution p (restaked e owner amount) := by
    intro p
    unfold Table.valueAt restaked
    rcases e.voters.find owner with _ | v
    · simp [contribution]
    · rfl
  refine ⟨hlaw.noProxies.restake owner amount, ?_, ?_, hlaw.total⟩
  · refine forall_put hlaw.rows ?_
    unfold restaked at hnonneg ⊢
    rcases hold : e.voters.find owner with _ | old
    · rw [hold] at hnonneg
      exact ⟨List.nodup_nil, le_refl 0, hnonneg⟩
    · rw [hold] at hnonneg
      have hsound := hlaw.rows owner old hold
      exact ⟨hsound.nodup, hsound.weight, hnonneg⟩
  · intro p row hp
    have htally := hlaw.tally p row hp
    have hsum := e.voters.total_put owner (restaked e owner amount) fun _ v => contribution p v
    rw [hcontribution p] at hsum
    unfold support System.restake at *
    dsimp only
    omega

/-! ## 5. The actions -/

theorem TallyLaw.congr (h : TallyLaw e) (hvoters : e'.voters = e.voters)
    (hproducers : e'.producers = e.producers)
    (htotal : e'.totalProducerVoteWeight = e.totalProducerVoteWeight) : TallyLaw e' := by
  refine ⟨h.noProxies.of_voters hvoters, ?_, ?_, ?_⟩
  · rw [hvoters]
    exact h.rows
  · intro p row hp
    rw [hproducers] at hp
    unfold support
    rw [hvoters]
    exact h.tally p row hp
  · rw [htotal, hproducers]
    exact h.total

def Unlisted (e : Election) (p : Name) : Prop := ∀ u v, e.voters.find u = some v → p ∉ v.producers

def listings (e : Election) (p : Name) : ℕ := e.voters.total fun _ v => if p ∈ v.producers then 1 else 0

theorem unlisted_of_listings (h : listings e p = 0) : Unlisted e p := by
  intro u v hv hmem
  have hle := le_total (f := fun _ v => if p ∈ VoterInfo.producers v then 1 else 0)
    (fun _ _ _ => Nat.zero_le _) hv
  rw [if_pos hmem] at hle
  unfold listings at h
  omega

theorem support_of_unlisted (h : Unlisted e p) : support e p = 0 := by
  apply total_eq_zero
  intro u v hv
  exact if_neg (h u v hv)

/-- Writing the row of a producer with the votes it should have keeps the law. -/
theorem TallyLaw.putProducer {info : ProducerInfo} (h : TallyLaw e)
    (hvotes : info.totalVotes = support e p)
    (hsame : e.producers.valueAt (fun _ r => r.totalVotes) p = info.totalVotes) :
    TallyLaw (putProducer e p info) := by
  refine ⟨h.noProxies, h.rows, ?_, ?_⟩
  · exact forall_put h.tally hvotes
  · have htotal := e.producers.total_put p info fun _ r => r.totalVotes
    have hold := h.total
    unfold System.putProducer
    dsimp only
    omega

theorem TallyLaw.regproducer {key : PublicKey} {url : Text} {location : UInt16} (h : TallyLaw e)
    (hknown : (e.producers.find p).isSome ∨ Unlisted e p)
    (hcall : regproducer c e p key url location = .ok e') : TallyLaw e' := by
  rcases regproducer_ok hcall with ⟨info, hp, rfl⟩ | ⟨hp, rfl⟩
  · refine TallyLaw.congr (e := System.putProducer e p _) ?_ rfl rfl rfl
    refine h.putProducer (h.tally p info hp) ?_
    rw [Table.valueAt, hp]
    rfl
  · have hunlisted : Unlisted e p := by
      rcases hknown with hsome | hunlisted
      · rw [hp] at hsome
        cases hsome
      · exact hunlisted
    refine h.putProducer (support_of_unlisted hunlisted).symm ?_
    rw [Table.valueAt, hp]
    rfl

/-- The votes of a producer that is removed are taken from the total. -/
theorem TallyLaw.eraseProducer (h : TallyLaw e) (p : Name) : TallyLaw (eraseProducer e p) := by
  unfold System.eraseProducer
  rcases hp : e.producers.find p with _ | row
  · exact h
  · refine ⟨h.noProxies, h.rows, ?_, ?_⟩
    · exact forall_erase h.tally
    · have htotal := total_erase_add (fun _ (r : ProducerInfo) => r.totalVotes) hp
      have hold := h.total
      dsimp only
      omega

theorem TallyLaw.rmvproducer (h : TallyLaw e) (hcall : rmvproducer c e p = .ok e') :
    TallyLaw e' := by
  obtain ⟨info, hp, rfl⟩ := rmvproducer_ok hcall
  have hput : TallyLaw (System.putProducer e p { info with producerKey := {}, isActive := false }) := by
    refine h.putProducer (h.tally p info hp) ?_
    rw [Table.valueAt, hp]
    rfl
  have herased := hput.eraseProducer p
  unfold delproducer
  dsimp only
  split
  · exact herased
  · exact herased.congr rfl rfl rfl

def Registrable (e : Election) : Action → Prop
  | .regproducer p _ _ _ => (e.producers.find p).isSome ∨ Unlisted e p
  | _ => True

def FreeNonneg (deposit : HddDeposit.Tables) : Prop :=
  ∀ u free, HddDeposit.getDepositfree deposit u = .ok free → 0 ≤ free.amount.toInt

theorem ElectionCall.tallyLaw {a : Action} (h : TallyLaw e) (hfree : FreeNonneg env.deposit)
    (hreg : Registrable e a) (hcall : ElectionCall env e e' a) : TallyLaw e' := by
  cases hcall with
  | aside hsame => exact h.congr hsame.voters hsame.producers hsame.totalProducerVoteWeight
  | vote hvote =>
    refine hvote.rule h.noProxies (fun owner amount hstaked => h.restake hstaked) ?_ h
    intro e0 user producers voter weight missing e1 e2 voting _ h0 hvoted
    obtain ⟨free, hfound, hweight⟩ := hvoted.weighed
    have hstaked := (h0.rows user voter hvoted.row).staked
    have hnonneg := hfree user free hfound
    exact hvoted.tallyLaw h0 (by omega)
  | regproducer hcall => exact h.regproducer hreg hcall
  | seqproducer hcall =>
    obtain ⟨x, ⟨_, hadd⟩ | ⟨_, hadd⟩⟩ := seqproducer_ok hcall
    · obtain ⟨_, _, _, rfl, _⟩ := addProducerYta_ok hadd
      exact h.congr rfl rfl rfl
    · obtain ⟨_, _, _, rfl, _⟩ := addProducerYta_ok hadd
      exact h.congr rfl rfl rfl
  | rmvproducer hcall => exact h.rmvproducer hcall
  | reprodlevel hcall =>
    rcases reprodlevel_ok hcall with rfl | rfl
    · exact h
    · rcases updateProducerLevel_eq env.sorter env.ctx.currentTime e with hsame | ⟨s, _, hset⟩
      · rw [hsame]
        exact h
      · rw [hset]
        exact h.congr rfl rfl rfl

theorem tallyLaw_empty : TallyLaw {} := by
  refine ⟨fun u v hv => ?_, fun u v hv => ?_, fun p row hp => ?_, rfl⟩
  · cases hv
  · cases hv
  · cases hp

end YottaChain.System

namespace YottaChain.HddDeposit

open Checked

theorem DepositLaw.freeNonneg {t : Tables} (h : DepositLaw t) : System.FreeNonneg t := by
  intro u free hfree
  simp only [getDepositfree, bind_eq_ok] at hfree
  obtain ⟨old, hold, hnew⟩ := hfree
  obtain ⟨hv0, hw0⟩ := Token.addTotal_ok rfl hold (by decide)
  obtain ⟨hv1, _⟩ := Token.addTotal_ok rfl hnew hw0
  have h0 : 0 ≤ (standing t.depositpool u).depositFree.value := (h.pools 0 isType_zero u).free
  have h1 : 0 ≤ (standing t.depositpool2 u).depositFree.value := (h.pools 1 isType_one u).free
  have hzero : (Asset.core 0).value = 0 := rfl
  have hvalue : free.amount.toInt = free.value := rfl
  omega

end YottaChain.HddDeposit

namespace YottaChain.Economy

open YottaChain.System

variable {env : System.Env} {st st' : State} {m : Message} {sent rest : List Message}

/-! ## 6. Transactions -/

structure CountedLaw (st : State) : Prop where
  inRange : Token.InRange st.ledger.token
  deposits : HddDeposit.DepositLaw st.ledger.deposit
  tallies : TallyLaw st.system.election

/-- A message that registers a new producer does so while nobody has it on its list. -/
def Orderly (st : State) (m : Message) : Prop :=
  match m.request with
  | .system a => Registrable st.system.election a
  | .ledger _ => True

theorem Handled.countedLaw (h : Handled env st m st' sent) (hlaw : CountedLaw st)
    (horderly : Orderly st m) (hsent : ∀ x ∈ sent, Executable x) : CountedLaw st' := by
  refine ⟨h.inRange hlaw.inRange, h.depositLaw hlaw.deposits hlaw.inRange hsent, ?_⟩
  cases h with
  | ledger => exact hlaw.tallies
  | system hrequest hcall =>
    unfold Orderly at horderly
    rw [hrequest] at horderly
    exact (apply_election hcall).tallyLaw hlaw.tallies hlaw.deposits.freeNonneg horderly

theorem exec_countedLaw {depth : ℕ} (hlaw : CountedLaw st) (horderly : Orderly st m)
    (hrun : exec env depth st m = .ok st') : CountedLaw st' := by
  refine exec_root (J := fun st _ => CountedLaw st) ?_ ?_ hrun
  · intro st' sent hsent hhandled
    exact hhandled.countedLaw hlaw horderly hsent
  · intro st x rest st' sent hinline _ hafter hJ hhandled
    refine hhandled.countedLaw hJ ?_ fun y hy => hafter y (List.mem_append_left _ hy)
    unfold Orderly
    rcases hinline with ⟨a, hrequest⟩ | ⟨voter, hrequest⟩
    · rw [hrequest]
      trivial
    · rw [hrequest]
      trivial

theorem countedLaw_empty : CountedLaw .empty := by
  refine ⟨fun k balance hbalance => ?_, Ledger.depositLaw_empty, tallyLaw_empty⟩
  cases hbalance

/-- **Votes are counted exactly**, as long as no producer is registered anew while somebody
    still has it on its list.  The votes of a registered producer are the weights of those
    who vote for it, the total is the sum of the votes, and no vote with a weight that is
    not negative, as the weights of all voters are, makes a total negative. -/
theorem tallies_exact (hrun : Run.Steps (TxStep Orderly) .empty st) :
    (∀ p row, st.system.election.producers.find p = some row →
      row.totalVotes = st.system.election.voters.total fun _ v =>
        if p ∈ v.producers then v.lastVoteWeight else 0) ∧
    st.system.election.totalProducerVoteWeight =
      st.system.election.producers.total (fun _ row => row.totalVotes) ∧
    ∀ u v, st.system.election.voters.find u = some v →
      (∀ free, HddDeposit.getDepositfree st.ledger.deposit u = .ok free →
        0 ≤ v.staked.toInt + free.amount.toInt) ∧
      ∀ ballot weight, ballot.length ≤ 1 → 0 ≤ weight →
        ∀ p delta isNew row, (p, delta, isNew) ∈ voteDeltas v 0 ballot weight →
          st.system.election.producers.find p = some row → 0 ≤ row.totalVotes + delta := by
  have hlaw : CountedLaw st := by
    refine Run.invariant (P := CountedLaw) ?_ countedLaw_empty hrun
    rintro st st' h ⟨env, depth, m, horderly, hexec⟩
    exact exec_countedLaw h horderly hexec
  refine ⟨hlaw.tallies.tally, hlaw.tallies.total, fun u v hv => ⟨fun free hfree => ?_, ?_⟩⟩
  · have hstaked := (hlaw.tallies.rows u v hv).staked
    have hnonneg := hlaw.deposits.freeNonneg u free hfree
    omega
  · intro ballot weight hsingle hweight p delta isNew row hmem hp
    exact hlaw.tallies.not_clamped hv (nodup_of_single hsingle) hweight hmem hp

def stakeSample : List Message :=
  funding ++
    [⟨[N "alice"], .system (.delegatebw (N "alice") (N "alice") (.core 30) (.core 40) false)⟩]

def registration : Message := ⟨[admin], .system (.regproducer (N "bpone") { type := 1 } [] 0)⟩

def voteSample : List Message :=
  [⟨[admin], .system (.seqproducer (N "bpone") (N "bpone") 1 2)⟩,
    ⟨[N "alice"], .system (.voteproducer (N "alice") 0 [N "bpone"])⟩]

def votesOf (st : State) : Option ℤ × ℤ :=
  ((st.system.election.producers.find (N "bpone")).map ProducerInfo.totalVotes,
    support st.system.election (N "bpone"))

theorem tallies_exact_sample : ∃ (st : State) (row : ProducerInfo),
    st.system.election.producers.find (N "bpone") = some row ∧ row.totalVotes = 70 ∧
    row.totalVotes = st.system.election.voters.total fun _ v =>
      if N "bpone" ∈ v.producers then v.lastVoteWeight else 0 := by
  have hrun : (execs (.plain 5 0) 4 .empty (stakeSample ++ registration :: voteSample)).map votesOf =
      .ok (some 70, 70) := by
    decide +kernel
  have hlisted : (execs (.plain 5 0) 4 .empty stakeSample).map
      (fun st => listings st.system.election (N "bpone")) = .ok 0 := by
    decide +kernel
  obtain ⟨st, hst, hview⟩ := Checked.exists_of_map_eq_ok hrun
  obtain ⟨st0, hst0, hnone⟩ := Checked.exists_of_map_eq_ok hlisted
  obtain ⟨row, hrow, hvotes⟩ := Option.map_eq_some_iff.mp (Prod.mk.inj hview).1
  refine ⟨st, row, hrow, hvotes, (tallies_exact ?_).1 (N "bpone") row hrow⟩
  simp only [execs, List.foldlM_append, List.foldlM_cons, Checked.bind_eq_ok] at hst
  obtain ⟨st1, hst1, st2, hst2, hrest⟩ := hst
  cases hst0.symm.trans hst1
  have hbefore : Run.Steps (TxStep Orderly) .empty st0 := by
    refine execs_steps ?_ hst0
    simp [stakeSample, funding, Orderly, Registrable]
  have hregistered : TxStep Orderly st0 st2 :=
    ⟨_, _, registration, .inr (unlisted_of_listings hnone), hst2⟩
  have hafter : Run.Steps (TxStep Orderly) st2 st := by
    have hlast : execs (.plain 5 0) 4 st2 voteSample = .ok st := hrest
    refine execs_steps ?_ hlast
    simp [voteSample, Orderly, Registrable]
  exact (hbefore.tail hregistered).trans hafter

/-- A producer that is removed and registered again has no votes, while alice still votes
    for it. -/
theorem votes_forgotten :
    (execs (.plain 5 0) 4 .empty (stakeSample ++ registration :: voteSample ++
      [⟨[admin], .system (.rmvproducer (N "bpone"))⟩, registration])).map votesOf =
      .ok (some 0, 70) := by
  decide +kernel

end YottaChain.Economy
