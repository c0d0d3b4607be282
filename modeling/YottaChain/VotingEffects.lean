/-
  **What a successful action does to the election.**

  No account is a proxy and none votes through one: `regproxy` always fails and a
  vote for a proxy asks that it is registered as one.  Under this invariant
  (`NoProxies`) the parts of a vote about proxies do nothing, and what is left is a
  loop over at most two changes (`applyDelta_ok`) between two writes to the row of
  the voter (`Voted`).  `ElectionCall` lists the functions through which the
  actions of the contract change the election.
-/
import YottaChain.Dispatch
import YottaChain.SystemRun

namespace YottaChain.System

open Checked KeyedList Int64

variable {c : Ctx} {deposit : HddDeposit.Tables} {env : Env} {e e' : Election} {t t' : Tables}
  {voting : Bool} {user proxy : Name} {producers : List Name} {voter : VoterInfo}

/-! ## 1. One change of the votes -/

def relist (e : Election) (p : Name) (totalVotes : ℤ) : Election :=
  if (e.producersext.find p).isSome then updateProducersYtaTotalvotes e p totalVotes else e

def tally (e : Election) (p : Name) (row : ProducerInfo) (delta : ℤ) : Election :=
  relist { e with
    producers := e.producers.put p (addVotes row delta)
    totalProducerVoteWeight := e.totalProducerVoteWeight + delta } p (addVotes row delta).totalVotes

variable {p missing : Name}

theorem applyDelta_ok {missing' : Name} {delta : ℤ} {isNew : Bool}
    (h : applyDelta voting (e, missing) (p, delta, isNew) = .ok (e', missing')) :
    (∃ row, e.producers.find p = some row ∧ e' = tally e p row delta ∧ missing' = missing) ∨
    (e.producers.find p = none ∧ e' = relist e p 0 ∧ missing' = p) := by
  unfold applyDelta at h
  rcases hrow : e.producers.find p with _ | row
  · refine .inr ⟨rfl, ?_⟩
    simp only [hrow, ok_iff] at h
    obtain ⟨⟨e1, m1, votes⟩, ⟨_, hstate⟩, h⟩ := h
    cases hstate
    unfold relist
    rcases hext : e.producersext.find p with _ | x
    · simp only [hext, ok_iff] at h
      exact ⟨h.2.1.symm, h.2.2.symm⟩
    · simp only [hext, pure_eq_ok, Prod.mk.injEq] at h
      exact ⟨h.1.symm, h.2.symm⟩
  · refine .inl ⟨row, rfl, ?_⟩
    simp only [hrow, ok_iff] at h
    obtain ⟨⟨e1, m1, votes⟩, ⟨_, hstate⟩, h⟩ := h
    cases hstate
    unfold tally relist
    rcases hext : e.producersext.find p with _ | x
    · simp only [hext, ok_iff] at h
      exact ⟨h.2.1.symm, h.2.2.symm⟩
    · simp only [hext, pure_eq_ok, Prod.mk.injEq] at h
      exact ⟨h.1.symm, h.2.symm⟩

@[simp] theorem voters_relist (e : Election) (p : Name) (v : ℤ) :
    (relist e p v).voters = e.voters := by
  unfold relist
  split <;> rfl

@[simp] theorem producers_relist (e : Election) (p : Name) (v : ℤ) :
    (relist e p v).producers = e.producers := by
  unfold relist
  split <;> rfl

@[simp] theorem totalProducerVoteWeight_relist (e : Election) (p : Name) (v : ℤ) :
    (relist e p v).totalProducerVoteWeight = e.totalProducerVoteWeight := by
  unfold relist
  split <;> rfl

theorem voters_applyDeltas {deltas : Deltas} {s s' : Election × Name}
    (h : deltas.foldlM (applyDelta voting) s = .ok s') : s'.1.voters = s.1.voters := by
  refine Dispatch.foldlM_invariant (P := fun r => r.1.voters = s.1.voters) ?_ rfl h
  rintro ⟨e, m⟩ ⟨p, delta, isNew⟩ ⟨e', m'⟩ hI hstep
  rcases applyDelta_ok hstep with ⟨row, _, rfl, _⟩ | ⟨_, rfl, _⟩
  · simpa [tally] using hI
  · simpa using hI

/-! ## 2. A vote -/

def NoProxies (e : Election) : Prop :=
  ∀ u v, e.voters.find u = some v → v.proxy = 0 ∧ v.isProxy = false

/-- A recorded vote: the changes are applied and the row of the voter is written. -/
structure Voted (c : Ctx) (deposit : HddDeposit.Tables) (e : Election) (user : Name)
    (producers : List Name) (voter : VoterInfo) (weight : ℤ) (missing : Name)
    (e1 e' : Election) (voting : Bool) : Prop where
  single : producers.length ≤ 1
  row : e.voters.find user = some voter
  weighed : ∃ free, HddDeposit.getDepositfree deposit user = .ok free ∧
    weight = voter.staked.toInt + free.amount.toInt
  loop : (voteDeltas voter 0 producers weight).foldlM (applyDelta voting)
    (activate c.currentTime e voter, 0) = .ok (e1, missing)
  written : e' = { e1 with voters := e1.voters.adjust user (recordVote 0 producers weight missing) }

theorem joinProxy_none {weight : ℤ} (hno : NoProxies e) (hproxy : voting = true ∨ proxy = 0)
    (h : joinProxy e proxy voting weight = .ok e') : proxy = 0 ∧ e' = e := by
  unfold joinProxy at h
  by_cases hzero : proxy = 0
  · rw [if_neg (not_not_intro hzero), pure_eq_ok] at h
    exact ⟨hzero, h.symm⟩
  · have hvoting : voting = true := hproxy.resolve_right hzero
    rw [if_pos hzero] at h
    simp only [ok_iff] at h
    obtain ⟨row, hrow, hisProxy, _⟩ := h
    simp [hvoting, (hno proxy row hrow).2] at hisProxy

theorem leaveProxy_none (hproxy : voter.proxy = 0) (h : leaveProxy e voter = .ok e') : e' = e := by
  unfold leaveProxy at h
  rw [if_neg (fun hc => hc.2 hproxy), pure_eq_ok] at h
  exact h.symm

@[simp] theorem voters_activate (now : UInt64) (e : Election) (voter : VoterInfo) :
    (activate now e voter).voters = e.voters := by
  unfold activate
  split <;> rfl

theorem NoProxies.of_voters (h : NoProxies e) (hsame : e'.voters = e.voters) : NoProxies e' := by
  intro u v hv
  rw [hsame] at hv
  exact h u v hv

theorem updateVotes_ok (hno : NoProxies e) (hproxy : voting = true ∨ proxy = 0)
    (h : updateVotes c deposit e user proxy producers voting = .ok e') :
    proxy = 0 ∧ ∃ voter weight missing e1,
      Voted c deposit e user producers voter weight missing e1 e' voting := by
  simp only [updateVotes, ok_iff] at h
  obtain ⟨_, hballot, voter, hrow, _, weight, hweight, e2, hleave, e3, hjoin, ⟨e1, missing⟩, hloop,
    hwritten⟩ := h
  obtain ⟨hvproxy, hvisProxy⟩ := hno user voter hrow
  have hleft := leaveProxy_none hvproxy hleave
  subst hleft
  have hno' : NoProxies (activate c.currentTime e voter) := hno.of_voters (voters_activate _ _ _)
  obtain ⟨rfl, rfl⟩ := joinProxy_none hno' hproxy hjoin
  refine ⟨rfl, voter, weight, missing, e1, ?_, hrow, ?_, hloop, ?_⟩
  · simp only [checkBallot, ne_eq, not_true_eq_false, if_false, ok_iff] at hballot
    exact hballot.1
  · simp only [voteWeight, hvisProxy, Bool.false_eq_true, if_false, add_zero, ok_iff] at hweight
    obtain ⟨free, hfree, rfl⟩ := hweight
    exact ⟨free, hfree, rfl⟩
  · exact hwritten.symm

/-- A repeated vote: nothing for an account that has not voted. -/
theorem renewVotes_ok (hno : NoProxies e) (hproxy : voter.proxy = 0)
    (h : renewVotes c deposit e user voter = .ok e') :
    (voter.producers = [] ∧ e' = e) ∨ ∃ row weight missing e1,
      Voted c deposit e user voter.producers row weight missing e1 e' false := by
  unfold renewVotes at h
  by_cases hvoted : voter.producers = []
  · simp only [hvoted, hproxy, List.isEmpty_nil, ne_eq, not_true_eq_false, or_false,
      Bool.not_true, Bool.false_eq_true, if_false, pure_eq_ok] at h
    exact .inl ⟨hvoted, h.symm⟩
  · have hvotes : (!voter.producers.isEmpty) = true := by simp [hvoted]
    rw [if_pos (.inl hvotes)] at h
    exact .inr (updateVotes_ok hno (.inr hproxy) h).2

theorem voteproducer_ok (hno : NoProxies e)
    (h : voteproducer c deposit e user proxy producers = .ok e') :
    ∃ voter weight missing e1,
      Voted c deposit e user producers voter weight missing e1 e' true := by
  simp only [voteproducer, bind_eq_ok] at h
  obtain ⟨_, _, h⟩ := h
  exact (updateVotes_ok hno (.inl rfl) h).2

theorem changevotes_ok (hno : NoProxies e) (h : changevotes c deposit e user = .ok e') :
    ((∀ v, e.voters.find user = some v → v.producers = []) ∧ e' = e) ∨
      ∃ voter row weight missing e1, e.voters.find user = some voter ∧
        Voted c deposit e user voter.producers row weight missing e1 e' false := by
  simp only [changevotes, bind_eq_ok] at h
  obtain ⟨_, _, h⟩ := h
  rcases hv : e.voters.find user with _ | voter
  · simp only [hv, pure_eq_ok] at h
    refine .inl ⟨?_, h.symm⟩
    intro v hnone
    cases hnone
  · simp only [hv] at h
    rcases renewVotes_ok hno (hno user voter hv).1 h with ⟨hempty, hsame⟩ | ⟨row, w, m, e1, hvoted⟩
    · refine .inl ⟨?_, hsame⟩
      intro v hsome
      cases hsome
      exact hempty
    · exact .inr ⟨voter, row, w, m, e1, rfl, hvoted⟩

theorem Voted.noProxies {weight : ℤ} {e1 : Election} (hno : NoProxies e)
    (h : Voted c deposit e user producers voter weight missing e1 e' voting) : NoProxies e' := by
  have hvoters : e1.voters = e.voters := (voters_applyDeltas h.loop).trans (voters_activate _ _ _)
  intro u v hv
  rw [h.written] at hv
  dsimp only at hv
  rw [Table.find_adjust, hvoters] at hv
  by_cases hu : u = user
  · subst hu
    rw [if_pos rfl, h.row] at hv
    cases hv
    exact ⟨rfl, (hno u voter h.row).2⟩
  · rw [if_neg hu] at hv
    exact hno u v hv

/-! ## 3. The actions -/

def restaked (e : Election) (owner : Name) (amount : Int64) : VoterInfo :=
  match e.voters.find owner with
  | none => { staked := amount }
  | some v => { v with staked := v.staked + amount }

def restake (e : Election) (owner : Name) (amount : Int64) : Election :=
  { e with voters := e.voters.put owner (restaked e owner amount) }

variable {cpu net : Asset}

theorem updateStake_ok {owner : Name} (h : updateStake c deposit e owner net cpu = .ok e') :
    ∃ sum, net.add cpu = .ok sum ∧ 0 ≤ (restaked e owner sum.amount).staked ∧
      renewVotes c deposit (restake e owner sum.amount) owner (restaked e owner sum.amount)
        = .ok e' := by
  simp only [updateStake, ok_iff] at h
  obtain ⟨sum, hsum, hstaked, hrenew⟩ := h
  exact ⟨sum, hsum, hstaked, hrenew⟩

theorem restaked_proxy (hno : NoProxies e) (owner : Name) (amount : Int64) :
    (restaked e owner amount).proxy = 0 ∧ (restaked e owner amount).isProxy = false := by
  unfold restaked
  rcases hv : e.voters.find owner with _ | v
  · exact ⟨rfl, rfl⟩
  · exact hno owner v hv

theorem NoProxies.restake (hno : NoProxies e) (owner : Name) (amount : Int64) :
    NoProxies (restake e owner amount) := by
  intro u v hv
  rw [System.restake, Table.find_put] at hv
  by_cases hu : u = owner
  · rw [if_pos hu] at hv
    cases hv
    exact restaked_proxy hno owner amount
  · rw [if_neg hu] at hv
    exact hno u v hv

def putProducer (e : Election) (p : Name) (info : ProducerInfo) : Election :=
  { e with producers := e.producers.put p info }

theorem regproducer_ok {key : PublicKey} {url : Text} {location : UInt16}
    (h : regproducer c e p key url location = .ok e') :
    (∃ info, e.producers.find p = some info ∧
      e' = editProducer
        (putProducer e p { info with producerKey := key, isActive := true, location := location }) p
        fun q => some { q with isActive := true, producerKey := key }) ∨
    (e.producers.find p = none ∧
      e' = putProducer e p { producerKey := key, location := location }) := by
  simp only [regproducer, ok_iff] at h
  obtain ⟨_, _, _, h⟩ := h
  rcases hp : e.producers.find p with _ | info
  · simp only [hp, pure_eq_ok] at h
    exact .inr ⟨rfl, h.symm⟩
  · simp only [hp, pure_eq_ok, changeProducerYtaInfo, if_true] at h
    exact .inl ⟨info, rfl, h.symm⟩

theorem rmvproducer_ok (h : rmvproducer c e p = .ok e') :
    ∃ info, e.producers.find p = some info ∧
      e' = delproducer (putProducer e p { info with producerKey := {}, isActive := false }) p := by
  simp only [rmvproducer, ok_iff] at h
  obtain ⟨_, info, hp, h⟩ := h
  simp only [changeProducerYtaInfo, Bool.false_eq_true, if_false] at h
  exact ⟨info, hp, h.symm⟩

@[simp] theorem voters_delproducer (e : Election) (p : Name) :
    (delproducer e p).voters = e.voters := by
  have herase : (eraseProducer e p).voters = e.voters := by
    unfold eraseProducer
    split <;> rfl
  unfold delproducer
  dsimp only
  split
  · exact herase
  · exact herase

def putExt (e : Election) (p : Name) (x : ProducerInfoExt) : Election :=
  { e with producersext := e.producersext.put p x }

variable {level : UInt8}

/-- A level is given to a registered producer, after its entry was taken off the
    lists if it had one. -/
theorem seqproducer_ok {shadow : Name} {seq : UInt16}
    (h : seqproducer c e p shadow seq level = .ok e') :
    ∃ x, (e.producersext.find p = none ∧ addProducerYta (putExt e p x) p level = .ok e') ∨
      ((e.producersext.find p).isSome ∧
        addProducerYta (rmProducerYta (putExt e p x) p) p level = .ok e') := by
  simp only [seqproducer, ok_iff] at h
  obtain ⟨_, _, _, _, h⟩ := h
  rcases hx : e.producersext.find p with _ | x
  · simp only [hx] at h
    exact ⟨_, .inl ⟨rfl, h⟩⟩
  · simp only [hx] at h
    exact ⟨_, .inr ⟨rfl, h⟩⟩

def Election.levels (e : Election) : AllProdsLevel := e.prodslevel.getD {}

def newEntry (p : Name) (info : ProducerInfo) : YtaProdInfo :=
  ⟨p, info.totalVotes, info.producerKey, info.isActive, info.location, false, 0⟩

theorem addProducerYta_ok (h : addProducerYta e p level = .ok e') :
    ∃ info s, e.producers.find p = some info ∧ e' = { e with prodslevel := some s } ∧
      (s = e.levels ∨
        (e.levels.prodsL1.length < levelOneMax ∧
          s = { e.levels with prodsL1 := e.levels.prodsL1 ++ [newEntry p info] }) ∨
        (e.levels.prodsL2.length < levelTwoMax ∧
          s = { e.levels with prodsL2 := e.levels.prodsL2 ++ [newEntry p info] })) := by
  simp only [addProducerYta, ok_iff] at h
  obtain ⟨info, hp, h⟩ := h
  by_cases h1 : level = 1
  · simp only [h1, if_true, ok_iff] at h
    exact ⟨info, _, hp, h.2.symm, .inr (.inl ⟨h.1, rfl⟩)⟩
  · by_cases h2 : level = 2
    · rw [if_neg h1, if_pos h2] at h
      simp only [ok_iff] at h
      exact ⟨info, _, hp, h.2.symm, .inr (.inr ⟨h.1, rfl⟩)⟩
    · simp only [h1, h2, if_false, pure_eq_ok] at h
      exact ⟨info, _, hp, h.symm, .inl rfl⟩

theorem reprodlevel_ok {sorter : Sorter} {pay : Pay} (h : reprodlevel c sorter pay e = .ok e') :
    e' = e ∨ e' = updateProducerLevel sorter c.currentTime e := by
  simp only [reprodlevel, bind_eq_ok] at h
  obtain ⟨_, _, h⟩ := h
  split at h
  · exact .inl (pure_eq_ok.mp h).symm
  · exact .inr (pure_eq_ok.mp h).symm

theorem updateProducerLevel_eq (sorter : Sorter) (now : UInt64) (e : Election) :
    updateProducerLevel sorter now e = e ∨
      ∃ s, e.prodslevel = some s ∧
        updateProducerLevel sorter now e = { e with prodslevel := some (relevel sorter now s).1 } := by
  unfold updateProducerLevel
  rcases e.prodslevel with _ | s
  · exact .inl rfl
  · dsimp only
    split
    · exact .inr ⟨s, rfl, rfl⟩
    · exact .inl rfl

structure SameElection (e e' : Election) : Prop where
  voters : e'.voters = e.voters
  producers : e'.producers = e.producers
  producersext : e'.producersext = e.producersext
  prodslevel : e'.prodslevel = e.prodslevel
  totalProducerVoteWeight : e'.totalProducerVoteWeight = e.totalProducerVoteWeight

inductive VoteCall (env : Env) (e e' : Election) : Prop
  | voteproducer {u through : Name} {ballot : List Name}
      (h : voteproducer env.ctx env.deposit e u through ballot = .ok e')
  | changevotes {u : Name} (h : changevotes env.ctx env.deposit e u = .ok e')
  | stake {owner : Name} {net cpu : Asset}
      (h : updateStake env.ctx env.deposit e owner net cpu = .ok e')

inductive ElectionCall (env : Env) (e e' : Election) : Action → Prop
  | aside {a} (hsame : SameElection e e') : ElectionCall env e e' a
  | vote {a} (h : VoteCall env e e') : ElectionCall env e e' a
  | regproducer {p : Name} {key : PublicKey} {url : Text} {location : UInt16}
      (h : regproducer env.ctx e p key url location = .ok e') :
      ElectionCall env e e' (.regproducer p key url location)
  | seqproducer {p shadow : Name} {seq : UInt16} {level : UInt8}
      (h : seqproducer env.ctx e p shadow seq level = .ok e') :
      ElectionCall env e e' (.seqproducer p shadow seq level)
  | rmvproducer {p : Name} (h : rmvproducer env.ctx e p = .ok e') :
      ElectionCall env e e' (.rmvproducer p)
  | reprodlevel {pay : Pay} (h : reprodlevel env.ctx env.sorter pay e = .ok e') :
      ElectionCall env e e' .reprodlevel

theorem SameElection.refl (e : Election) : SameElection e e := ⟨rfl, rfl, rfl, rfl, rfl⟩

/-- What a changed stake and a recorded vote keep, every change of the voters keeps. -/
theorem VoteCall.rule {P : Election → Prop} (hno : NoProxies e)
    (hrestake : ∀ owner amount, 0 ≤ (restaked e owner amount).staked → P (restake e owner amount))
    (hvoted : ∀ e0 user producers voter weight missing e1 e2 voting, NoProxies e0 → P e0 →
      Voted env.ctx env.deposit e0 user producers voter weight missing e1 e2 voting → P e2)
    (hP : P e) (h : VoteCall env e e') : P e' := by
  cases h with
  | voteproducer h =>
    obtain ⟨voter, weight, missing, e1, hdone⟩ := voteproducer_ok hno h
    exact hvoted _ _ _ _ _ _ _ _ _ hno hP hdone
  | changevotes h =>
    rcases changevotes_ok hno h with ⟨_, rfl⟩ | ⟨voter, row, weight, missing, e1, _, hdone⟩
    · exact hP
    · exact hvoted _ _ _ _ _ _ _ _ _ hno hP hdone
  | stake h =>
    obtain ⟨sum, _, hstaked, hrenew⟩ := updateStake_ok h
    have hstake := hrestake _ _ hstaked
    rcases renewVotes_ok (hno.restake _ _) (restaked_proxy hno _ _).1 hrenew with
      ⟨_, rfl⟩ | ⟨row, weight, missing, e1, hdone⟩
    · exact hstake
    · exact hvoted _ _ _ _ _ _ _ _ _ (hno.restake _ _) hstake hdone

variable {a : Action}

/-- The rows of the voters change only with a vote and with a stake. -/
theorem ElectionCall.voters (h : ElectionCall env e e' a) :
    e'.voters = e.voters ∨ VoteCall env e e' := by
  cases h with
  | aside hsame => exact .inl hsame.voters
  | vote h => exact .inr h
  | regproducer h =>
    left
    rcases regproducer_ok h with ⟨info, _, rfl⟩ | ⟨_, rfl⟩
    · rfl
    · rfl
  | seqproducer h =>
    left
    obtain ⟨x, ⟨_, h⟩ | ⟨_, h⟩⟩ := seqproducer_ok h
    · obtain ⟨_, _, _, rfl, _⟩ := addProducerYta_ok h
      rfl
    · obtain ⟨_, _, _, rfl, _⟩ := addProducerYta_ok h
      rfl
  | rmvproducer h =>
    left
    obtain ⟨info, _, rfl⟩ := rmvproducer_ok h
    exact voters_delproducer _ _
  | reprodlevel h =>
    left
    rcases reprodlevel_ok h with rfl | rfl
    · rfl
    · rcases updateProducerLevel_eq env.sorter env.ctx.currentTime e with hsame | ⟨s, _, hset⟩
      · rw [hsame]
      · rw [hset]

/-- Every action keeps the accounts from being proxies. -/
theorem ElectionCall.noProxies (hno : NoProxies e) (h : ElectionCall env e e' a) :
    NoProxies e' := by
  rcases h.voters with hsame | hvote
  · exact hno.of_voters hsame
  · refine hvote.rule hno (fun owner amount _ => hno.restake owner amount) ?_ hno
    intro e0 user producers voter weight missing e1 e2 voting hno0 _ hdone
    exact hdone.noProxies hno0

variable {sent : List Sent}

theorem withElection_ok {r : Checked Election} (h : t.withElection r = .ok (t', sent)) :
    r = .ok t'.election ∧ t' = { t with election := t'.election } ∧ sent = [] := by
  simp only [Tables.withElection, ok_iff] at h
  obtain ⟨e, he, rfl, rfl⟩ := h
  exact ⟨he, rfl, rfl⟩

theorem withStakes_ok {r : Checked (Stakes × List Sent)} (h : t.withStakes r = .ok (t', sent)) :
    r = .ok (⟨t'.staking, t'.election⟩, sent) ∧
      t' = { t with staking := t'.staking, election := t'.election } := by
  simp only [Tables.withStakes, ok_iff] at h
  obtain ⟨⟨s, sent1⟩, hs, rfl, rfl⟩ := h
  exact ⟨hs, rfl⟩

theorem withStaking_ok {r : Checked (Staking × List Sent)} (h : t.withStaking r = .ok (t', sent)) :
    r = .ok (t'.staking, sent) ∧ t' = { t with staking := t'.staking } := by
  simp only [Tables.withStaking, ok_iff] at h
  obtain ⟨⟨s, sent1⟩, hs, rfl, rfl⟩ := h
  exact ⟨hs, rfl⟩

theorem withMemory_ok {r : Checked (Memory × List Sent)} (h : t.withMemory r = .ok (t', sent)) :
    r = .ok (⟨t'.ram, t'.staking.userres⟩, sent) ∧
      t' = { t with ram := t'.ram, staking := { t.staking with userres := t'.staking.userres } } := by
  simp only [Tables.withMemory, ok_iff] at h
  obtain ⟨⟨m, sent1⟩, hm, rfl, rfl⟩ := h
  exact ⟨hm, rfl⟩

variable {s s' : Stakes} {receiver source : Name} {transfer : Bool}

theorem changebw_ok (h : changebw c deposit s source receiver net cpu transfer = .ok (s', sent)) :
    c.hasAuth source = true ∧ checkYtaAccount receiver = .ok () ∧ ∃ s1 s2,
      updateDelegation s.staking (if transfer then receiver else source) receiver net cpu
        = .ok s1 ∧
      updateTotals s1 receiver net cpu = .ok s2 ∧
      settle c.now s2 source (if transfer then receiver else source) receiver net cpu transfer
        = .ok (s'.staking, sent) ∧
      updateStake c deposit s.election (if transfer then receiver else source) net cpu
        = .ok s'.election := by
  simp only [changebw, ok_iff] at h
  obtain ⟨hauth, _, _, _, _, _, _, ⟨⟩, hreceiver, s1, hs1, s2, hs2, ⟨s3, sent3⟩, hs3, e, he, rfl,
    rfl⟩ := h
  exact ⟨hauth, hreceiver, s1, s2, hs1, hs2, hs3, he⟩

/-- What a change of the stake amounts to when the checks are passed: both parts are in
    the core token and have one sign, and their sum is in range. -/
structure StakeChange (net cpu : Asset) : Prop where
  netSymbol : net.symbol = coreSymbol
  cpuSymbol : cpu.symbol = coreSymbol
  sameSign : (0 ≤ net.value ∧ 0 ≤ cpu.value ∧ 0 < net.value + cpu.value) ∨
    (net.value ≤ 0 ∧ cpu.value ≤ 0 ∧ net.value + cpu.value < 0)
  bounded : -(2 ^ 62 - 1) ≤ net.value + cpu.value ∧ net.value + cpu.value ≤ 2 ^ 62 - 1

theorem stakeChange_of_checks {a b : Asset} (ha : (Asset.core 0).symbol = a.symbol)
    (hb : (Asset.core 0).symbol = b.symbol) (hapos : 0 ≤ a.amount) (hbpos : 0 ≤ b.amount)
    (hsum : ∃ sum, a.add b = .ok sum ∧ 0 < sum.amount) :
    StakeChange a b ∧ 0 < a.value + b.value := by
  obtain ⟨sum, hadd, hpos⟩ := hsum
  simp only [Asset.add, ok_iff] at hadd
  obtain ⟨_, hlo, hhi, rfl⟩ := hadd
  have hwindow := Asset.within_iff.mp ⟨hlo, hhi⟩
  dsimp only at hpos
  rw [le_iff_toInt_le, toInt_zero] at hapos hbpos
  rw [lt_iff_toInt_lt, toInt_zero] at hpos
  have halt := toInt_lt a.amount
  have hblt := toInt_lt b.amount
  unfold FixedWidth.InWindow at hwindow
  rw [toInt_add, Int.bmod_def] at hwindow hpos
  have hvalues : 0 < a.value + b.value ∧ a.value + b.value ≤ 2 ^ 62 - 1 := by
    unfold Asset.value
    omega
  exact ⟨⟨ha.symm, hb.symm, .inl ⟨hapos, hbpos, hvalues.1⟩, by omega, hvalues.2⟩, hvalues.1⟩

theorem delegatebw_ok (h : delegatebw env s source receiver net cpu transfer = .ok (s', sent)) :
    StakeChange net cpu ∧ 0 < net.value + cpu.value ∧ (transfer = false ∨ source ≠ receiver) ∧
      changebw env.ctx env.deposit s source receiver net cpu transfer = .ok (s', sent) := by
  simp only [delegatebw, Asset.ge, Asset.lt_eq_ok, ok_iff] at h
  obtain ⟨_, ⟨hcpusym, rfl⟩, hcpu, _, ⟨hnetsym, rfl⟩, hnet, stake, hstake, _, ⟨_, rfl⟩, hpos, hself,
    _, _, hchange⟩ := h
  simp only [decide_eq_true_eq] at hcpu hnet hpos
  obtain ⟨hstakes, hsum⟩ := stakeChange_of_checks hnetsym.symm hcpusym.symm hnet hcpu
    ⟨stake, hstake, hpos⟩
  exact ⟨hstakes, hsum, hself, hchange⟩

theorem undelegatebw_ok (h : undelegatebw env s source receiver net cpu = .ok (s', sent)) :
    StakeChange net.neg cpu.neg ∧ net.neg.value + cpu.neg.value < 0 ∧
      changebw env.ctx env.deposit s source receiver net.neg cpu.neg false = .ok (s', sent) := by
  simp only [undelegatebw, Asset.le_eq_ok, Asset.lt_eq_ok, ok_iff] at h
  obtain ⟨_, ⟨hcpusym, rfl⟩, hcpu, _, ⟨hnetsym, rfl⟩, hnet, stake, hstake, _, ⟨_, rfl⟩, hpos, _,
    hchange⟩ := h
  simp only [decide_eq_true_eq] at hcpu hnet hpos
  obtain ⟨hstakes, hsum⟩ := stakeChange_of_checks hcpusym hnetsym hcpu hnet ⟨stake, hstake, hpos⟩
  obtain ⟨hcpu0, hnet0, _⟩ : 0 ≤ cpu.value ∧ 0 ≤ net.value ∧ 0 < cpu.value + net.value := by
    have hsign := hstakes.sameSign
    omega
  have hbound := hstakes.bounded
  have hnetneg := Asset.value_neg (a := net) (by unfold Asset.value at *; exact ⟨by omega, by omega⟩)
  have hcpuneg := Asset.value_neg (a := cpu) (by unfold Asset.value at *; exact ⟨by omega, by omega⟩)
  refine ⟨⟨hstakes.cpuSymbol, hstakes.netSymbol, .inr ?_, ?_⟩, ?_, hchange⟩
  · omega
  · omega
  · omega

theorem sameElection_schedule (sorter : Sorter) (e : Election) (slot : UInt32) :
    SameElection e (updateElectedProducersYta sorter e slot) := ⟨rfl, rfl, rfl, rfl, rfl⟩

theorem onblock_ok {slot : UInt32} (h : onblock env t slot = .ok (t', sent)) :
    (t' = { t with
        election := updateElectedProducersYta env.sorter t.election slot
        names := closeAuction env.ctx.currentTime t.election.threshActivatedStakeTime slot t.names } ∧
      sent = []) ∨ (t' = t ∧ sent = poolDuty env.hddpool slot) := by
  simp only [onblock, ok_iff] at h
  obtain ⟨_, h⟩ := h
  split at h
  · simp only [ok_iff] at h
    exact .inl ⟨h.1.symm, h.2.symm⟩
  · simp only [ok_iff] at h
    exact .inr ⟨h.1.symm, h.2.symm⟩

theorem dispatch_election (h : dispatch env t a = .ok (t', sent)) :
    ElectionCall env t.election t'.election a := by
  cases a with
  | newaccount =>
    simp only [dispatch, newaccount, ok_iff] at h
    obtain ⟨_, _, _, _, rfl, _⟩ := h
    exact .aside (.refl _)
  | setram _ | bidname _ _ _ | rewardprods | startreward =>
    simp only [dispatch, ok_iff] at h
    obtain ⟨_, _, rfl, _⟩ := h
    exact .aside (.refl _)
  | rmvproducer => exact .rmvproducer (withElection_ok h).1
  | buyrambytes _ _ _ | buyram _ _ _ | sellram _ _ =>
    rw [(withMemory_ok h).2]
    exact .aside (.refl _)
  | delegatebw =>
    obtain ⟨_, _, _, hchange⟩ := delegatebw_ok (withStakes_ok h).1
    obtain ⟨_, _, _, _, _, _, _, hstake⟩ := changebw_ok hchange
    exact .vote (.stake hstake)
  | undelegatebw =>
    obtain ⟨_, _, hchange⟩ := undelegatebw_ok (withStakes_ok h).1
    obtain ⟨_, _, _, _, _, _, _, hstake⟩ := changebw_ok hchange
    exact .vote (.stake hstake)
  | refund _ | deferredRefund _ =>
    rw [(withStaking_ok h).2]
    exact .aside (.refl _)
  | regproducer => exact .regproducer (withElection_ok h).1
  | unregprod _ | regproxy _ _ | claimrewards _ => cases h
  | voteproducer => exact .vote (.voteproducer (withElection_ok h).1)
  | changevotes => exact .vote (.changevotes (withElection_ok h).1)
  | seqproducer => exact .seqproducer (withElection_ok h).1
  | reprodlevel => exact .reprodlevel (withElection_ok h).1
  | setautosche =>
    have hset := (withElection_ok h).1
    simp only [setautosche, ok_iff] at hset
    obtain ⟨_, hset⟩ := hset
    rw [← hset]
    exact .aside ⟨rfl, rfl, rfl, rfl, rfl⟩
  | onblock =>
    rcases onblock_ok h with ⟨rfl, _⟩ | ⟨rfl, _⟩
    · exact .aside (sameElection_schedule _ _ _)
    · exact .aside (.refl _)

theorem apply_election (h : apply env t a = .ok (t', sent)) :
    ElectionCall env t.election t'.election a := by
  simp only [apply, bind_eq_ok] at h
  obtain ⟨ram, _, hcall⟩ := h
  have hcalled := dispatch_election hcall
  exact hcalled

end YottaChain.System
