/-
  **The recorded weight of a voter is never stale.**

  A voter's weight is its stake and its free deposit.  The stake is changed by the
  system contract, which repeats the vote at once.  The free deposit is a table of
  `hdddeposit`: nine of its actions change it, and each sends `changevotes` for every
  account it changes it for, if that account has voted (`Effect.depositfree`).

  So a weight can be stale only while such a message is in flight, which is what
  `Fresh` says; at the end of a transaction nothing is.
-/
import YottaChain.EconomyEffects
import YottaChain.VotingEffects

namespace YottaChain.HddDeposit

open Checked List

variable {c : Ctx} {token : Token.Tables} {t t' : Tables} {pool pool' : Table Name DepositPool}
  {user u : Name} {quant : Asset} {sent : List Sent}

/-! ## 1. Who is told of a change -/

def freeIn (pool : Table Name DepositPool) (user : Name) : Option Asset :=
  (pool.find user).map DepositPool.depositFree

theorem addTotal_free (pool : Table Name DepositPool) (user : Name) (deposit : Asset) :
    addTotal pool user DepositPool.depositFree deposit =
      (freeIn pool user).elim (.ok deposit) deposit.add := by
  unfold addTotal freeIn
  rcases pool.find user with _ | a
  · rfl
  · rfl

theorem getDepositfree_congr (h0 : freeIn (t'.pool 0) u = freeIn (t.pool 0) u)
    (h1 : freeIn (t'.pool 1) u = freeIn (t.pool 1) u) :
    getDepositfree t' u = getDepositfree t u := by
  have hold : freeIn t'.depositpool u = freeIn t.depositpool u := h0
  have hnew : freeIn t'.depositpool2 u = freeIn t.depositpool2 u := h1
  simp only [getDepositfree, addTotal_free, hold, hnew]

theorem SamePools.depositfree (h : SamePools t t') (u : Name) :
    getDepositfree t' u = getDepositfree t u := by
  refine getDepositfree_congr ?_ ?_
  · exact congrArg (freeIn · u) h.depositpool
  · exact congrArg (freeIn · u) h.depositpool2

theorem freeIn_put_ne (pool : Table Name DepositPool) (a : DepositPool) (hne : u ≠ user) :
    freeIn (pool.put user a) u = freeIn pool u := by
  unfold freeIn
  rw [Table.find_put_ne _ _ hne]

theorem payIn_elsewhere (h : payIn pool user quant = .ok pool') (hne : u ≠ user) :
    freeIn pool' u = freeIn pool u := by
  unfold payIn at h
  rcases hrow : pool.find user with _ | a
  · simp only [hrow] at h
    cases h
    exact freeIn_put_ne _ _ hne
  · simp only [hrow, ok_iff] at h
    obtain ⟨_, _, _, _, _, _, rfl⟩ := h
    exact freeIn_put_ne _ _ hne

theorem payOut_elsewhere (h : payOut pool user quant = .ok pool') (hne : u ≠ user) :
    freeIn pool' u = freeIn pool u := by
  simp only [payOut, ok_iff] at h
  obtain ⟨_, _, _, _, _, _, _, _, _, _, _, rfl⟩ := h
  exact freeIn_put_ne _ _ hne

variable {miner : Miner2Dep}

theorem giveBack_elsewhere (h : giveBack pool miner = .ok pool') (hne : u ≠ miner.accountName) :
    freeIn pool' u = freeIn pool u := by
  unfold giveBack at h
  rcases hrow : pool.find miner.accountName with _ | a
  · simp only [hrow] at h
    cases h
    rfl
  · simp only [hrow, ok_iff] at h
    obtain ⟨_, _, rfl⟩ := h
    exact freeIn_put_ne _ _ hne

variable {msg : String}

theorem leave_elsewhere {newFree : Asset} (h : leave pool miner msg newFree = .ok pool')
    (hne : u ≠ miner.accountName) : freeIn pool' u = freeIn pool u := by
  simp only [leave, ok_iff] at h
  obtain ⟨_, _, _, _, _, rfl⟩ := h
  exact freeIn_put_ne _ _ hne

theorem charge_free (h : charge pool user quant msg = .ok pool') (u : Name) :
    freeIn pool' u = freeIn pool u := by
  simp only [charge, ok_iff] at h
  obtain ⟨a, ha, _, _, _, rfl⟩ := h
  unfold freeIn
  rw [Table.find_put]
  split_ifs with hu
  · rw [hu, ha]
    rfl
  · rfl

theorem getDepositfree_setPool (type : UInt8) (rows : Table UInt64 Miner2Dep)
    (h : freeIn pool u = freeIn (t.pool type) u) :
    getDepositfree { t.setPool type pool with miner2dep := rows } u = getDepositfree t u := by
  by_cases htype : type = 0
  · subst htype
    exact getDepositfree_congr h rfl
  · have hset : t.setPool type pool = { t with depositpool2 := pool } := if_neg htype
    have hpool : t.pool type = t.depositpool2 := if_neg htype
    rw [hset]
    rw [hpool] at h
    exact getDepositfree_congr rfl h

theorem kept_or_told {user : Name} (htold : ∀ x ∈ revote c user, x ∈ sent)
    (hkept : u ≠ user → getDepositfree t' u = getDepositfree t u) :
    getDepositfree t' u = getDepositfree t u ∨ ∀ x ∈ revote c u, x ∈ sent := by
  by_cases hu : u = user
  · exact .inr (hu ▸ htold)
  · exact .inl (hkept hu)

/-- **Every account whose free deposit an action changes is told to vote again**, if it
    has voted. -/
theorem Effect.depositfree (h : Effect c token t a t' sent) (u : Name) :
    getDepositfree t' u = getDepositfree t u ∨ ∀ x ∈ revote c u, x ∈ sent := by
  cases h with
  | idle _ hsame | store hsame | unstore hsame => exact .inl (hsame.depositfree u)
  | pay _ _ _ _ _ hpool =>
    refine kept_or_told (fun _ hx => hx) fun hu => ?_
    exact getDepositfree_setPool 0 t.miner2dep (payIn_elsewhere hpool hu)
  | unpay _ _ hpool =>
    refine kept_or_told (fun _ hx => hx) fun hu => ?_
    exact getDepositfree_setPool 0 t.miner2dep (payOut_elsewhere hpool hu)
  | pay2 _ _ _ hpool =>
    refine kept_or_told (fun _ hx => mem_cons_of_mem _ hx) fun hu => ?_
    exact getDepositfree_setPool 1 t.miner2dep (payIn_elsewhere hpool hu)
  | unpay2 _ _ hpool =>
    refine kept_or_told (fun _ hx => mem_append_left _ hx) fun hu => ?_
    exact getDepositfree_setPool 1 t.miner2dep (payOut_elsewhere hpool hu)
  | lock | raise =>
    refine kept_or_told (fun _ hx => hx) fun hu => ?_
    exact getDepositfree_setPool 1 _ (freeIn_put_ne _ _ hu)
  | migrate =>
    refine kept_or_told (fun _ hx => hx) fun hu => ?_
    exact getDepositfree_congr (freeIn_put_ne _ _ hu) (freeIn_put_ne _ _ hu)
  | forfeit _ _ miner _ _ _ hpool =>
    exact .inl (getDepositfree_setPool miner.minerType _ (charge_free hpool u))
  | delete miner _ _ hpool =>
    refine kept_or_told (fun _ hx => hx) fun hu => ?_
    exact getDepositfree_setPool miner.minerType _ (giveBack_elsewhere hpool hu)
  | move miner _ _ _ _ _ _ hpool =>
    by_cases hold : u = miner.accountName
    · exact .inr fun x hx => mem_append_left _ (hold ▸ hx)
    · refine kept_or_told (fun _ hx => mem_append_right _ hx) fun hnew => ?_
      rw [← getDepositfree_setPool miner.minerType t.miner2dep (leave_elsewhere hpool hold)]
      exact getDepositfree_congr rfl (freeIn_put_ne _ _ hnew)

end YottaChain.HddDeposit

namespace YottaChain.System

open Checked

variable {env : Env} {c : Ctx} {deposit : HddDeposit.Tables} {e e' e1 : Election} {user u : Name}
  {producers : List Name} {voter v : VoterInfo} {weight : ℤ} {missing : Name} {voting : Bool}

/-! ## 2. Weights -/

def Weighed (deposit : HddDeposit.Tables) (u : Name) (v : VoterInfo) : Prop :=
  ∃ free, HddDeposit.getDepositfree deposit u = .ok free ∧
    v.lastVoteWeight = v.staked.toInt + free.amount.toInt

def Renewed (deposit : HddDeposit.Tables) (e e' : Election) : Prop :=
  ∀ u v, e'.voters.find u = some v → v.producers ≠ [] →
    e.voters.find u = some v ∨ Weighed deposit u v

theorem Renewed.of_voters (h : e'.voters = e.voters) : Renewed deposit e e' := by
  intro u v hv _
  rw [h] at hv
  exact .inl hv

/-- A vote brings the row of the voter up to date and leaves the others. -/
theorem Voted.weighed_of_find (h : Voted c deposit e user producers voter weight missing e1 e' voting)
    (hv : e'.voters.find u = some v) :
    (u = user ∧ Weighed deposit u v) ∨ (u ≠ user ∧ e.voters.find u = some v) := by
  have hvoters : e1.voters = e.voters := (voters_applyDeltas h.loop).trans (voters_activate _ _ _)
  rw [h.written] at hv
  dsimp only at hv
  rw [Table.find_adjust, hvoters] at hv
  by_cases hu : u = user
  · subst hu
    rw [if_pos rfl, h.row] at hv
    cases hv
    obtain ⟨free, hfree, hweight⟩ := h.weighed
    exact .inl ⟨rfl, free, hfree, hweight⟩
  · rw [if_neg hu] at hv
    exact .inr ⟨hu, hv⟩

theorem Voted.renewed (h : Voted c deposit e user producers voter weight missing e1 e' voting) :
    Renewed deposit e e' := by
  intro u v hv _
  rcases h.weighed_of_find hv with ⟨_, hweighed⟩ | ⟨_, hsame⟩
  · exact .inr hweighed
  · exact .inl hsame

/-- A changed stake is voted with at once. -/
theorem updateStake_renewed {owner : Name} {net cpu : Asset} (hno : NoProxies e)
    (h : updateStake c deposit e owner net cpu = .ok e') : Renewed deposit e e' := by
  obtain ⟨sum, _, _, hrenew⟩ := updateStake_ok h
  have hothers : ∀ u v, u ≠ owner → (restake e owner sum.amount).voters.find u = some v →
      e.voters.find u = some v := by
    intro u v hu hv
    rw [restake, Table.find_put_ne _ _ hu] at hv
    exact hv
  rcases renewVotes_ok (hno.restake _ _) (restaked_proxy hno _ _).1 hrenew with
    ⟨hempty, rfl⟩ | ⟨row, weight, missing, e1, hvoted⟩
  · intro u v hv hproducers
    by_cases hu : u = owner
    · subst hu
      rw [restake, Table.find_put_self] at hv
      cases hv
      exact absurd hempty hproducers
    · exact .inl (hothers u v hu hv)
  · intro u v hv _
    rcases hvoted.weighed_of_find hv with ⟨_, hweighed⟩ | ⟨hu, hsame⟩
    · exact .inr hweighed
    · exact .inl (hothers u v hu hsame)

theorem ElectionCall.renewed {a : Action} (hno : NoProxies e) (h : ElectionCall env e e' a) :
    Renewed env.deposit e e' := by
  rcases h.voters with hsame | hvote
  · exact .of_voters hsame
  · cases hvote with
    | voteproducer hcall =>
      obtain ⟨voter, weight, missing, e1, hvoted⟩ := voteproducer_ok hno hcall
      exact hvoted.renewed
    | changevotes hcall =>
      rcases changevotes_ok hno hcall with ⟨_, rfl⟩ | ⟨voter, row, weight, missing, e1, _, hvoted⟩
      · exact .of_voters rfl
      · exact hvoted.renewed
    | stake hcall => exact updateStake_renewed hno hcall

/-- `changevotes` leaves the account up to date, if it has voted. -/
theorem changevotes_weighed (hno : NoProxies e) (h : changevotes c deposit e user = .ok e')
    (hv : e'.voters.find user = some v) (hvoted : v.producers ≠ []) : Weighed deposit user v := by
  rcases changevotes_ok hno h with ⟨hnone, rfl⟩ | ⟨voter, row, weight, missing, e1, _, hdone⟩
  · exact absurd (hnone v hv) hvoted
  · rcases hdone.weighed_of_find hv with ⟨_, hweighed⟩ | ⟨hne, _⟩
    · exact hweighed
    · exact absurd rfl hne

theorem apply_changevotes {t t' : Tables} {sent : List Sent}
    (h : apply env t (.changevotes user) = .ok (t', sent)) :
    changevotes env.ctx env.deposit t.election user = .ok t'.election := by
  simp only [apply, bind_eq_ok] at h
  obtain ⟨ram, _, hcall⟩ := h
  exact (withElection_ok hcall).1

end YottaChain.System

namespace YottaChain.Economy

open YottaChain.System

variable {env : System.Env} {st st' : State} {m : Message} {sent rest l : List Message}

/-! ## 3. Transactions -/

structure Fresh (st : State) (l : List Message) : Prop where
  noProxies : NoProxies st.system.election
  weighed : ∀ u v, st.system.election.voters.find u = some v → v.producers ≠ [] →
    Weighed st.ledger.deposit u v ∨ ∃ m ∈ l, m.request = .system (.changevotes u)

variable {u : Name}

theorem pending_of_cons (h : ∃ x ∈ m :: rest, x.request = .system (.changevotes u)) :
    m.request = .system (.changevotes u) ∨
      ∃ x ∈ sent ++ rest, x.request = .system (.changevotes u) := by
  obtain ⟨x, hx, hrequest⟩ := h
  rcases List.mem_cons.mp hx with rfl | hx
  · exact .inl hrequest
  · exact .inr ⟨x, List.mem_append_right _ hx, hrequest⟩

/-- The ledger keeps the free deposit of an account that has voted, or sends for it. -/
theorem depositfree_or_sent {a : Act} {w : Ledger.World} {out : List Ledger.Message} {v : VoterInfo}
    (h : Ledger.Handled env.fp (ledgerEnv (acting env st m.auths)) (acting env st m.auths).ctx
      st.ledger a w out) (hv : st.system.election.voters.find u = some v)
    (hvoted : v.producers ≠ []) :
    HddDeposit.getDepositfree w.deposit u = HddDeposit.getDepositfree st.ledger.deposit u ∨
      ∃ x ∈ out.map Message.ofLedger, x.request = .system (.changevotes u) := by
  cases h with
  | deposit heffect =>
    rcases heffect.depositfree u with hsame | hsent
    · exact .inl hsame
    · right
      have hactive : isActiveVoter st.system.election u = true := by
        rw [isActiveVoter, hv]
        simpa using hvoted
      have hmem := hsent ⟨u, .changevotes u⟩ (by
        rw [HddDeposit.revote, if_pos (show (acting env st m.auths).ctx.isActiveVoter u from hactive)]
        exact List.mem_singleton.mpr rfl)
      exact ⟨_, List.mem_map_of_mem (List.mem_map_of_mem hmem), rfl⟩
  | _ => exact .inl rfl

theorem Handled.fresh (h : Handled env st m st' sent) (hfresh : Fresh st (m :: rest)) :
    Fresh st' (sent ++ rest) := by
  cases h with
  | @ledger a w out hrequest hledger =>
    refine ⟨hfresh.noProxies, fun u v hv hvoted => ?_⟩
    rcases hfresh.weighed u v hv hvoted with ⟨free, hfree, hweight⟩ | hpending
    · rcases depositfree_or_sent hledger hv hvoted with hsame | ⟨x, hx, hchange⟩
      · exact .inl ⟨free, hsame.trans hfree, hweight⟩
      · exact .inr ⟨x, List.mem_append_left _ hx, hchange⟩
    · rcases pending_of_cons hpending with hm | hlater
      · rw [hrequest] at hm
        cases hm
      · exact .inr hlater
  | @system a t out hrequest hcall =>
    have hno := hfresh.noProxies
    have helection := apply_election hcall
    refine ⟨helection.noProxies hno, fun u v hv hvoted => ?_⟩
    rcases helection.renewed hno u v hv hvoted with hold | hweighed
    · rcases hfresh.weighed u v hold hvoted with hweighed | hpending
      · exact .inl hweighed
      · rcases pending_of_cons hpending with hm | hlater
        · rw [hrequest] at hm
          cases hm
          have hchange := apply_changevotes hcall
          exact .inl (changevotes_weighed hno hchange hv hvoted)
        · exact .inr hlater
    · exact .inl hweighed

/-- **Weights are never stale.**  After every transaction of every run that starts without
    voters, whatever the contracts of the ledger hold then, an account that has voted has
    the weight of its stake and its free deposit. -/
theorem voter_weight_current {w : Ledger.World}
    (hrun : Run.Steps (TxStep fun _ _ => True) ⟨w, {}⟩ st) {u : Name} {v : VoterInfo}
    (hv : st.system.election.voters.find u = some v) (hvoted : v.producers ≠ []) :
    ∃ free, HddDeposit.getDepositfree st.ledger.deposit u = .ok free ∧
      v.lastVoteWeight = v.staked.toInt + free.amount.toInt := by
  have hfresh : Fresh st [] := by
    refine Run.invariant (P := fun st => Fresh st []) ?_ ?_ hrun
    · rintro st st' h ⟨env, depth, m, _, hexec⟩
      refine exec_sound (J := Fresh) ?_ ?_ hexec
      · intro st m rest st' sent _ _ hJ hhandled
        exact hhandled.fresh hJ
      · refine ⟨h.noProxies, fun u v hv hvoted => ?_⟩
        rcases h.weighed u v hv hvoted with hweighed | ⟨x, hx, _⟩
        · exact .inl hweighed
        · cases hx
    · refine ⟨fun u v hv => ?_, fun u v hv _ => ?_⟩
      · cases hv
      · cases hv
  rcases hfresh.weighed u v hv hvoted with hweighed | ⟨x, hx, _⟩
  · exact hweighed
  · cases hx

def weightSample : List Message :=
  funding ++
    [⟨[N "alice"], .system (.delegatebw (N "alice") (N "alice") (.core 30) (.core 40) false)⟩,
      ⟨[admin], .system (.regproducer (N "bpone") { type := 1 } [] 0)⟩,
      ⟨[admin], .system (.seqproducer (N "bpone") (N "bpone") 1 2)⟩,
      ⟨[N "alice"], .system (.voteproducer (N "alice") 0 [N "bpone"])⟩,
      ⟨[N "alice"], .ledger (.paydeppool (N "alice") (.core 500))⟩]

/-- Her weight is her stake and her deposit. -/
theorem voter_weight_current_sample : ∃ (st : State) (v : VoterInfo),
    st.system.election.voters.find (N "alice") = some v ∧ v.producers = [N "bpone"] ∧
    v.lastVoteWeight = 570 ∧
    ∃ free, HddDeposit.getDepositfree st.ledger.deposit (N "alice") = .ok free ∧
      v.lastVoteWeight = v.staked.toInt + free.amount.toInt := by
  have hrun : (execs (.plain 5 0) 4 .empty weightSample).map (fun st : State =>
      (st.system.election.voters.find (N "alice")).map fun v => (v.producers, v.lastVoteWeight)) =
      .ok (some ([N "bpone"], 570)) := by
    decide +kernel
  obtain ⟨st, hst, hview⟩ := Checked.exists_of_map_eq_ok hrun
  obtain ⟨v, hv, hpair⟩ := Option.map_eq_some_iff.mp hview
  obtain ⟨hproducers, hweight⟩ := Prod.mk.inj hpair
  have hsteps : Run.Steps (TxStep fun _ _ => True) ⟨.empty, {}⟩ st :=
    execs_steps (fun _ _ _ => trivial) hst
  have hvoted : v.producers ≠ [] := by
    rw [hproducers]
    exact List.cons_ne_nil _ _
  exact ⟨st, v, hv, hproducers, hweight, voter_weight_current hsteps hv hvoted⟩

end YottaChain.Economy
