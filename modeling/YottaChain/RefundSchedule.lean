/-
  **A pending refund is scheduled to be paid, with an exception.**

  A change of the stake either touches the refund of the stake owner, and then
  schedules it anew or cancels what was scheduled as the refund is there or not; or
  it does not touch it, and cancels what was scheduled all the same.  The second
  happens when tokens are staked for another account, or given to it: a refund that
  was pending is then not scheduled any more.

  A refund that is called directly, not by the scheduled transaction, leaves that
  transaction behind.
-/
import YottaChain.StakingEffects

namespace YottaChain.System

open Checked

variable {env : Env} {s s' : Staking} {t t' : Tables} {net cpu : Asset} {direct : Bool}
  {source owner receiver : Name} {transfer : Bool} {now : UInt32} {sent : List Sent}

/-- The refunds are amounts, each is scheduled, and unless refunds are called directly
    nothing else is. -/
structure ScheduleLaw (direct : Bool) (s : Staking) : Prop where
  held : RefundsHeld s
  scheduled : ∀ u, (s.refunds.find u).isSome → (s.deferred.find u).isSome
  pending : direct = false → ∀ u, (s.deferred.find u).isSome → (s.refunds.find u).isSome

theorem scheduleLaw_empty (direct : Bool) : ScheduleLaw direct {} := by
  refine ⟨fun u r hr => ?_, fun u hu => ?_, fun _ u hu => ?_⟩
  · cases hr
  · cases hu
  · cases hu

theorem ScheduleLaw.congr (h : ScheduleLaw direct s) (hrefunds : s'.refunds = s.refunds)
    (hdeferred : s'.deferred = s.deferred) : ScheduleLaw direct s' := by
  refine ⟨fun u r hr => ?_, fun u hu => ?_, fun hdirect u hu => ?_⟩
  · exact h.held u r (hrefunds ▸ hr)
  · rw [hdeferred]
    exact h.scheduled u (hrefunds ▸ hu)
  · rw [hrefunds]
    exact h.pending hdirect u (hdeferred ▸ hu)

/-- A change of the stake that touches the refund of the owner, or finds none, keeps the law. -/
theorem ScheduleLaw.settle (h : ScheduleLaw direct s) (hchange : StakeChange net cpu)
    (hsafe : source = stakeAccount ∨ touchesRefund owner receiver net cpu transfer = true ∨
      s.refunds.find owner = none)
    (hcall : settle now s source owner receiver net cpu transfer = .ok (s', sent)) :
    ScheduleLaw direct s' := by
  have hheld := settle_held hchange h.held hcall
  unfold System.settle at hcall
  split_ifs at hcall with hsource
  · obtain ⟨after, _, _, _, _, _, ⟨_, _, rfl⟩ | ⟨hnot, _, _, rfl⟩⟩ :=
      settleRefund_ok hchange h.held hcall
    · have hrefunds := fun u => find_storeRefund s owner u after
      have hdeferred := fun u => find_schedule now (storeRefund s owner after) owner u after.isSome
      refine ⟨hheld, fun u hu => ?_, fun hdirect u hu => ?_⟩
      · have hu' : ((storeRefund s owner after).refunds.find u).isSome := hu
        rw [hrefunds] at hu'
        rw [hdeferred]
        split
        · rename_i heq
          rw [if_pos heq] at hu'
          rw [if_pos hu']
          rfl
        · rename_i hne
          rw [if_neg hne] at hu'
          exact h.scheduled u hu'
      · have hgoal : ((storeRefund s owner after).refunds.find u).isSome := by
          rw [hdeferred] at hu
          rw [hrefunds]
          split
          · rename_i heq
            rw [if_pos heq] at hu
            by_cases hsome : after.isSome
            · exact hsome
            · rw [if_neg hsome] at hu
              cases hu
          · rename_i hne
            rw [if_neg hne] at hu
            exact h.pending hdirect u hu
        exact hgoal
    · -- The refund is not touched, so there is none.
      have hnone : s.refunds.find owner = none := by
        rcases hsafe with hstake | htouch | hnone
        · exact absurd hstake hsource
        · rw [hnot] at htouch
          cases htouch
        · exact hnone
      have hdeferred := fun u => find_schedule now s owner u false
      refine ⟨hheld, fun u hu => ?_, fun hdirect u hu => ?_⟩
      · have hu' : (s.refunds.find u).isSome := hu
        rw [hdeferred]
        split
        · rename_i heq
          rw [heq, hnone] at hu'
          cases hu'
        · exact h.scheduled u hu'
      · rw [hdeferred] at hu
        split at hu
        · cases hu
        · exact h.pending hdirect u hu
  · simp only [ok_iff] at hcall
    exact hcall.1 ▸ h

variable {c : Ctx}

theorem ScheduleLaw.changebw {deposit : HddDeposit.Tables} {a a' : Stakes}
    (h : ScheduleLaw direct a.staking) (hchange : StakeChange net cpu)
    (hsafe : source = stakeAccount ∨
      touchesRefund (if transfer then receiver else source) receiver net cpu transfer = true ∨
      a.staking.refunds.find (if transfer then receiver else source) = none)
    (hcall : changebw c deposit a source receiver net cpu transfer = .ok (a', sent)) :
    ScheduleLaw direct a'.staking := by
  obtain ⟨_, _, s1, s2, hs1, hs2, hsettle, _⟩ := changebw_ok hcall
  have hframe1 := updateDelegation_frame hs1
  have hframe2 := updateTotals_frame hs2
  have hrefunds : s2.refunds = a.staking.refunds := by
    rw [hframe2, hframe1]
  have hdeferred : s2.deferred = a.staking.deferred := by
    rw [hframe2, hframe1]
  exact (h.congr hrefunds hdeferred).settle hchange (hrefunds ▸ hsafe) hsettle

/-- The refund and the transaction that pays it go together. -/
theorem ScheduleLaw.deferredRefund (h : ScheduleLaw direct s)
    (hcall : deferredRefund c s owner = .ok (s', sent)) : ScheduleLaw direct s' := by
  obtain ⟨s1, hrefund, rfl⟩ := deferredRefund_ok hcall
  obtain ⟨_, _, _, _, _, rfl, _⟩ := refund_ok hrefund
  refine ⟨held_erase h.held, fun u hu => ?_, fun hdirect u hu => ?_⟩
  · rw [Table.find_erase] at hu ⊢
    split_ifs at hu with hne
    · cases hu
    · rw [if_neg hne]
      exact h.scheduled u hu
  · rw [Table.find_erase] at hu ⊢
    split_ifs at hu with hne
    · cases hu
    · rw [if_neg hne]
      exact h.pending hdirect u hu

/-- A direct refund takes the row and leaves the transaction. -/
theorem ScheduleLaw.refund (h : ScheduleLaw true s) (hcall : refund c s owner = .ok (s', sent)) :
    ScheduleLaw true s' := by
  obtain ⟨_, _, _, _, _, rfl, _⟩ := refund_ok hcall
  refine ⟨held_erase h.held, fun u hu => ?_, fun hdirect => by cases hdirect⟩
  rw [Table.find_erase] at hu
  split at hu
  · cases hu
  · exact h.scheduled u hu

/-! ## 2. Runs -/

/-- A stake goes to another account only while its owner has no refund pending, and
    refunds are called directly only if that is allowed. -/
def Ordinary (direct : Bool) (t : Tables) : Action → Prop
  | .delegatebw source receiver _ _ transfer =>
      source = stakeAccount ∨ (transfer = false ∧ source = receiver) ∨
        t.staking.refunds.find (if transfer then receiver else source) = none
  | .refund _ => direct = true
  | _ => True

def OrdinaryStep (direct : Bool) (t t' : Tables) : Prop :=
  ∃ env a sent, Ordinary direct t a ∧ apply env t a = .ok (t', sent)

theorem dispatch_scheduleLaw {a : Action} (h : ScheduleLaw direct t.staking)
    (hordinary : Ordinary direct t a) (hcall : dispatch env t a = .ok (t', sent)) :
    ScheduleLaw direct t'.staking := by
  by_cases hmoves : movesStake a = false
  · have hsame := dispatch_sameStaking hmoves hcall
    exact h.congr hsame.refunds hsame.deferred
  · cases a with
    | delegatebw =>
      obtain ⟨hchange, _, _, hbw⟩ := delegatebw_ok (withStakes_ok hcall).1
      refine ScheduleLaw.changebw (a := t.stakes) h hchange ?_ hbw
      rcases hordinary with hstake | ⟨htransfer, hself⟩ | hnone
      · exact .inl hstake
      · refine .inr (.inl ?_)
        simp [touchesRefund, htransfer, hself]
      · exact .inr (.inr hnone)
    | undelegatebw =>
      obtain ⟨hchange, hneg, hbw⟩ := undelegatebw_ok (withStakes_ok hcall).1
      refine ScheduleLaw.changebw (a := t.stakes) h hchange (.inr (.inl ?_)) hbw
      exact touchesRefund_of_neg hchange hneg
    | refund =>
      have hdirect : direct = true := hordinary
      subst hdirect
      exact h.refund (withStaking_ok hcall).1
    | deferredRefund => exact h.deferredRefund (withStaking_ok hcall).1
    | _ => exact absurd rfl hmoves

theorem scheduleLaw_run (hrun : Run.Steps (OrdinaryStep direct) {} t) :
    ScheduleLaw direct t.staking := by
  refine Run.invariant (P := fun t : Tables => ScheduleLaw direct t.staking) ?_
    (scheduleLaw_empty direct) hrun
  rintro t t' h ⟨env, a, sent, hordinary, hcall⟩
  simp only [apply, bind_eq_ok] at hcall
  obtain ⟨ram, _, hcall⟩ := hcall
  refine dispatch_scheduleLaw (t := { t with ram := ram }) h ?_ hcall
  cases a with
  | delegatebw | refund => exact hordinary
  | _ => trivial

/-- **Refunds and their transactions.**  As long as no stake is given to another account
    while its owner has a refund pending, every refund is scheduled; and if refunds are
    only paid by the scheduled transactions, nothing else is scheduled. -/
theorem refund_scheduled (hrun : Run.Steps (OrdinaryStep direct) {} t) (u : Name) :
    ((t.staking.refunds.find u).isSome → (t.staking.deferred.find u).isSome) ∧
      (direct = false →
        ((t.staking.refunds.find u).isSome ↔ (t.staking.deferred.find u).isSome)) := by
  have hlaw := scheduleLaw_run hrun
  exact ⟨hlaw.scheduled u, fun hdirect => ⟨hlaw.scheduled u, hlaw.pending hdirect u⟩⟩

def refundSample : List Action :=
  [.delegatebw (N "alice") (N "alice") (.core 30) (.core 40) false,
    .undelegatebw (N "alice") (N "alice") (.core 10) (.core 10)]

def refundOfAlice (t : Tables) : Bool × Bool :=
  ((t.staking.refunds.find (N "alice")).isSome, (t.staking.deferred.find (N "alice")).isSome)

/-- The withdrawn tokens are pending and scheduled. -/
theorem refund_scheduled_sample : ∃ t, refundOfAlice t = (true, true) ∧
    ((t.staking.refunds.find (N "alice")).isSome ↔ (t.staking.deferred.find (N "alice")).isSome) := by
  have hrun : (runActions {} (refundSample.map fun a => (Env.plain 5 0, a))).map refundOfAlice =
      .ok (true, true) := by
    decide +kernel
  obtain ⟨t2, hcalls, hpair⟩ := exists_of_map_eq_ok hrun
  refine ⟨t2, hpair, ?_⟩
  simp only [refundSample, List.map_cons, List.map_nil, runActions, bind_eq_ok] at hcalls
  obtain ⟨⟨t1, sent1⟩, hdelegate, ⟨t2', sent2⟩, hundelegate, hend⟩ := hcalls
  cases hend
  have hfirst : OrdinaryStep false {} t1 :=
    ⟨_, _, sent1, by exact .inr (.inl ⟨rfl, rfl⟩), hdelegate⟩
  have hsecond : OrdinaryStep false t1 t2' := ⟨_, _, sent2, by exact trivial, hundelegate⟩
  exact (refund_scheduled (.head hfirst (.single hsecond)) (N "alice")).2 rfl

/-- Tokens staked for another account cancel the transaction of the refund that is
    pending, and a refund that is called directly leaves its transaction. -/
theorem refund_unscheduled :
    (runActions {} ((refundSample ++
        [Action.delegatebw (N "alice") (N "bob") (.core 5) (.core 5) false]).map
      fun a => (Env.plain 5 0, a))).map refundOfAlice = .ok (true, false) ∧
    (runActions {} (refundSample.map (fun a => (Env.plain 5 0, a)) ++
        [(Env.plain 259200000000 0, .refund (N "alice"))])).map refundOfAlice =
      .ok (false, true) := by
  constructor
  · decide +kernel
  · decide +kernel

end YottaChain.System
