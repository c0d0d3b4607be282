/-
  **Which auction comes first in the index of bids.**

  The index `highbid` orders auctions by the negated bid read as an unsigned number.
  An open auction, whose bid is positive, has a key above `2^63`, and among open
  auctions the highest bid comes first.  A closed auction, whose bid is negative, has
  a key below `2^63` and so comes before every open one.  A block looks at the first
  auction only, so as long as a closed auction has not been claimed no other is
  closed.
-/
import YottaChain.VotingEffects

namespace YottaChain.System

open Checked FixedWidth Int64

variable {env : Env} {t t' : Tables} {n n' : Names} {k : Name} {b : NameBid}

/-! ## 1. The changes of the auctions -/

inductive NamesCall (env : Env) (n n' : Names) : Prop
  | aside (h : n' = n)
  | bid {bidder newname : Name} {quantity : Asset} {sent : List Sent}
      (h : bidname env.ctx n bidder newname quantity = .ok (n', sent))
  | claim {creator newact : Name} (h : claimName n creator newact = .ok n')
  | close {thresh : UInt64} {slot : UInt32}
      (h : n' = closeAuction env.ctx.currentTime thresh slot n)

theorem dispatch_names {a : Action} {sent : List Sent} (h : dispatch env t a = .ok (t', sent)) :
    NamesCall env t.names t'.names := by
  cases a with
  | newaccount =>
    simp only [dispatch, newaccount, ok_iff] at h
    obtain ⟨names, hclaim, _, _, rfl, _⟩ := h
    exact .claim hclaim
  | bidname _ _ bid =>
    simp only [dispatch, ok_iff] at h
    obtain ⟨⟨names, sent1⟩, hbid, rfl, _⟩ := h
    exact .bid hbid
  | onblock =>
    rcases onblock_ok h with ⟨rfl, _⟩ | ⟨rfl, _⟩
    · exact .close rfl
    · exact .aside rfl
  | setram _ | rewardprods | startreward =>
    simp only [dispatch, ok_iff] at h
    obtain ⟨_, _, rfl, _⟩ := h
    exact .aside rfl
  | unregprod _ | regproxy _ _ | claimrewards _ => cases h
  | rmvproducer _ | regproducer _ _ _ _ | voteproducer _ _ _ | changevotes _ | seqproducer _ _ _ _
  | reprodlevel | setautosche _ _ _ =>
    rw [(withElection_ok h).2.1]
    exact .aside rfl
  | buyrambytes _ _ _ | buyram _ _ _ | sellram _ _ =>
    rw [(withMemory_ok h).2]
    exact .aside rfl
  | delegatebw _ _ _ _ _ | undelegatebw _ _ _ _ =>
    rw [(withStakes_ok h).2]
    exact .aside rfl
  | refund _ | deferredRefund _ =>
    rw [(withStaking_ok h).2]
    exact .aside rfl

/-! ## 2. Bids have a sign -/

def Signed (n : Names) : Prop :=
  ∀ k b, n.namebids.find k = some b → b.highBid.toInt ≠ 0 ∧ -2 ^ 63 < b.highBid.toInt

theorem Signed.put (h : Signed n) {lastNameClose : UInt32}
    (hb : b.highBid.toInt ≠ 0 ∧ -2 ^ 63 < b.highBid.toInt) :
    Signed ⟨n.namebids.put k b, lastNameClose⟩ :=
  Table.forall_put h hb

theorem toInt_neg_of_gt {x : Int64} (h : -2 ^ 63 < x.toInt) : (-x).toInt = -x.toInt := by
  have hbounds := toInt_bounds x
  rw [toInt_neg]
  exact bmod_eq_of_bounds (by omega) (by omega)

theorem NamesCall.signed (h : Signed n) (hcall : NamesCall env n n') : Signed n' := by
  cases hcall with
  | aside hsame => exact hsame ▸ h
  | @bid bidder newname quantity sent hbid =>
    simp only [bidname, ok_iff] at hbid
    obtain ⟨_, _, _, _, _, _, _, hpos, hbid⟩ := hbid
    rw [lt_iff_toInt_lt, toInt_zero] at hpos
    have hrow : quantity.amount.toInt ≠ 0 ∧ -2 ^ 63 < quantity.amount.toInt := by omega
    split at hbid
    · simp only [ok_iff] at hbid
      obtain ⟨rfl, _⟩ := hbid
      exact h.put hrow
    · simp only [ok_iff] at hbid
      obtain ⟨_, _, _, _, _, rfl, _⟩ := hbid
      exact h.put hrow
  | claim hclaim =>
    unfold claimName at hclaim
    split at hclaim
    · split at hclaim
      · simp only [ok_iff] at hclaim
        obtain ⟨_, _, _, _, rfl⟩ := hclaim
        exact Table.forall_erase h
      · simp only [ok_iff] at hclaim
        exact hclaim.2 ▸ h
    · rw [pure_eq_ok] at hclaim
      exact hclaim ▸ h
  | close hclose =>
    rw [hclose]
    unfold closeAuction
    split
    · rcases highest n with _ | newname
      · exact h
      · dsimp only
        rcases hb : n.namebids.find newname with _ | b
        · exact h
        · dsimp only
          split
          · obtain ⟨hne, hgt⟩ := h newname b hb
            have hneg : b.close.highBid.toInt = -b.highBid.toInt := toInt_neg_of_gt hgt
            have hbounds := toInt_bounds b.highBid
            exact h.put (by omega)
          · exact h
    · exact h

theorem signed_run (hrun : Run.Steps Step {} t) : Signed t.names := by
  refine Run.invariant (P := fun t : Tables => Signed t.names) ?_ ?_ hrun
  · rintro t t' h ⟨env, a, sent, hcall⟩
    simp only [apply, bind_eq_ok] at hcall
    obtain ⟨ram, _, hcall⟩ := hcall
    have hnames := dispatch_names hcall
    exact hnames.signed h
  · intro k b hk
    cases hk

/-! ## 3. The order of the index -/

theorem toNat_toUInt64 (x : Int64) :
    (x.toUInt64.toNat : ℤ) = if 0 ≤ x.toInt then x.toInt else x.toInt + 2 ^ 64 := by
  have hx : x.toInt = x.toUInt64.toBitVec.toInt := rfl
  have hlt := x.toUInt64.toBitVec.isLt
  rw [hx, BitVec.toInt_eq_toNat_cond]
  have hnat : x.toUInt64.toNat = x.toUInt64.toBitVec.toNat := rfl
  split <;> split <;> omega

theorem byHighBid_open (h : 0 < b.highBid.toInt) :
    (b.byHighBid.toNat : ℤ) = 2 ^ 64 - b.highBid.toInt := by
  have hneg := toInt_neg_of_gt (x := b.highBid) (by omega)
  unfold NameBid.byHighBid
  rw [toNat_toUInt64, hneg, if_neg (by omega)]
  omega

theorem byHighBid_closed (h : b.highBid.toInt < 0) (hgt : -2 ^ 63 < b.highBid.toInt) :
    (b.byHighBid.toNat : ℤ) = -b.highBid.toInt := by
  have hneg := toInt_neg_of_gt hgt
  unfold NameBid.byHighBid
  rw [toNat_toUInt64, hneg, if_pos (by omega)]

theorem highest_spec (h : highest n = some k) :
    ∃ b, n.namebids.find k = some b ∧
      ∀ l b', n.namebids.find l = some b' → b.byHighBid.toNat ≤ b'.byHighBid.toNat := by
  have hkey : ∀ (k : Name) (b : NameBid), UInt64.ofNat (ofLex (b.entry k)).2 = k := by
    intro k b
    exact UInt64.ofNat_toNat
  unfold highest at h
  obtain ⟨b, hb, hfirst⟩ := Table.first_eq_some NameBid.entry _ hkey h
  refine ⟨b, hb, fun l b' hl => ?_⟩
  have hle := hfirst l b' hl
  rw [Prod.Lex.le_iff] at hle
  rcases hle with hlt | ⟨heq, _⟩
  · exact hlt.le
  · exact heq.le

/-! ## 4. What a block closes -/

def NoneClosed (n : Names) : Prop := ∀ k b, n.namebids.find k = some b → ¬ b.highBid < 0

/-- The first auction of the index is an open one with the highest bid, and a block
    closes it when its last bid is older than a day, the vote has been activated for
    two weeks and the last auction was closed more than a day ago. -/
def BestFirst (t : Tables) : Prop :=
  ∃ k b, highest t.names = some k ∧ t.names.namebids.find k = some b ∧ 0 < b.highBid ∧
    (∀ l b', t.names.namebids.find l = some b' → 0 < b'.highBid → b'.highBid ≤ b.highBid) ∧
    ∀ (env : Env) (slot : UInt32), env.ctx.hasAuth self = true →
      240 < slot - t.election.lastProducerScheduleUpdate →
      blocksPerDay < slot - t.names.lastNameClose →
      b.lastBidTime < env.ctx.currentTime - usecondsPerDay →
      0 < t.election.threshActivatedStakeTime →
      14 * usecondsPerDay < env.ctx.currentTime - t.election.threshActivatedStakeTime →
      ∃ t', onblock env t slot = .ok (t', []) ∧
        t'.names.namebids = t.names.namebids.put k { b with highBid := -b.highBid }

/-- The first auction is closed by a block when its time has come. -/
theorem onblock_closes {slot : UInt32} (hfirst : highest t.names = some k)
    (hb : t.names.namebids.find k = some b) (hopen : 0 < b.highBid)
    (hauth : env.ctx.hasAuth self = true)
    (hslot : 240 < slot - t.election.lastProducerScheduleUpdate)
    (hspacing : blocksPerDay < slot - t.names.lastNameClose)
    (hold : b.lastBidTime < env.ctx.currentTime - usecondsPerDay)
    (hactive : 0 < t.election.threshActivatedStakeTime)
    (hweeks : 14 * usecondsPerDay < env.ctx.currentTime - t.election.threshActivatedStakeTime) :
    ∃ t', onblock env t slot = .ok (t', []) ∧
      t'.names.namebids = t.names.namebids.put k { b with highBid := -b.highBid } := by
  have hcloses : closes env.ctx.currentTime t.election.threshActivatedStakeTime b = true := by
    simp only [closes, hopen, hold, hactive, hweeks, decide_true, Bool.and_self]
  have hclose : closeAuction env.ctx.currentTime t.election.threshActivatedStakeTime slot t.names =
      { namebids := t.names.namebids.put k b.close, lastNameClose := slot } := by
    simp only [closeAuction, if_pos hspacing, hfirst, hb, if_pos hcloses]
  have hrequire : env.ctx.requireAuth self = .ok () := by
    simp [Ctx.requireAuth, ensure, hauth]
  refine ⟨{ t with
    election := updateElectedProducersYta env.sorter t.election slot
    names := closeAuction env.ctx.currentTime t.election.threshActivatedStakeTime slot t.names },
    ?_, ?_⟩
  · unfold onblock
    rw [hrequire]
    simp only [if_pos hslot]
    rfl
  · rw [hclose]
    rfl

/-- **The best open auction comes first exactly when no closed auction waits to be
    claimed.** -/
theorem bestFirst_iff (hrun : Run.Steps Step {} t)
    (hopen : ∃ k b, t.names.namebids.find k = some b ∧ 0 < b.highBid) :
    BestFirst t ↔ NoneClosed t.names := by
  have hsigned := signed_run hrun
  constructor
  · rintro ⟨k, b, hfirst, hb, hpos, _, _⟩ l b' hl hneg
    rw [lt_iff_toInt_lt, toInt_zero] at hpos hneg
    obtain ⟨b1, hb1, hleast⟩ := highest_spec hfirst
    rw [hb] at hb1
    cases hb1
    have hle := hleast l b' hl
    have hkey := byHighBid_open hpos
    have hkey' := byHighBid_closed hneg (hsigned l b' hl).2
    have hbound := (toInt_bounds b.highBid).2
    have hgt := (hsigned l b' hl).2
    omega
  · intro hnone
    -- Without closed auctions every bid is positive.
    have hall : ∀ l b', t.names.namebids.find l = some b' → 0 < b'.highBid.toInt := by
      intro l b' hl
      have hnot := hnone l b' hl
      have hne := (hsigned l b' hl).1
      rw [lt_iff_toInt_lt, toInt_zero] at hnot
      omega
    obtain ⟨k0, b0, hb0, _⟩ := hopen
    rcases hfirst : highest t.names with _ | k
    · rw [Table.first_eq_none hfirst k0] at hb0
      cases hb0
    · obtain ⟨b, hb, hleast⟩ := highest_spec hfirst
      have hpos : 0 < b.highBid := by
        rw [lt_iff_toInt_lt, toInt_zero]
        exact hall k b hb
      refine ⟨k, b, hfirst, hb, hpos, ?_, ?_⟩
      · intro l b' hl _
        have hle := hleast l b' hl
        have hkey := byHighBid_open (hall k b hb)
        have hkey' := byHighBid_open (hall l b' hl)
        rw [le_iff_toInt_le]
        omega
      · intro env slot hauth hslot hspacing hold hactive hweeks
        exact onblock_closes hfirst hb hpos hauth hslot hspacing hold hactive hweeks

def auctionEnv (now : UInt64) : Env :=
  { Env.plain now 0 with
    ctx := { Ctx.permissive now with isAccount := fun _ => false, isAccount_zero := rfl } }

def auctionSample : List (Env × Action) :=
  [.regproducer (N "bpone") { type := 1 } [] 0, .seqproducer (N "bpone") (N "bpone") 1 1,
    .delegatebw (N "carol") (N "carol") (.core 30) (.core 40) false,
    .voteproducer (N "carol") 0 [N "bpone"], .bidname (N "alice") (N "abc") (.core 100),
    .bidname (N "bob") (N "xyz") (.core 300)].map fun a => (auctionEnv 5, a)

/-- Two open auctions: the higher bid comes first. -/
theorem bestFirst_iff_sample : ∃ t, Run.Steps Step {} t ∧ highest t.names = some (N "xyz") ∧
    (BestFirst t ↔ NoneClosed t.names) := by
  have hrun : (runActions {} auctionSample).map (fun t : Tables =>
      (highest t.names, t.names.namebids.find (N "abc"))) =
      .ok (some (N "xyz"), some ⟨N "alice", 100, 5⟩) := by
    decide +kernel
  obtain ⟨t, ht, hview⟩ := exists_of_map_eq_ok hrun
  rw [Prod.mk.injEq] at hview
  have hsteps := runActions_steps ht
  exact ⟨t, hsteps, hview.1, bestFirst_iff hsteps ⟨N "abc", _, hview.2, by decide⟩⟩

/-- A block closes the auction of the higher bid.  Nobody claims the name, and it
    stands before the open auction from then on. -/
theorem closed_comes_first : ∃ t, Run.Steps Step {} t ∧
    t.names.namebids.find (N "abc") = some ⟨N "alice", 100, 5⟩ ∧
    highest t.names = some (N "xyz") ∧
    t.names.namebids.find (N "xyz") = some ⟨N "bob", -300, 5⟩ := by
  have hrun : (runActions {} (auctionSample ++
      [(auctionEnv 2000000000000, .onblock 200000 (N "bpone"))])).map (fun t : Tables =>
      (t.names.namebids.find (N "abc"), highest t.names, t.names.namebids.find (N "xyz"))) =
      .ok (some ⟨N "alice", 100, 5⟩, some (N "xyz"), some ⟨N "bob", -300, 5⟩) := by
    decide +kernel
  obtain ⟨t, ht, hview⟩ := exists_of_map_eq_ok hrun
  rw [Prod.mk.injEq, Prod.mk.injEq] at hview
  exact ⟨t, runActions_steps ht, hview⟩

end YottaChain.System
