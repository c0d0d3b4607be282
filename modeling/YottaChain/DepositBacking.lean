/-
  **Deposits are backed by tokens.**

  A deposit stays on the balance of its account.  Every way by which tokens leave
  an account therefore has to leave the deposits behind: `reserved ≤ balanceOf`.
  Inside a transaction this holds up to the transfers that have been sent and not
  yet executed (`due`): `paydeppool2` books a deposit whose tokens follow.

  Transfers to `yottaforfeit` and `forfeit.sys` are the exception.  `token::transfer`
  pays them from the whole balance, because a fine is taken from the deposit, but
  it does not ask whether there was a fine (`unbacked_deposit`).
-/
import YottaChain.CoreBalances

namespace YottaChain.HddDeposit

open Checked FixedWidth Token

/-! ## 1. What actions do to the deposits -/

variable {t : Tables} {type : UInt8} {user : Name} {pool : Table Name DepositPool}

theorem reserved_congr {t' : Tables} (h : SamePools t t') (user : Name) :
    reserved t' user = reserved t user := by
  rw [reserved, reserved, h.depositpool, h.depositpool2]

theorem reserved_rows (t : Tables) (rows : Table UInt64 Miner2Dep) (user : Name) :
    reserved { t with miner2dep := rows } user = reserved t user :=
  rfl

theorem reserved_put (htype : IsType type) (user v : Name) (a : DepositPool) :
    reserved (t.setPool type ((t.pool type).put user a)) v = reserved t v +
      if v = user then
        a.depositTotal.value - (standing (t.pool type) user).depositTotal.value
      else 0 := by
  have hpools : ∀ t : Tables, reserved t v = (standing (t.pool 0) v).depositTotal.value +
      (standing (t.pool 1) v).depositTotal.value := fun _ => rfl
  rw [hpools, hpools, pool_setPool htype isType_zero, pool_setPool htype isType_one]
  by_cases hv : v = user
  · rw [if_pos hv, hv]
    rcases htype with rfl | rfl
    · rw [if_pos rfl, if_neg (by decide), standing_put, if_pos rfl]
      omega
    · rw [if_neg (by decide), if_pos rfl, standing_put, if_pos rfl]
      omega
  · have hsame : standing ((t.pool type).put user a) v = standing (t.pool type) v := by
      rw [standing_put, if_neg hv]
    rw [if_neg hv, add_zero]
    rcases htype with rfl | rfl
    · rw [if_pos rfl, if_neg (by decide), hsame]
    · rw [if_neg (by decide), if_pos rfl, hsame]

theorem reserved_shift (htype : IsType type) {a : DepositPool} {total free his : ℤ}
    (h : Shifted (standing (t.pool type) user) a total free his) (v : Name) :
    reserved (t.setPool type ((t.pool type).put user a)) v =
      reserved t v + if v = user then total else 0 := by
  rw [reserved_put htype, h.total, add_sub_cancel_left]

theorem reserved_kept (htype : IsType type) {a : DepositPool}
    (h : a.depositTotal.value = (standing (t.pool type) user).depositTotal.value) (v : Name) :
    reserved (t.setPool type ((t.pool type).put user a)) v = reserved t v := by
  rw [reserved_put htype, h, sub_self, ite_self, add_zero]

theorem reserved_payOut {quant : Asset} (htype : IsType type) (h : DepositLaw t)
    (hpos : 0 < quant.amount) (hpool : payOut (t.pool type) user quant = .ok pool) (v : Name) :
    reserved (t.setPool type pool) v ≤ reserved t v := by
  obtain ⟨a, rfl, _, ha⟩ := payOut_ok hpool (h.pools type htype user)
  have hv := value_pos hpos
  rw [reserved_shift htype ha]
  split <;> omega

/-- A payment into the first pool is compared with the balance less both pools, in 64 bits.
    The bounds of the law keep that difference from wrapping. -/
theorem reserved_pay {quant balance : Asset} (h : DepositLaw t) (hpos : 0 < quant.amount)
    (hw : InWindow balance.amount) (hnonneg : 0 ≤ balance.value)
    (hcover : quant.amount ≤
      balance.amount - poolTotal t.depositpool user - poolTotal t.depositpool2 user)
    (hpool : payIn (t.pool 0) user quant = .ok pool) :
    reserved (t.setPool 0 pool) user ≤ balance.value ∧
      ∀ v, v ≠ user → reserved (t.setPool 0 pool) v = reserved t v := by
  obtain ⟨a, rfl, ha⟩ := payIn_ok hpool (h.pools 0 isType_zero user)
    (h.pay_window hpos hw hcover)
  have hshift := reserved_shift isType_zero ha
  refine ⟨?_, fun v hv => by rw [hshift, if_neg hv, add_zero]⟩
  have h1 := h.pools 0 isType_zero user
  have h2 := h.pools 1 isType_one user
  have htotal : (poolTotal t.depositpool user).toInt =
      (standing (t.pool 0) user).depositTotal.value := poolTotal_toInt _ _
  have htotal2 : (poolTotal t.depositpool2 user).toInt =
      (standing (t.pool 1) user).depositTotal.value := poolTotal_toInt _ _
  have hreserved : reserved t user = (standing (t.pool 0) user).depositTotal.value +
      (standing (t.pool 1) user).depositTotal.value := rfl
  have hlow1 := h1.free
  have hmid1 := h1.total
  have hlow2 := h2.free
  have hmid2 := h2.total
  have hcover' := Int64.le_iff_toInt_le.mp hcover
  obtain ⟨hw1, _, _⟩ := h1.windows
  obtain ⟨hw2, _, _⟩ := h2.windows
  unfold InWindow at hw hw1 hw2
  unfold Asset.value at hnonneg hlow1 hmid1 hlow2 hmid2 hreserved htotal htotal2
  have hfirst : (balance.amount - poolTotal t.depositpool user).toInt =
      balance.amount.toInt - (poolTotal t.depositpool user).toInt :=
    toInt_sub_of_bounds (by omega) (by omega)
  rw [toInt_sub_of_bounds (by omega) (by omega), hfirst] at hcover'
  rw [hshift, if_pos rfl]
  unfold Asset.value
  omega

theorem release_total {a a' : DepositPool} {deposit : Asset} (h : release a deposit = .ok a') :
    a'.depositTotal = a.depositTotal := by
  simp only [release, ok_iff] at h
  obtain ⟨_, _, _, _, rfl⟩ := h
  rfl

theorem reserved_giveBack {miner : Miner2Dep} (htype : IsType miner.minerType)
    (h : giveBack (t.pool miner.minerType) miner = .ok pool) (v : Name) :
    reserved (t.setPool miner.minerType pool) v = reserved t v := by
  unfold giveBack at h
  rcases hfind : (t.pool miner.minerType).find miner.accountName with _ | a
  · rw [hfind] at h
    cases h
    rw [setPool_pool]
  · simp only [hfind, ok_iff] at h
    obtain ⟨a', hrel, rfl⟩ := h
    refine reserved_kept htype ?_ v
    rw [standing_of_some hfind, release_total hrel]

theorem reserved_charge {miner : Miner2Dep} {amount : Asset} {msg : String} (h : DepositLaw t)
    (htype : IsType miner.minerType)
    (hpool : charge (t.pool miner.minerType) miner.accountName amount msg = .ok pool) (v : Name) :
    reserved (t.setPool miner.minerType pool) v =
      reserved t v - if v = miner.accountName then amount.value else 0 := by
  obtain ⟨a, rfl, _, ha⟩ := charge_ok hpool (h.pools _ htype miner.accountName)
  rw [reserved_shift htype ha]
  split
  · rw [sub_eq_add_neg]
  · rw [add_zero, sub_zero]

end YottaChain.HddDeposit

namespace YottaChain.Ledger

open Checked FixedWidth HddDeposit Token

/-! ## 2. Transfers on the way -/

def due (user : Name) : Act → ℤ
  | .transfer _ receiver quantity _ =>
      if user = receiver ∧ quantity.symbol = coreSymbol then quantity.value else 0
  | _ => 0

theorem due_nonneg {l : List Message} (h : ∀ x ∈ l, Payable x.act) (user : Name) :
    0 ≤ inFlight (due user) l := by
  refine inFlight_nonneg ?_
  rintro ⟨auths, act⟩ hm
  have hpay := h _ hm
  cases act with
  | transfer _ _ quantity =>
    show 0 ≤ if _ then quantity.value else 0
    split
    · exact le_of_lt (value_pos hpay.2)
    · exact le_refl 0
  | _ => exact le_refl 0

variable {t' t : HddDeposit.Tables} {token : Token.Tables} {quantity : Asset} {sender : Name}
  {memo : Text}

/-- An action raises what an account has deposited by no more than the transfers it sends
    to the account, or up to the balance at most: `paydeppool` takes the deposit from the
    balance, `paydeppool2` sends the tokens along. -/
theorem reserved_effect {c : Ctx} {a : Act} {sent : List Sent} (he : Effect c token t a t' sent)
    (h : DepositLaw t) (htoken : CoreSound token)
    (hsent : ∀ x ∈ sent.map Message.ofSent, Payable x.act) (v : Name) :
    reserved t' v ≤ reserved t v + inFlight (due v) (sent.map .ofSent) ∨
      reserved t' v ≤ balanceOf token v := by
  have hdue := due_nonneg hsent v
  have hkept : reserved t' v = reserved t v →
      reserved t' v ≤ reserved t v + inFlight (due v) (sent.map .ofSent) := by
    intro heq
    omega
  cases he with
  | idle _ hsame | store hsame | unstore hsame =>
    exact .inl (hkept (reserved_congr hsame v))
  | @pay user quant hpos balance hbalance hcover pool hpool =>
    have hvalue : balanceOf token user = balance.value := amountAt_of_some hbalance
    have hnonneg := htoken.nonneg user
    rw [hvalue] at hnonneg
    obtain ⟨huser, hothers⟩ := reserved_pay h hpos (htoken.range _ _ hbalance) hnonneg hcover hpool
    by_cases hv : v = user
    · rw [hv, hvalue]
      exact .inr huser
    · exact .inl (hkept (hothers v hv))
  | unpay hpos _ hpool =>
    have hle := reserved_payOut isType_zero h hpos hpool v
    exact .inl (by omega)
  | @pay2 user quant hpos hsym pool hpool =>
    obtain ⟨a, rfl, ha⟩ := payIn_ok hpool (h.pools 1 isType_one user)
      fun _ => (hsent _ List.mem_cons_self).1
    have hrest := due_nonneg (fun x hx => hsent x (List.mem_cons_of_mem _ hx)) v
    rw [reserved_shift isType_one ha, List.map_cons, inFlight_cons]
    left
    show _ ≤ _ + ((if v = user ∧ quant.symbol = coreSymbol then quant.value else 0) + _)
    simp only [hsym, and_true]
    omega
  | unpay2 hpos _ hpool =>
    have hle := reserved_payOut isType_one h hpos hpool v
    exact .inl (by omega)
  | lock _ _ ha | raise _ _ _ _ _ ha =>
    refine .inl (hkept ?_)
    rw [reserved_rows]
    refine reserved_kept isType_one ?_ v
    rw [standing_of_some ha]
  | migrate _ miner _ _ a a2 ha ha2 released hrel _ _ _ free _ =>
    refine .inl (hkept ?_)
    have hfirst : reserved (t.setPool 0 ((t.pool 0).put miner.accountName released)) v =
        reserved t v := by
      refine reserved_kept isType_zero ?_ v
      rw [standing_of_some ha, release_total hrel]
    rw [reserved_rows, ← hfirst]
    refine reserved_kept isType_one (a := { a2 with depositFree := free }) ?_ v
    rw [pool_setPool isType_zero isType_one, if_neg (by decide), standing_of_some ha2]
  | forfeit hpos _ miner hminer _ _ hpool =>
    have hsound := h.miners _ miner hminer
    have hfine := (fine_value hsound hpos).1
    have hreserved := reserved_charge h hsound.type hpool v
    left
    rw [reserved_rows, hreserved]
    split <;> omega
  | delete miner hminer _ hpool =>
    refine .inl (hkept ?_)
    rw [reserved_rows]
    exact reserved_giveBack (h.miners _ miner hminer).type hpool v
  | move miner hminer hne _ ha2 _ _ hpool _ _ =>
    have hs := h.miners _ miner hminer
    obtain ⟨a, rfl, _, hshift⟩ := leave_ok hpool (h.pools _ hs.type miner.accountName)
    refine .inl (hkept ?_)
    have hfirst := reserved_shift hs.type hshift v
    rw [ite_self, add_zero] at hfirst
    rw [reserved_rows, ← hfirst]
    refine reserved_kept isType_one ?_ v
    rw [standing_move hs.type hne ha2]

/-! ## 3. Payments to the accounts that take fines -/

/-- The action is a transfer or one of `hdddeposit`, and pays nothing to the
    accounts that take fines. -/
def Spares : Act → Prop
  | .transfer sender receiver _ memo => isForfeit receiver = false ∧
      -- forwarded by `channel.sys`
      (receiver = Channel.self → sender = Channel.mapAccount →
        ∀ type user, Channel.parseMemo memo = .ok (type, user) → isForfeit user = false)
  | .paydeppool2 user _ | .undepstore user _ => isForfeit user = false
  | .paydeppool .. | .unpaydeppool .. | .undeppool2 .. | .depstore .. | .paydeposit ..
  | .incdeposit .. | .delminer .. | .mchgdepacc .. | .setrate .. | .updatevote ..
  | .depositlog .. | .channellog .. | .changevotes .. => True
  | _ => False

/-- The action is a transfer or one of `hdddeposit`, and if it is a payment to an
    account that takes fines then the sender has not deposited what it pays. -/
inductive Guarded (w : World) : Act → Prop
  | spares {a} (h : Spares a) : Guarded w a
  | fine {user minerid quant memo accType caller} :
      Guarded w (.mforfeit user minerid quant memo accType caller)
  | payment {sender receiver quantity memo} (hreceiver : isForfeit receiver)
      (hcover : isFund sender = false → quantity.symbol = coreSymbol →
        quantity.value + reserved w.deposit sender ≤ balanceOf w.token sender) :
      Guarded w (.transfer sender receiver quantity memo)

theorem spares_votes (c : Ctx) (user : Name) : ∀ x ∈ revote c user, Spares x.act := by
  obtain ⟨voters, hvoters⟩ := revote_eq c user
  rw [hvoters]
  intro x hx
  obtain ⟨u, _, rfl⟩ := List.mem_map.mp hx
  trivial

theorem spares_sentBack (user : Name) (quant : Asset) :
    ∀ x ∈ sentBack user quant, Spares x.act := by
  intro x hx
  simp only [sentBack, List.mem_cons, List.not_mem_nil, or_false] at hx
  rcases hx with rfl | rfl | rfl
  · refine ⟨rfl, ?_⟩
    intro hself
    exact absurd hself (by decide)
  · refine ⟨rfl, ?_⟩
    intro _ hsender
    exact absurd hsender (by decide)
  · trivial

/-- An action that spares the accounts sends only such actions. -/
theorem spares_effect {c : Ctx} {a : Act} {sent : List Sent} (he : Effect c token t a t' sent)
    (ha : Spares a) :
    ∀ x ∈ sent, Spares x.act := by
  -- neither `channel.sys` nor `pool.sys` is the account of the bridge
  have hother : ∀ {sender receiver : Name} (quantity : Asset) (memo : Text),
      isForfeit receiver = false → sender ≠ Channel.mapAccount →
      Spares (.transfer sender receiver quantity memo) :=
    fun _ _ hreceiver hsender => ⟨hreceiver, fun _ heq => absurd heq hsender⟩
  cases he with
  | idle _ _ =>
    intro x hx
    obtain ⟨u, _, rfl⟩ := List.mem_map.mp hx
    trivial
  | store =>
    intro x hx
    rw [List.mem_singleton.mp hx]
    exact ⟨rfl, fun hself => absurd hself (by decide)⟩
  | unstore _ =>
    intro x hx
    rw [List.mem_singleton.mp hx]
    exact hother _ _ ha (by decide)
  | pay2 _ _ _ _ =>
    exact List.forall_mem_cons.mpr ⟨hother _ _ ha (by decide), spares_votes _ _⟩
  | unpay2 _ _ _ =>
    exact List.forall_mem_append.mpr ⟨spares_votes _ _, spares_sentBack _ _⟩
  | forfeit => exact ha.elim
  | move => exact List.forall_mem_append.mpr ⟨spares_votes _ _, spares_votes _ _⟩
  | _ => exact spares_votes _ _

/-! ## 4. Deposits are backed -/

def Settled (w : World) : Prop :=
  ∀ user, isFund user = false → reserved w.deposit user ≤ balanceOf w.token user

structure Flowing (w : World) (l : List Message) : Prop where
  backed : ∀ user, isFund user = false →
    reserved w.deposit user ≤ balanceOf w.token user + inFlight (due user) l
  spares : ∀ x ∈ l, Spares x.act

/-- A transfer that leaves the sender its deposits leaves everyone's deposits. -/
theorem backed_transfer {fp : Doubles} {c : Ctx} {lock : HddLock.Tables}
    {deposit : HddDeposit.Tables} {t t' : Token.Tables} {receiver : Name}
    (h : Transfer fp c lock deposit t sender receiver quantity t') (ht : CoreSound t)
    (hcover : isFund sender = false → quantity.symbol = coreSymbol →
      quantity.value + reserved deposit sender ≤ balanceOf t sender) {user : Name}
    (huser : isFund user = false) (memo : Text) {d : ℤ} (hd : 0 ≤ d)
    (hbacked : reserved deposit user ≤
      balanceOf t user + (due user (.transfer sender receiver quantity memo) + d)) :
    reserved deposit user ≤ balanceOf t' user + d := by
  rw [h.balance ht user]
  by_cases hs : user = sender ∧ quantity.symbol = coreSymbol
  · have hpos := value_pos h.pos
    have hleft := hcover (hs.1 ▸ huser) hs.2
    rw [← hs.1] at hleft
    rw [if_pos hs]
    split <;> omega
  · rw [if_neg hs]
    simp only [due] at hbacked
    omega

theorem due_effect {c : Ctx} {a : Act} {sent : List Sent} (he : Effect c token t a t' sent)
    (user : Name) : due user a = 0 := by
  cases he with
  | @idle a _ ha _ _ =>
    cases a with
    | transfer => cases ha
    | _ => rfl
  | _ => rfl

theorem spares_receives {t t' : Channel.Tables} {sent : List Sent}
    (h : Channel.Receives t sender quantity memo t' sent)
    (ha : Spares (.transfer sender Channel.self quantity memo)) (user : Name) :
    inFlight (due user) (sent.map .ofSent) = 0 ∧ ∀ x ∈ sent, Spares x.act := by
  cases h with
  | booked _ _ _ _ hlogs =>
    refine ⟨inFlight_eq_zero ?_, ?_⟩
    · intro x hx
      obtain ⟨type, quant, u, memo, hact⟩ := hlogs x hx
      rw [hact]
      rfl
    · intro x hx
      obtain ⟨type, quant, u, memo, hact⟩ := hlogs x hx
      rw [hact]
      trivial
  | forwarded type u hparse hsender =>
    refine ⟨rfl, ?_⟩
    intro x hx
    rw [List.mem_singleton.mp hx]
    exact ha.2 rfl hsender type u hparse

section Steps

variable {fp : Doubles} {e : Env} {c : Ctx} {w w' : World} {a : Act} {auths : List Name}
  {rest sent : List Message}

theorem Flowing.transfer {receiver : Name}
    (h : Flowing w (⟨auths, .transfer sender receiver quantity memo⟩ :: rest))
    (hlaw : DepositLaw w.deposit) (hcore : CoreSound w.token) (hlock : LocksBounded fp e.lock)
    (ht : Transfer fp c e.lock w.deposit w.token sender receiver quantity token)
    (hrest : ∀ x ∈ rest, Payable x.act) :
    CoreSound token ∧ ∀ user, isFund user = false →
      reserved w.deposit user ≤ balanceOf token user + inFlight (due user) rest := by
  refine ⟨ht.coreSound hcore fun hsym => (ht.covered hcore hlock hlaw hsym).1, ?_⟩
  intro user huser
  have hbacked := h.backed user huser
  rw [inFlight_cons] at hbacked
  refine backed_transfer ht hcore ?_ huser memo (due_nonneg hrest user) hbacked
  intro hfund hsym
  exact (ht.covered hcore hlock hlaw hsym).2 hfund (h.spares _ List.mem_cons_self).1

/-- **One message keeps deposits backed by balances and transfers on the way.**  A transfer
    arrives and leaves the list as the balance grows; a payment out of a deposited balance
    is stopped by the check of the token, since the accounts that take fines are spared. -/
theorem Flowing.step (h : Flowing w (⟨auths, a⟩ :: rest)) (hlaw : DepositLaw w.deposit)
    (hcore : CoreSound w.token) (hlock : LocksBounded fp e.lock)
    (hhandled : Handled fp e c w a w' sent) (hsent : ∀ x ∈ sent, Payable x.act)
    (hrest : ∀ x ∈ rest, Payable x.act) : CoreSound w'.token ∧ Flowing w' (sent ++ rest) := by
  have hspares := h.spares _ List.mem_cons_self
  have hspared : (∀ x ∈ sent, Spares x.act) → ∀ x ∈ sent ++ rest, Spares x.act := by
    intro hnew
    exact List.forall_mem_append.mpr ⟨hnew, (List.forall_mem_cons.mp h.spares).2⟩
  have hnothing : (∀ user, due user a = 0) → Flowing w rest := by
    intro hdue
    refine ⟨?_, fun x hx => h.spares x (List.mem_cons_of_mem _ hx)⟩
    intro user huser
    have hbacked := h.backed user huser
    rw [inFlight_cons, hdue, zero_add] at hbacked
    exact hbacked
  cases hhandled with
  | deposit heffect =>
    refine ⟨hcore, ?_, hspared ?_⟩
    · intro user huser
      have hbacked := h.backed user huser
      have hdue := due_nonneg hsent user
      have hdue' := due_nonneg hrest user
      rw [inFlight_cons, due_effect heffect, zero_add] at hbacked
      rw [inFlight_append]
      dsimp only
      rcases reserved_effect heffect hlaw hcore hsent user with hle | hle
      · omega
      · omega
    · intro x hx
      obtain ⟨y, hy, rfl⟩ := List.mem_map.mp hx
      exact spares_effect heffect hspares y hy
  | transfer _ ht =>
    obtain ⟨hcore', hbacked⟩ := h.transfer hlaw hcore hlock ht hrest
    exact ⟨hcore', hbacked, fun x hx => h.spares x (List.mem_cons_of_mem _ hx)⟩
  | incoming ht hreceive =>
    obtain ⟨hcore', hbacked⟩ := h.transfer hlaw hcore hlock ht hrest
    have hreceives := (Channel.transfercore_ok hreceive).2
    refine ⟨hcore', ?_, hspared ?_⟩
    · intro user huser
      rw [inFlight_append, (spares_receives hreceives hspares user).1, zero_add]
      exact hbacked user huser
    · intro x hx
      obtain ⟨y, hy, rfl⟩ := List.mem_map.mp hx
      exact (spares_receives hreceives hspares 0).2 y hy
  | depositlog | channellog | changevotes => exact ⟨hcore, hnothing fun _ => rfl⟩
  | _ => exact hspares.elim

/-- A fine lowers the deposit first and is then sent, so the sender has not deposited what
    it pays. -/
theorem Guarded.fine_step {user : Name} {minerid : UInt64} {quant : Asset} {accType : UInt8}
    {caller : Name} {sent : List Sent} (h : Settled w) (hlaw : DepositLaw w.deposit)
    (he : Effect c w.token w.deposit (.mforfeit user minerid quant memo accType caller) t' sent) :
    Settled { w with deposit := t' } ∧
      ∃ m, sent.map Message.ofSent = [m] ∧ Guarded { w with deposit := t' } m.act := by
  cases he with
  | idle ha => cases ha
  | forfeit hpos _ miner hminer _ _ hpool =>
    have hsound := hlaw.miners _ miner hminer
    have hfine := (fine_value hsound hpos).1
    have hreserved := reserved_charge hlaw hsound.type hpool
    refine ⟨?_, _, rfl, .payment ?_ ?_⟩
    · intro v hv
      have hold := h v hv
      rw [reserved_rows, hreserved]
      show _ ≤ balanceOf w.token v
      split <;> omega
    · show isForfeit (forfeitAccount miner.minerType) = true
      rcases hsound.type with htype | htype <;> rw [htype] <;> rfl
    · intro hfund _
      have hold := h _ hfund
      rw [reserved_rows, hreserved, if_pos rfl]
      show _ ≤ balanceOf w.token _
      omega

/-- A payment that leaves the deposits keeps them backed. -/
theorem Settled.payment {receiver : Name} (h : Settled w) (hcore : CoreSound w.token)
    (hreceiver : isForfeit receiver) (hlaw : DepositLaw w.deposit) (hlock : LocksBounded fp e.lock)
    (hcover : isFund sender = false → quantity.symbol = coreSymbol →
      quantity.value + reserved w.deposit sender ≤ balanceOf w.token sender)
    (hhandled : Handled fp e c w (.transfer sender receiver quantity memo) w' sent) :
    CoreSound w'.token ∧ sent = [] ∧ Settled w' := by
  cases hhandled with
  | deposit he =>
    cases he with
    | idle ha => cases ha
  | incoming => exact absurd hreceiver (by decide)
  | transfer _ ht =>
    refine ⟨ht.coreSound hcore fun hsym => (ht.covered hcore hlock hlaw hsym).1, rfl, ?_⟩
    intro user huser
    have hbacked := h user huser
    have hpos := value_pos ht.pos
    have hkept := backed_transfer ht hcore hcover huser memo (le_refl 0) (by
      simp only [due, add_zero]
      split <;> omega)
    rwa [add_zero] at hkept

/-- At every point of a transaction: the deposits are backed once the transfers on
    the way have arrived, or nothing has happened but that a fine was booked. -/
structure Backing (w : World) (l : List Message) : Prop where
  law : DepositLaw w.deposit
  core : CoreSound w.token
  state : Flowing w l ∨ Settled w ∧ ∃ m, l = [m] ∧ Guarded w m.act

theorem flowing_nil : Flowing w [] ↔ Settled w := by
  constructor
  · intro h user huser
    have hbacked := h.backed user huser
    rwa [inFlight_nil, add_zero] at hbacked
  · intro h
    refine ⟨?_, by simp⟩
    intro user huser
    rw [inFlight_nil, add_zero]
    exact h user huser

theorem Backing.step {m : Message} (h : Backing w (m :: rest)) (hlock : LocksBounded fp e.lock)
    (hhandled : Handled fp e c w m.act w' sent) (hm : ∀ x ∈ m :: rest, Payable x.act)
    (hsent : ∀ x ∈ sent ++ rest, Payable x.act) : Backing w' (sent ++ rest) := by
  obtain ⟨auths, act⟩ := m
  have hnew : ∀ x ∈ sent, Payable x.act := fun x hx => hsent x (List.mem_append_left _ hx)
  have hold : ∀ x ∈ rest, Payable x.act := fun x hx => hsent x (List.mem_append_right _ hx)
  have hlaw := hhandled.depositLaw h.law h.core.range hnew
  have hflow : Flowing w (⟨auths, act⟩ :: rest) → Backing w' (sent ++ rest) := by
    intro hflowing
    obtain ⟨hcore, hstep⟩ := hflowing.step h.law h.core hlock hhandled hnew hold
    exact ⟨hlaw, hcore, .inl hstep⟩
  rcases h.state with hflowing | ⟨hsettled, m, hl, hguarded⟩
  · exact hflow hflowing
  · obtain ⟨rfl, rfl⟩ := List.cons.inj hl
    cases hguarded with
    | spares hspares =>
      refine hflow ⟨?_, ?_⟩
      · intro user huser
        have hbacked := hsettled user huser
        have hdue := due_nonneg hm user
        omega
      · intro x hx
        rw [List.mem_singleton.mp hx]
        exact hspares
    | fine =>
      cases hhandled with
      | deposit he =>
        obtain ⟨hsettled', m, hm, hguarded⟩ := Guarded.fine_step hsettled h.law he
        refine ⟨hlaw, h.core, .inr ⟨hsettled', m, ?_, hguarded⟩⟩
        rw [hm]
        rfl
    | payment hreceiver hcover =>
      obtain ⟨hcore, rfl, hsettled'⟩ :=
        hsettled.payment h.core hreceiver h.law hlock hcover hhandled
      exact ⟨hlaw, hcore, .inl (flowing_nil.mpr hsettled')⟩

end Steps

def Protected (fp : Doubles) (e : Env) (w : World) (a : Act) : Prop :=
  LocksBounded fp e.lock ∧ Guarded w a

/-- In every run of `hdddeposit` actions and transfers that starts with empty pools:
    the deposits of every account but the funds are on its balance, as long as no
    one pays what it has deposited to the accounts that take fines. -/
theorem deposits_backed {fp : Doubles} {w₀ w : World}
    (hempty : SamePools World.empty.deposit w₀.deposit) (hcore : CoreSound w₀.token)
    (hrun : Run.Steps (TxStep fp (Protected fp)) w₀ w) {user : Name}
    (huser : isFund user = false) : reserved w.deposit user ≤ balanceOf w.token user := by
  have hsettled : Backing w [] := by
    refine Run.invariant (P := fun w => Backing w []) ?_ ?_ hrun
    · rintro w w' h ⟨e, depth, m, ⟨hlock, hguarded⟩, hexec⟩
      have hstart : Backing w [m] := by
        refine ⟨h.law, h.core, .inr ⟨?_, m, rfl, hguarded⟩⟩
        rcases h.state with hflowing | ⟨hsettled, _, hl, _⟩
        · exact flowing_nil.mp hflowing
        · cases hl
      refine exec_sound (J := Backing) ?_ hstart hexec
      intro w m rest w' sent hm hsent h hhandled
      exact h.step hlock hhandled hm hsent
    · refine ⟨depositLaw_empty.congr hempty, hcore, .inl (flowing_nil.mpr ?_)⟩
      intro user _
      rw [reserved_congr hempty]
      exact hcore.nonneg user
  rcases hsettled.state with hflowing | ⟨_, _, hl, _⟩
  · exact flowing_nil.mp hflowing user huser
  · cases hl

def funded : World := { World.empty with token := soleHolder 7 800000 }

theorem coreSound_funded : CoreSound funded.token := coreSound_soleHolder (by decide) (by decide)

/-- The account deposits 50 and pays 20 to another one. -/
theorem deposits_backed_sample :
    SamePools World.empty.deposit funded.deposit ∧ CoreSound funded.token ∧
      ∃ w, Run.Steps (TxStep .whole (Protected .whole)) funded w ∧
        balanceOf w.token 7 = 600000 ∧ reserved w.deposit 7 = 500000 ∧
        reserved w.deposit 7 ≤ balanceOf w.token 7 := by
  obtain ⟨w, hw, hview⟩ := Checked.exists_of_map_eq_ok
    (x := execs .whole .plain 4 funded [⟨[7], .paydeppool 7 ⟨500000, coreSymbol⟩⟩,
      ⟨[7], .transfer 7 8 ⟨200000, coreSymbol⟩ []⟩])
    (f := fun w => (balanceOf w.token 7, reserved w.deposit 7)) (b := (600000, 500000))
    (by decide +kernel)
  obtain ⟨hbalance, hreserved⟩ := Prod.mk.inj hview
  have hsame : SamePools World.empty.deposit funded.deposit := ⟨rfl, rfl, rfl⟩
  have hrun : Run.Steps (TxStep .whole (Protected .whole)) funded w := by
    refine execs_steps ?_ hw
    intro m hm _
    refine ⟨locksBounded_plain, .spares ?_⟩
    simp only [List.mem_cons, List.not_mem_nil, or_false] at hm
    rcases hm with rfl | rfl
    · trivial
    · exact ⟨by decide, fun hself => absurd hself (by decide)⟩
  exact ⟨hsame, coreSound_funded, w, hrun, hbalance, hreserved,
    deposits_backed hsame coreSound_funded hrun (by decide)⟩

/-- The account deposits 50 of its 80 tokens and then pays all 80 to
    `yottaforfeit`. -/
theorem unbacked_deposit :
    SamePools World.empty.deposit funded.deposit ∧ CoreSound funded.token ∧
      ∃ w, Run.Steps (TxStep .whole fun e _ a => LocksBounded .whole e.lock ∧
          (a = .paydeppool 7 ⟨500000, coreSymbol⟩ ∨
            a = .transfer 7 (N "yottaforfeit") ⟨800000, coreSymbol⟩ [])) funded w ∧
        isFund 7 = false ∧ balanceOf w.token 7 < reserved w.deposit 7 := by
  obtain ⟨w, hw, hview⟩ := Checked.exists_of_map_eq_ok
    (x := execs .whole .plain 4 funded [⟨[7], .paydeppool 7 ⟨500000, coreSymbol⟩⟩,
      ⟨[7], .transfer 7 (N "yottaforfeit") ⟨800000, coreSymbol⟩ []⟩])
    (f := fun w => (balanceOf w.token 7, reserved w.deposit 7)) (b := (0, 500000))
    (by decide +kernel)
  obtain ⟨hbalance, hreserved⟩ := Prod.mk.inj hview
  refine ⟨⟨rfl, rfl, rfl⟩, coreSound_funded, w, ?_, by decide, ?_⟩
  · refine execs_steps ?_ hw
    intro m hm _
    simp only [List.mem_cons, List.not_mem_nil, or_false] at hm
    rcases hm with rfl | rfl
    · exact ⟨locksBounded_plain, .inl rfl⟩
    · exact ⟨locksBounded_plain, .inr rfl⟩
  · rw [hbalance, hreserved]
    decide

end YottaChain.Ledger
