/-
  **`channel.sys` is solvent.**

  The tokens that `channel.sys` holds are those it owes: the sum of all rows of
  `cbalances`.  Between the messages of a transaction the two differ by what is
  on the way out (`leaving`): the transfers of `mapc`, and what is forwarded to
  `paydeppool2`.

  Moving an amount between two rows is one lemma (`move_ok`), whether the rows are
  different or the same.  Only `splitgas` multiplies, and there the supply of the
  token keeps the product in range.
-/
import YottaChain.CoreBalances

namespace YottaChain.Channel

open Checked FixedWidth HddDeposit List Table

/-! ## 1. Rows -/

def held (t : Tables) : ℤ := t.cbalances.total fun _ balance => balance.value

def Sound (t : Tables) : Prop :=
  ∀ k balance, t.cbalances.find k = some balance → InWindow balance.amount ∧ 0 ≤ balance.value

section Rows

variable {t t' : Tables} {k : Name × UInt8} {user : Name} {type : UInt8} {balance quant : Asset}

theorem Sound.put (h : Sound t) (hrow : InWindow balance.amount ∧ 0 ≤ balance.value) :
    Sound ⟨t.cbalances.put k balance⟩ :=
  forall_put h hrow

theorem held_put (hk : t.cbalances.find k = some quant) :
    held ⟨t.cbalances.put k balance⟩ = held t - quant.value + balance.value := by
  have htotal := total_put_add balance (fun _ (b : Asset) => b.value) hk
  simp only [held]
  omega

theorem Sound.le_held (h : Sound t) (hk : t.cbalances.find k = some balance) :
    balance.value ≤ held t :=
  le_total (f := fun _ (b : Asset) => b.value) (fun l b hl => (h l b hl).2) hk

theorem credit_ok (h : credit t user type quant = .ok t') (hs : Sound t)
    (hw : InWindow quant.amount) (hq : 0 ≤ quant.value) :
    held t' = held t + quant.value ∧ Sound t' := by
  unfold credit at h
  rcases hfind : t.cbalances.find (user, type) with _ | balance
  · rw [hfind] at h
    cases h
    refine ⟨?_, hs.put ⟨hw, hq⟩⟩
    rw [held, total_put_of_none quant _ hfind, add_comm]
    rfl
  · simp only [hfind, ok_iff] at h
    obtain ⟨sum, hsum, rfl⟩ := h
    obtain ⟨hwb, hnonneg⟩ := hs _ _ hfind
    obtain ⟨hvalue, hws⟩ := Asset.add_ok hsum hwb
    refine ⟨?_, hs.put ⟨hws, by omega⟩⟩
    rw [held_put hfind]
    omega

variable {left : Asset}

theorem take_ok (hk : t.cbalances.find k = some balance) (hleft : balance.sub quant = .ok left)
    (hs : Sound t) (hle : quant.value ≤ balance.value) :
    held ⟨t.cbalances.put k left⟩ = held t - quant.value ∧ Sound ⟨t.cbalances.put k left⟩ := by
  obtain ⟨hw, _⟩ := hs _ _ hk
  obtain ⟨hvalue, hwl⟩ := Asset.sub_ok hleft hw
  refine ⟨?_, hs.put ⟨hwl, by omega⟩⟩
  rw [held_put hk]
  omega

theorem inWindow_of_le (hw : InWindow balance.amount) (hq : 0 ≤ quant.value)
    (hle : quant.value ≤ balance.value) : InWindow quant.amount := by
  unfold InWindow at hw ⊢
  unfold Asset.value at hq hle
  omega

theorem move_ok (hk : t.cbalances.find k = some balance) (hq : 0 ≤ quant.amount)
    (hle : quant.amount ≤ balance.amount) (hleft : balance.sub quant = .ok left) (hs : Sound t)
    (hcredit : credit ⟨t.cbalances.put k left⟩ user type quant = .ok t') :
    held t' = held t ∧ Sound t' := by
  have hnonneg : 0 ≤ quant.value := by
    have hq' := Int64.le_iff_toInt_le.mp hq
    rwa [Int64.toInt_zero] at hq'
  have hle' := value_le hle
  obtain ⟨hheld, hs1⟩ := take_ok hk hleft hs hle'
  obtain ⟨hheld', hs'⟩ := credit_ok hcredit hs1
    (inWindow_of_le (hs _ _ hk).1 hnonneg hle') hnonneg
  exact ⟨by omega, hs'⟩

end Rows

/-! ## 2. Actions -/

section Actions

variable {fp : Doubles} {c : Ctx} {hddpool : HddPool.Tables} {t t' : Tables} {user : Name}
  {quant gas : Asset} {memo : Text} {sent : List Sent}

/-- What `mapc` takes from the balance leaves with its transfers. -/
theorem mapc_ok {bscaddr : Text} (h : mapc c t user quant gas bscaddr = .ok (t', sent))
    (hs : Sound t) (hsent : ∀ x ∈ sent, Ledger.Payable x.act) :
    held t' = held t - (quant.value + gas.value) ∧ Sound t' ∧
      ∃ memo memo' logs, quant.symbol = coreSymbol ∧ gas.symbol = coreSymbol ∧ OnlyLogs logs ∧
        sent = ⟨self, .transfer self mapAccount quant memo⟩ ::
          ⟨self, .transfer self mapAccount gas memo'⟩ :: logs := by
  simp only [mapc, ok_iff] at h
  obtain ⟨_, hquant, hgas, _, _, _, total, htotal, balance, hbalance, enough, hge, henough, left,
    hleft, rfl, rfl⟩ := h
  obtain ⟨hvalue, _⟩ := Asset.add_ok htotal (hsent _ mem_cons_self).1
  have hle : total.amount ≤ balance.amount := by
    rw [Asset.ge_ok hge, decide_eq_true_eq] at henough
    exact henough
  obtain ⟨hheld, hs'⟩ := take_ok hbalance hleft hs (value_le hle)
  refine ⟨by omega, hs', _, _, _, hquant, hgas, ?_, rfl⟩
  exact onlyLogs_singleton _ _ _ _ _

theorem feetoc_ok (h : feetoc c t user quant = .ok (t', sent)) (hs : Sound t) :
    held t' = held t ∧ Sound t' ∧ OnlyLogs sent := by
  simp only [feetoc, ok_iff] at h
  obtain ⟨_, fee, hfee, _, hpos, hle, left, hleft, t1, hcredit, rfl, rfl⟩ := h
  obtain ⟨hheld, hs'⟩ := move_ok hfee (Int64.le_of_lt hpos) hle hleft hs hcredit
  exact ⟨hheld, hs', onlyLogs_singleton _ _ _ _ _⟩

theorem subfee_ok (h : subfee c t user quant memo = .ok (t', sent)) (hs : Sound t) :
    held t' = held t ∧ Sound t' ∧ OnlyLogs sent := by
  simp only [subfee, ok_iff] at h
  obtain ⟨_, hq, fee, hfee, _, hle, _, left, hleft, t1, hcredit, rfl, rfl⟩ := h
  obtain ⟨hheld, hs'⟩ := move_ok hfee hq hle hleft hs hcredit
  exact ⟨hheld, hs', onlyLogs_nil⟩

/-- The user may be `node.sys` itself. -/
theorem rewardnode_ok (h : rewardnode c t user quant memo = .ok (t', sent)) (hs : Sound t) :
    held t' = held t ∧ Sound t' ∧ OnlyLogs sent := by
  simp only [rewardnode, ok_iff] at h
  obtain ⟨_, hpos, node, hnode, hle, left, hleft, t1, hcredit, rfl, rfl⟩ := h
  obtain ⟨hheld, hs'⟩ := move_ok hnode (Int64.le_of_lt hpos) hle hleft hs hcredit
  exact ⟨hheld, hs', onlyLogs_singleton _ _ _ _ _⟩

theorem amountNode_bounds {amount : Int64} {rate : UInt64} (hpos : 0 ≤ amount.toInt)
    (hmax : amount.toInt ≤ 10 ^ 15) (hrate : rate ≤ 80) :
    0 ≤ (amount * rate.toInt64 / 100).toInt := by
  have hrate' : rate.toNat ≤ 80 := UInt64.le_iff_toNat_le.mp hrate
  have hr : rate.toInt64.toInt = rate.toNat := toInt_toInt64_of_lt (by omega)
  have hlo : 0 ≤ amount.toInt * rate.toNat := Int.mul_nonneg hpos (Int.natCast_nonneg _)
  have hhi : amount.toInt * rate.toNat ≤ 10 ^ 15 * 80 :=
    Int.mul_le_mul hmax (by omega) (Int.natCast_nonneg _) (by decide)
  have hmul : (amount * rate.toInt64).toInt = amount.toInt * rate.toNat := by
    rw [toInt_mul_of_bounds (by rw [hr]; omega) (by rw [hr]; omega), hr]
  rw [toInt_div_of_nonneg (by rw [hmul]; exact hlo) (by decide), hmul]
  exact Int.ediv_nonneg hlo (by decide)

theorem splitgas_ok (h : splitgas fp c hddpool t = .ok (t', sent)) (hs : Sound t)
    (hmax : held t ≤ 10 ^ 15) : held t' = held t ∧ Sound t' ∧ OnlyLogs sent := by
  simp only [splitgas, ok_iff] at h
  obtain ⟨_, ⟨_, hrate⟩, gas, hgas, h⟩ := h
  by_cases hzero : gas.amount ≤ 0
  · rw [if_pos hzero] at h
    cases h
    exact ⟨rfl, hs, onlyLogs_nil⟩
  · simp only [if_neg hzero, ok_iff] at h
    obtain ⟨hle, quantNode, hnode, quantNull, hnull, t1, hcredit1, t2, hcredit2, rfl, rfl⟩ := h
    obtain ⟨hnode', hwnode⟩ := Asset.make_ok hnode
    obtain ⟨hnull', hwnull⟩ := Asset.make_ok hnull
    obtain ⟨hwgas, hgas0⟩ := hs _ _ hgas
    have hgasmax := hs.le_held hgas
    have hlow : 0 ≤ quantNode.value := by
      rw [Asset.value, hnode']
      exact amountNode_bounds hgas0 (le_trans hgasmax hmax) hrate
    have hhigh : quantNode.value ≤ gas.value := by
      rw [Asset.value, hnode']
      exact Int64.le_iff_toInt_le.mp hle
    have hrest : quantNull.value = gas.value - quantNode.value := by
      unfold InWindow at hwgas hwnode
      unfold Asset.value at hlow hhigh ⊢
      rw [hnull', ← hnode', toInt_sub_of_bounds (by omega) (by omega)]
    -- the gas is cleared, and both parts are credited again
    have hwzero : InWindow (0 : Int64) := by decide
    have hclear : held ⟨t.cbalances.put (gasSys, 1) { gas with amount := 0 }⟩ =
        held t - gas.value + 0 := held_put hgas
    obtain ⟨hheld1, hs1⟩ := credit_ok hcredit1 (hs.put ⟨hwzero, le_refl 0⟩) hwnode hlow
    obtain ⟨hheld2, hs2⟩ := credit_ok hcredit2 hs1 hwnull (by omega)
    exact ⟨by omega, hs2, onlyLogs_nil⟩

end Actions

end YottaChain.Channel

namespace YottaChain.Ledger

open Checked FixedWidth HddDeposit Token Channel

/-! ## 3. Tokens on the way out -/

/-- What an action is going to take from the balance of `channel.sys`. -/
def leaving : Act → ℤ
  | .transfer sender _ quantity _ =>
      if sender = Channel.self ∧ quantity.symbol = coreSymbol then quantity.value else 0
  | .paydeppool2 _ quant => quant.value
  | _ => 0

def Traffic : Act → Prop
  | .transfer .. | .mapc .. | .feetoc .. | .subfee .. | .splitgas | .rewardnode ..
  | .paydeppool2 .. | .channellog .. | .changevotes .. => True
  | _ => False

/-- `channel.sys` owes what it holds, up to what is on the way out. -/
structure Solvent (w : World) (l : List Message) : Prop where
  law : DepositLaw w.deposit
  core : CoreSound w.token
  supply : coreTotal w.token ≤ 10 ^ 15
  rows : Channel.Sound w.channel
  owed : held w.channel + inFlight leaving l = balanceOf w.token Channel.self
  traffic : ∀ x ∈ l, Traffic x.act

theorem leaving_nonneg {l : List Message} (h : ∀ x ∈ l, Payable x.act) :
    0 ≤ inFlight leaving l := by
  refine inFlight_nonneg ?_
  rintro ⟨auths, act⟩ hm
  have hpay := h _ hm
  cases act with
  | transfer _ _ quantity =>
    show 0 ≤ if _ then quantity.value else 0
    split
    · exact le_of_lt (value_pos hpay.2)
    · exact le_refl 0
  | paydeppool2 => exact le_of_lt (value_pos hpay.2)
  | _ => exact le_refl 0

/-- Messages that take nothing from `channel.sys`. -/
def Quiet (sent : List Sent) : Prop := ∀ x ∈ sent, leaving x.act = 0 ∧ Traffic x.act

variable {sent : List Sent}

theorem quiet_logs (h : OnlyLogs sent) : Quiet sent := by
  intro x hx
  obtain ⟨type, quant, user, memo, hact⟩ := h x hx
  rw [hact]
  exact ⟨rfl, trivial⟩

theorem quiet_revote (c : Ctx) (user : Name) : Quiet (revote c user) := by
  obtain ⟨voters, hvoters⟩ := revote_eq c user
  rw [hvoters]
  intro x hx
  obtain ⟨u, _, rfl⟩ := List.mem_map.mp hx
  exact ⟨rfl, trivial⟩

theorem Quiet.leaving (h : Quiet sent) : inFlight leaving (sent.map .ofSent) = 0 :=
  inFlight_eq_zero fun x hx => (h x hx).1

theorem Quiet.traffic (h : Quiet sent) : ∀ x ∈ sent.map Message.ofSent, Traffic x.act := by
  intro x hx
  obtain ⟨y, hy, rfl⟩ := List.mem_map.mp hx
  exact (h y hy).2

/-! ## 4. Every message keeps `channel.sys` solvent -/

section Steps

variable {fp : Doubles} {e : Env} {c : Ctx} {w w' : World} {a : Act} {auths : List Name}
  {rest sent : List Message}

theorem Solvent.next (h : Solvent w (⟨auths, a⟩ :: rest)) (hlaw : DepositLaw w'.deposit)
    (hcore : CoreSound w'.token) (htotal : coreTotal w'.token = coreTotal w.token)
    (hrows : Channel.Sound w'.channel)
    (howed : held w'.channel + inFlight leaving sent - balanceOf w'.token Channel.self =
      held w.channel + leaving a - balanceOf w.token Channel.self)
    (htraffic : ∀ x ∈ sent, Traffic x.act) : Solvent w' (sent ++ rest) := by
  refine ⟨hlaw, hcore, ?_, hrows, ?_, ?_⟩
  · rw [htotal]
    exact h.supply
  · have hold := h.owed
    simp only [inFlight_cons] at hold
    rw [inFlight_append]
    omega
  · exact List.forall_mem_append.mpr ⟨htraffic, (List.forall_mem_cons.mp h.traffic).2⟩

variable {channel : Channel.Tables}

/-- Moving amounts between balances keeps the channel solvent. -/
theorem Solvent.internal {logs : List Sent} (h : Solvent w (⟨auths, a⟩ :: rest))
    (ha : leaving a = 0)
    (hmoved : held channel = held w.channel ∧ Channel.Sound channel ∧ OnlyLogs logs) :
    Solvent { w with channel := channel } (logs.map .ofSent ++ rest) := by
  obtain ⟨hheld, hrows, hlogs⟩ := hmoved
  refine h.next h.law h.core rfl hrows ?_ (quiet_logs hlogs).traffic
  rw [(quiet_logs hlogs).leaving, ha, hheld]

variable {sender : Name} {quantity : Asset}

/-- A transfer changes the balance of `channel.sys` by what leaves and what arrives. -/
theorem Solvent.token (h : Solvent w (⟨auths, a⟩ :: rest)) (hlock : LocksBounded fp e.lock)
    {receiver : Name} (memo : Text) {token : Token.Tables}
    (ht : Transfer fp c e.lock w.deposit w.token sender receiver quantity token) :
    CoreSound token ∧ coreTotal token = coreTotal w.token ∧
      balanceOf token Channel.self = balanceOf w.token Channel.self -
        leaving (.transfer sender receiver quantity memo) +
        (if Channel.self = receiver ∧ quantity.symbol = coreSymbol then quantity.value else 0) := by
  refine ⟨ht.coreSound h.core fun hsym => (ht.covered h.core hlock h.law hsym).1,
    ht.total h.core.range, ?_⟩
  rw [ht.balance h.core, leaving]
  simp only [eq_comm]

variable {out : List Sent}

theorem Solvent.incoming {memo : Text} {token : Token.Tables}
    (h : Solvent w (⟨auths, .transfer sender Channel.self quantity memo⟩ :: rest))
    (hlock : LocksBounded fp e.lock)
    (ht : Transfer fp c e.lock w.deposit w.token sender Channel.self quantity token)
    (hreceive : transfercore w.channel sender Channel.self quantity memo = .ok (channel, out)) :
    Solvent { w with token := token, channel := channel } (out.map .ofSent ++ rest) := by
  obtain ⟨hsym, hreceives⟩ := transfercore_ok hreceive
  obtain ⟨hcore, htotal, hbalance⟩ := h.token hlock memo ht
  rw [if_pos ⟨rfl, hsym⟩] at hbalance
  cases hreceives with
  | booked _ _ hcredit _ hlogs =>
    obtain ⟨hheld, hrows⟩ := credit_ok hcredit h.rows (Asset.inWindow_of_isValid ht.valid)
      (le_of_lt (value_pos ht.pos))
    refine h.next h.law hcore htotal hrows ?_ (quiet_logs hlogs).traffic
    rw [(quiet_logs hlogs).leaving, hheld, hbalance]
    omega
  | forwarded _ _ _ _ =>
    refine h.next h.law hcore htotal h.rows ?_ ?_
    · show held w.channel + (quantity.value + 0) - balanceOf token Channel.self = _
      omega
    · intro x hx
      rw [List.mem_singleton.mp hx]
      trivial

theorem Solvent.mapc {user : Name} {quant gas : Asset} {bscaddr : Text}
    (h : Solvent w (⟨auths, .mapc user quant gas bscaddr⟩ :: rest))
    (hmapc : Channel.mapc c w.channel user quant gas bscaddr = .ok (channel, out))
    (hout : ∀ x ∈ out.map Message.ofSent, Payable x.act) :
    Solvent { w with channel := channel } (out.map .ofSent ++ rest) := by
  obtain ⟨hheld, hrows, memo, memo', logs, hquant, hgas, hlogs, rfl⟩ := mapc_ok hmapc h.rows
    fun x hx => hout (.ofSent x) (List.mem_map_of_mem hx)
  refine h.next h.law h.core rfl hrows ?_ ?_
  · simp only [List.map_cons, inFlight_cons, (quiet_logs hlogs).leaving]
    show held channel + ((if Channel.self = Channel.self ∧ quant.symbol = coreSymbol then
      quant.value else 0) + ((if Channel.self = Channel.self ∧ gas.symbol = coreSymbol then
      gas.value else 0) + 0)) - _ = held w.channel + 0 - _
    rw [if_pos ⟨rfl, hquant⟩, if_pos ⟨rfl, hgas⟩, hheld]
    omega
  · intro x hx
    rw [List.map_cons, List.map_cons] at hx
    rcases List.mem_cons.mp hx with rfl | hx
    · trivial
    rcases List.mem_cons.mp hx with rfl | hx
    · trivial
    · exact (quiet_logs hlogs).traffic x hx

/-- What is forwarded to `paydeppool2` leaves with its transfer. -/
theorem Solvent.deposit {t : HddDeposit.Tables} (h : Solvent w (⟨auths, a⟩ :: rest))
    (hlaw : DepositLaw t) (he : Effect c w.token w.deposit a t out) :
    Solvent { w with deposit := t } (out.map .ofSent ++ rest) := by
  have htraffic := h.traffic _ List.mem_cons_self
  cases he with
  | @idle a _ ha _ _ =>
    cases a with
    | delminer | setrate | updatevote => exact htraffic.elim
    | _ => cases ha
  | @pay2 user quant _ hsym pool _ =>
    have hquiet := quiet_revote c user
    refine h.next hlaw h.core rfl h.rows ?_ ?_
    · simp only [List.map_cons, inFlight_cons, hquiet.leaving]
      show held w.channel + ((if channelSys = Channel.self ∧ quant.symbol = coreSymbol then
        quant.value else 0) + 0) - _ = held w.channel + quant.value - _
      rw [if_pos ⟨rfl, hsym⟩, add_zero]
    · exact List.forall_mem_cons.mpr ⟨trivial, hquiet.traffic⟩
  | _ => exact htraffic.elim

theorem Solvent.step {m : Message} (h : Solvent w (m :: rest)) (hlock : LocksBounded fp e.lock)
    (hhandled : Handled fp e c w m.act w' sent) (hm : ∀ x ∈ m :: rest, Payable x.act)
    (hsent : ∀ x ∈ sent, Payable x.act) : Solvent w' (sent ++ rest) := by
  obtain ⟨auths, act⟩ := m
  have hlaw := hhandled.depositLaw h.law h.core.range hsent
  have htraffic := h.traffic _ List.mem_cons_self
  cases hhandled with
  | deposit he => exact h.deposit hlaw he
  | @transfer sender receiver quantity memo token hother ht =>
    obtain ⟨hcore, htotal, hbalance⟩ := h.token hlock memo ht
    rw [if_neg (fun heq => hother heq.1.symm)] at hbalance
    refine h.next h.law hcore htotal h.rows ?_ (by simp)
    simp only [inFlight_nil, hbalance]
    omega
  | incoming ht hreceive => exact h.incoming hlock ht hreceive
  | mapc hmapc => exact h.mapc hmapc hsent
  | feetoc hfeetoc => exact h.internal rfl (feetoc_ok hfeetoc h.rows)
  | subfee hsubfee => exact h.internal rfl (subfee_ok hsubfee h.rows)
  | rewardnode hreward => exact h.internal rfl (rewardnode_ok hreward h.rows)
  | splitgas hsplit =>
    -- what is owed is at most the supply
    have hmax : held w.channel ≤ 10 ^ 15 := by
      have hbalance := h.core.balance_le Channel.self
      have hleaving := leaving_nonneg hm
      have howed := h.owed
      have hsupply := h.supply
      omega
    exact h.internal rfl (splitgas_ok hsplit h.rows hmax)
  | depositlog => exact htraffic.elim
  | channellog | changevotes
    => exact h.next h.law h.core rfl h.rows (by rw [inFlight_nil]; rfl) (by simp)
  | _ => exact htraffic.elim

end Steps

/-! ## 5. `channel.sys` is solvent -/

/-- The transactions of the bridge: transfers, none of them sent by `channel.sys`
    itself, and the actions of the contract.  Locked amounts are in a sensible
    range. -/
def Bridge (fp : Doubles) (e : Env) (a : Act) : Prop :=
  LocksBounded fp e.lock ∧ match a with
  | .transfer sender _ _ _ => sender ≠ Channel.self
  | .mapc .. | .feetoc .. | .subfee .. | .splitgas | .rewardnode .. => True
  | _ => False

theorem Bridge.traffic {fp : Doubles} {e : Env} {a : Act} (h : Bridge fp e a) :
    Traffic a ∧ leaving a = 0 := by
  obtain ⟨_, h⟩ := h
  cases a with
  | transfer => exact ⟨trivial, if_neg fun heq => h heq.1⟩
  | mapc | feetoc | subfee | splitgas | rewardnode => exact ⟨trivial, rfl⟩
  | _ => exact h.elim

/-- In every run of transactions of the bridge that starts without balances and
    without tokens of `channel.sys`, the supply of the token being at most `10 ^ 15`:
    the balances add up to the tokens that `channel.sys` holds, and none of them is
    negative. -/
theorem channel_solvent {fp : Doubles} {w₀ w : World} (hempty : w₀.channel.cbalances = ∅)
    (hzero : balanceOf w₀.token Channel.self = 0) (hcore : CoreSound w₀.token)
    (hsupply : coreTotal w₀.token ≤ 10 ^ 15) (hlaw : DepositLaw w₀.deposit)
    (hrun : Run.Steps (TxStep fp fun e _ a => Bridge fp e a) w₀ w) :
    held w.channel = balanceOf w.token Channel.self ∧
      ∀ k balance, w.channel.cbalances.find k = some balance → 0 ≤ balance.value := by
  have hsolvent : Solvent w [] := by
    refine Run.invariant (P := fun w => Solvent w []) ?_ ?_ hrun
    · rintro w w' h ⟨e, depth, m, hbridge, hexec⟩
      obtain ⟨htraffic, hleaving⟩ := hbridge.traffic
      have hstart : Solvent w [m] := by
        refine ⟨h.law, h.core, h.supply, h.rows, ?_, ?_⟩
        · rw [inFlight_cons, hleaving, zero_add]
          exact h.owed
        · intro x hx
          rw [List.mem_singleton.mp hx]
          exact htraffic
      refine exec_sound (J := Solvent) ?_ hstart hexec
      intro w m rest w' sent hm hsent h hhandled
      exact h.step hbridge.1 hhandled hm fun x hx => hsent x (List.mem_append_left _ hx)
    · refine ⟨hlaw, hcore, hsupply, ?_, ?_, by simp⟩
      · intro k balance hk
        rw [hempty, Table.find_empty] at hk
        cases hk
      · rw [held, hempty, Table.total_empty, inFlight_nil, hzero, add_zero]
  refine ⟨?_, fun k balance hk => (hsolvent.rows k balance hk).2⟩
  have howed := hsolvent.owed
  rwa [inFlight_nil, add_zero] at howed

/-- Tokens are put on the balance of `alice`, who then has a part of them paid out. -/
def sampleBridge : List Message :=
  [⟨[N "fund.sys"], .transfer (N "fund.sys") Channel.self ⟨500000, coreSymbol⟩
      "1:alice:0".toList⟩,
    ⟨[N "alice"], .mapc (N "alice") ⟨100000, coreSymbol⟩ ⟨1000, coreSymbol⟩ []⟩]

theorem channel_solvent_sample :
    ∃ w₀ w, w₀.channel.cbalances = ∅ ∧ balanceOf w₀.token Channel.self = 0 ∧
      CoreSound w₀.token ∧ coreTotal w₀.token ≤ 10 ^ 15 ∧ DepositLaw w₀.deposit ∧
      Run.Steps (TxStep .whole fun e _ a => Bridge .whole e a) w₀ w ∧
      balanceOf w.token Channel.self = 399000 ∧
      held w.channel = balanceOf w.token Channel.self := by
  let w₀ : World := { World.empty with token := soleHolder (N "fund.sys") 800000 }
  obtain ⟨w, hw, hview⟩ := Checked.exists_of_map_eq_ok
    (x := execs .whole .plain 4 w₀ sampleBridge)
    (f := fun w => balanceOf w.token Channel.self) (b := 399000) (by decide +kernel)
  have hzero : balanceOf w₀.token Channel.self = 0 := by
    rw [balanceOf_soleHolder, if_neg (by decide)]
  have hcore : CoreSound w₀.token := coreSound_soleHolder (by decide) (by decide)
  have hsupply : coreTotal w₀.token ≤ 10 ^ 15 := by
    rw [coreTotal_soleHolder]
    decide
  have hrun : Run.Steps (TxStep .whole fun e _ a => Bridge .whole e a) w₀ w := by
    refine execs_steps ?_ hw
    intro m hm _
    refine ⟨locksBounded_plain, ?_⟩
    simp only [sampleBridge, List.mem_cons, List.not_mem_nil, or_false] at hm
    rcases hm with rfl | rfl
    · show N "fund.sys" ≠ Channel.self
      decide
    · trivial
  exact ⟨w₀, w, rfl, hzero, hcore, hsupply, depositLaw_empty, hrun, hview,
    (channel_solvent rfl hzero hcore hsupply depositLaw_empty hrun).1⟩

end YottaChain.Ledger
