/-
  **What a message does, and the rule for whole transactions.**

  `Handled` is the inversion of `handle`: one case for all actions of
  `hdddeposit`, two for transfers and one for each action of `channel.sys`.

  Two actions take an amount without looking whether it is in range: `paydeppool2`
  and `mapc`.  Both send transfers of what they took, and a transfer does look.
  So a property may be proved of a message under the assumption that the amounts
  in flight are in range (`Payable`): `exec_sound` discharges the assumption at
  the end, when nothing is in flight.
-/
import Mathlib.Algebra.Order.BigOperators.Group.List
import Mathlib.Algebra.Order.Group.Int
import YottaChain.Ledger
import YottaChain.HddDepositEffects

namespace YottaChain.Token

open Checked FixedWidth

/-! ## 1. Transfers -/

inductive Paid (fp : Doubles) (c : Ctx) (lock : HddLock.Tables) (deposit : HddDeposit.Tables)
    (sender receiver : Name) (quantity balance : Asset) : Prop
  | fund (h : quantity.symbol ≠ coreSymbol ∨ isFund sender)
      (hle : quantity.amount ≤ balance.amount)
  | forfeit (hsym : quantity.symbol = coreSymbol) (hfund : isFund sender = false)
      (h : isForfeit receiver) (hle : quantity.amount ≤ balance.amount)
  | checked (hsym : quantity.symbol = coreSymbol) (hfund : isFund sender = false)
      (hforfeit : isForfeit receiver = false)
      (h : checkReserved fp c lock deposit sender balance quantity receiver = .ok ())

structure Transfer (fp : Doubles) (c : Ctx) (lock : HddLock.Tables) (deposit : HddDeposit.Tables)
    (t : Tables) (sender receiver : Name) (quantity : Asset) (t' : Tables) : Prop where
  ne : sender ≠ receiver
  valid : quantity.isValid
  pos : 0 < quantity.amount
  symbol : ∃ st, t.stat.find (symbolName quantity.symbol) = some st ∧
    quantity.symbol = st.supply.symbol
  moved : ∃ balance t1, t.accounts.find (sender, symbolName quantity.symbol) = some balance ∧
    Paid fp c lock deposit sender receiver quantity balance ∧
    takeBalance t sender balance quantity = .ok t1 ∧ addBalance t1 receiver quantity = .ok t'

variable {fp : Doubles} {c : Ctx} {lock : HddLock.Tables} {deposit : HddDeposit.Tables} {t : Tables}
  {receiver sender : Name} {quantity : Asset} {recipients : List Name}

theorem debit_ok {t1 : Tables}
    (h : debit fp c lock deposit t sender receiver quantity = .ok (t1, recipients)) :
    receiver ∈ recipients ∧
      ∃ balance, t.accounts.find (sender, symbolName quantity.symbol) = some balance ∧
        Paid fp c lock deposit sender receiver quantity balance ∧
        takeBalance t sender balance quantity = .ok t1 := by
  unfold debit at h
  by_cases hfund : quantity.symbol ≠ coreSymbol ∨ isFund sender
  · simp only [if_pos hfund, subBalance, ok_iff] at h
    obtain ⟨_, ⟨balance, hbalance, hle, htake⟩, rfl, rfl⟩ := h
    exact ⟨by simp, balance, hbalance, .fund hfund hle, htake⟩
  · have hsym : quantity.symbol = coreSymbol := by
      by_contra hne
      exact hfund (.inl hne)
    have hnot : isFund sender = false := by
      rw [Bool.eq_false_iff]
      exact fun h => hfund (.inr h)
    by_cases hforfeit : isForfeit receiver
    · simp only [if_neg hfund, if_pos hforfeit, subBalance, ok_iff] at h
      obtain ⟨_, ⟨balance, hbalance, hle, htake⟩, rfl, rfl⟩ := h
      exact ⟨by simp, balance, hbalance, .forfeit hsym hnot hforfeit hle, htake⟩
    · simp only [if_neg hfund, if_neg hforfeit, subBalanceYta, ok_iff] at h
      obtain ⟨_, ⟨balance, hbalance, _, hcheck, htake⟩, rfl, rfl⟩ := h
      exact ⟨by simp, balance, hbalance, .checked hsym hnot (by simpa using hforfeit) hcheck, htake⟩

variable {t' : Tables}

theorem transfer_ok {memo : Text}
    (h : transfer fp c lock deposit t sender receiver quantity memo = .ok (t', recipients)) :
    receiver ∈ recipients ∧ Transfer fp c lock deposit t sender receiver quantity t' := by
  simp only [transfer, ok_iff] at h
  obtain ⟨hne, _, _, st, hst, hvalid, hpos, hsym, _, ⟨t1, rec⟩, hdebit, t2, hadd, rfl, rfl⟩ := h
  obtain ⟨hmem, balance, hbalance, hpaid, htake⟩ := debit_ok hdebit
  exact ⟨hmem, hne, hvalid, hpos, ⟨st, hst, hsym⟩, balance, t1, hbalance, hpaid, htake, hadd⟩

def InRange (t : Tables) : Prop :=
  ∀ k balance, t.accounts.find k = some balance → InWindow balance.amount

variable {value : Asset} {owner : Name}

theorem takeBalance_ok {balance : Asset} (h : takeBalance t owner balance value = .ok t') :
    balance.amount = value.amount ∧
        t' = { t with accounts := t.accounts.erase (owner, symbolName value.symbol) } ∨
      ∃ left, balance.amount ≠ value.amount ∧ balance.sub value = .ok left ∧
        t' = { t with accounts := t.accounts.put (owner, symbolName value.symbol) left } := by
  unfold takeBalance at h
  split_ifs at h with heq
  · cases h
    exact .inl ⟨heq, rfl⟩
  · simp only [ok_iff] at h
    obtain ⟨left, hleft, rfl⟩ := h
    exact .inr ⟨left, heq, hleft, rfl⟩

theorem addBalance_ok (h : addBalance t owner value = .ok t') :
    ∃ sum, t' = { t with accounts := t.accounts.put (owner, symbolName value.symbol) sum } ∧
      (t.accounts.find (owner, symbolName value.symbol) = none ∧ sum = value ∨
        ∃ balance, t.accounts.find (owner, symbolName value.symbol) = some balance ∧
          balance.add value = .ok sum) := by
  unfold addBalance at h
  rcases hbalance : t.accounts.find (owner, symbolName value.symbol) with _ | balance
  · rw [hbalance] at h
    cases h
    exact ⟨value, rfl, .inl ⟨rfl, rfl⟩⟩
  · simp only [hbalance, ok_iff] at h
    obtain ⟨sum, hsum, rfl⟩ := h
    exact ⟨sum, rfl, .inr ⟨balance, rfl, hsum⟩⟩

theorem InRange.takeBalance (h : InRange t) {balance : Asset}
    (hbalance : t.accounts.find (owner, symbolName value.symbol) = some balance)
    (htake : takeBalance t owner balance value = .ok t') : InRange t' := by
  rcases takeBalance_ok htake with ⟨_, rfl⟩ | ⟨left, _, hleft, rfl⟩
  · exact Table.forall_erase h
  · exact Table.forall_put h (Asset.sub_ok hleft (h _ _ hbalance)).2

theorem InRange.addBalance (h : InRange t) (hv : InWindow value.amount)
    (hadd : addBalance t owner value = .ok t') : InRange t' := by
  obtain ⟨sum, rfl, ⟨_, rfl⟩ | ⟨balance, hbalance, hsum⟩⟩ := addBalance_ok hadd
  · exact Table.forall_put h hv
  · exact Table.forall_put h (Asset.add_ok hsum (h _ _ hbalance)).2

theorem Transfer.inRange (h : Transfer fp c lock deposit t sender receiver quantity t')
    (ht : InRange t) : InRange t' := by
  obtain ⟨balance, t1, hbalance, _, htake, hadd⟩ := h.moved
  exact (ht.takeBalance hbalance htake).addBalance (Asset.inWindow_of_isValid h.valid) hadd

end YottaChain.Token

namespace YottaChain.Channel

open Checked

def OnlyLogs (sent : List Sent) : Prop :=
  ∀ x ∈ sent, ∃ type quant user memo, x.act = .channellog type quant user memo

theorem onlyLogs_nil : OnlyLogs [] := by
  intro x hx
  cases hx

theorem onlyLogs_singleton (actor : Name) (type : UInt8) (quant : Asset) (user : Name)
    (memo : Text) : OnlyLogs [⟨actor, .channellog type quant user memo⟩] := by
  intro x hx
  rw [List.mem_singleton.mp hx]
  exact ⟨type, quant, user, memo, rfl⟩

/-- What `channel.sys` does with tokens it receives: book them, or forward them. -/
inductive Receives (t : Tables) (sender : Name) (quantity : Asset) (memo : Text) :
    Tables → List Sent → Prop
  | booked {t'} (user : Name) (type : UInt8) (h : credit t user type quantity = .ok t')
      (logs : List Sent) (hlogs : OnlyLogs logs) :
      Receives t sender quantity memo t' logs
  | forwarded (type : UInt8) (user : Name) (hparse : parseMemo memo = .ok (type, user))
      (hsender : sender = mapAccount) :
      Receives t sender quantity memo t [⟨self, .paydeppool2 user quantity⟩]

theorem transfercore_ok {t t' : Tables} {sender : Name} {quantity : Asset} {memo : Text}
    {sent : List Sent} (h : transfercore t sender self quantity memo = .ok (t', sent)) :
    quantity.symbol = coreSymbol ∧ Receives t sender quantity memo t' sent := by
  rw [transfercore, if_neg (by simp)] at h
  simp only [ok_iff] at h
  obtain ⟨hsym, ⟨type, user⟩, hparse, h⟩ := h
  refine ⟨hsym, ?_⟩
  by_cases h12 : type = 1 ∨ type = 2
  · simp only [if_pos h12, ok_iff] at h
    obtain ⟨_, t1, hcredit, rfl, rfl⟩ := h
    exact .booked user 1 hcredit [] onlyLogs_nil
  rw [if_neg h12] at h
  by_cases h3 : type = 3
  · simp only [if_pos h3, ok_iff] at h
    obtain ⟨_, t1, hcredit, rfl, rfl⟩ := h
    exact .booked user 1 hcredit [] onlyLogs_nil
  rw [if_neg h3] at h
  by_cases h4 : type = 4
  · simp only [if_pos h4, ok_iff] at h
    obtain ⟨hsender, rfl, rfl⟩ := h
    exact .forwarded type user hparse hsender
  rw [if_neg h4] at h
  by_cases h5 : type = 5
  · simp only [if_pos h5, ok_iff] at h
    obtain ⟨_, t1, hcredit, rfl, rfl⟩ := h
    exact .booked user 2 hcredit _ (onlyLogs_singleton _ _ _ _ _)
  rw [if_neg h5] at h
  cases h

end YottaChain.Channel

namespace YottaChain.Ledger

open Checked FixedWidth

/-! ## 2. Messages -/

inductive Handled (fp : Doubles) (e : Env) (c : Ctx) (w : World) :
    Act → World → List Message → Prop
  | deposit {a t sent} (h : HddDeposit.Effect c w.token w.deposit a t sent) :
      Handled fp e c w a { w with deposit := t } (sent.map .ofSent)
  | transfer {sender receiver quantity memo t} (hother : receiver ≠ Channel.self)
      (h : Token.Transfer fp c e.lock w.deposit w.token sender receiver quantity t) :
      Handled fp e c w (.transfer sender receiver quantity memo) { w with token := t } []
  | incoming {sender quantity memo t channel sent}
      (h : Token.Transfer fp c e.lock w.deposit w.token sender Channel.self quantity t)
      (hcore : Channel.transfercore w.channel sender Channel.self quantity memo =
        .ok (channel, sent)) :
      Handled fp e c w (.transfer sender Channel.self quantity memo)
        { w with token := t, channel := channel } (sent.map .ofSent)
  | mapc {user quant gas bscaddr t sent}
      (h : Channel.mapc c w.channel user quant gas bscaddr = .ok (t, sent)) :
      Handled fp e c w (.mapc user quant gas bscaddr) { w with channel := t } (sent.map .ofSent)
  | feetoc {user quant t sent} (h : Channel.feetoc c w.channel user quant = .ok (t, sent)) :
      Handled fp e c w (.feetoc user quant) { w with channel := t } (sent.map .ofSent)
  | subfee {user quant memo t sent}
      (h : Channel.subfee c w.channel user quant memo = .ok (t, sent)) :
      Handled fp e c w (.subfee user quant memo) { w with channel := t } (sent.map .ofSent)
  | splitgas {t sent} (h : Channel.splitgas fp c e.hddpool w.channel = .ok (t, sent)) :
      Handled fp e c w .splitgas { w with channel := t } (sent.map .ofSent)
  | rewardnode {user quant memo t sent}
      (h : Channel.rewardnode c w.channel user quant memo = .ok (t, sent)) :
      Handled fp e c w (.rewardnode user quant memo) { w with channel := t } (sent.map .ofSent)
  | create {issuer maximumSupply t} (h : Token.create c w.token issuer maximumSupply = .ok t) :
      Handled fp e c w (.create issuer maximumSupply) { w with token := t } []
  | issue {receiver quantity memo t sent}
      (h : Token.issue c w.token receiver quantity memo = .ok (t, sent)) :
      Handled fp e c w (.issue receiver quantity memo) { w with token := t } (sent.map .ofSent)
  | retire {quantity memo t} (h : Token.retire c w.token quantity memo = .ok t) :
      Handled fp e c w (.retire quantity memo) { w with token := t } []
  | depositlog {type quant user} : Handled fp e c w (.depositlog type quant user) w []
  | channellog {type quant user memo} : Handled fp e c w (.channellog type quant user memo) w []
  | changevotes {voter} : Handled fp e c w (.changevotes voter) w []

section Handle

variable {fp : Doubles} {e : Env} {c : Ctx} {w w' : World} {sent : List Message}

theorem onDeposit_ok {outcome : Checked HddDeposit.Outcome}
    (h : onDeposit w outcome = .ok (w', sent)) :
    ∃ t out, outcome = .ok (t, out) ∧ w' = { w with deposit := t } ∧ sent = out.map .ofSent := by
  simp only [onDeposit, ok_iff] at h
  obtain ⟨⟨t, out⟩, hout, rfl, rfl⟩ := h
  exact ⟨t, out, hout, rfl, rfl⟩

theorem onChannel_ok {outcome : Checked Channel.Outcome}
    (h : onChannel w outcome = .ok (w', sent)) :
    ∃ t out, outcome = .ok (t, out) ∧ w' = { w with channel := t } ∧ sent = out.map .ofSent := by
  simp only [onChannel, ok_iff] at h
  obtain ⟨⟨t, out⟩, hout, rfl, rfl⟩ := h
  exact ⟨t, out, hout, rfl, rfl⟩

theorem transferred_handled {sender receiver : Name} {quantity : Asset} {memo : Text}
    (h : transferred fp e w c sender receiver quantity memo = .ok (w', sent)) :
    Handled fp e c w (.transfer sender receiver quantity memo) w' sent := by
  simp only [transferred, bind_eq_ok] at h
  obtain ⟨⟨t, recipients⟩, htransfer, h⟩ := h
  obtain ⟨hmem, hok⟩ := Token.transfer_ok htransfer
  by_cases hself : receiver = Channel.self
  · subst hself
    rw [if_pos (List.contains_iff_mem.mpr hmem)] at h
    obtain ⟨channel, out, hcore, rfl, rfl⟩ := onChannel_ok h
    exact .incoming hok hcore
  · -- a notification of a transfer to someone else changes nothing
    have hnothing : w' = { w with token := t } ∧ sent = [] := by
      by_cases hin : recipients.contains Channel.self
      · rw [if_pos hin, Channel.transfercore, if_pos hself] at h
        cases h
        exact ⟨rfl, rfl⟩
      · rw [if_neg hin] at h
        cases h
        exact ⟨rfl, rfl⟩
    obtain ⟨rfl, rfl⟩ := hnothing
    exact .transfer hself hok

theorem handle_handled {m : Message} (h : handle fp e w m = .ok (w', sent)) :
    Handled fp e (e.acting m.auths) w m.act w' sent := by
  obtain ⟨auths, act⟩ := m
  have hdeposit : ∀ {outcome : Checked HddDeposit.Outcome},
      (∀ t out, outcome = .ok (t, out) →
        HddDeposit.Effect (e.acting auths) w.token w.deposit act t out) →
      onDeposit w outcome = .ok (w', sent) → Handled fp e (e.acting auths) w act w' sent := by
    intro outcome heffect hout
    obtain ⟨t, out, hok, rfl, rfl⟩ := onDeposit_ok hout
    exact .deposit (heffect t out hok)
  cases act with
  | paydeppool => exact hdeposit (fun _ _ => HddDeposit.paydeppool_effect) h
  | unpaydeppool => exact hdeposit (fun _ _ => HddDeposit.unpaydeppool_effect) h
  | paydeppool2 => exact hdeposit (fun _ _ => HddDeposit.paydeppool2_effect) h
  | undeppool2 => exact hdeposit (fun _ _ => HddDeposit.undeppool2_effect) h
  | depstore => exact hdeposit (fun _ _ => HddDeposit.depstore_effect) h
  | undepstore => exact hdeposit (fun _ _ => HddDeposit.undepstore_effect) h
  | paydeposit => exact hdeposit (fun _ _ => HddDeposit.paydeposit_effect) h
  | incdeposit => exact hdeposit (fun _ _ => HddDeposit.incdeposit_effect) h
  | mforfeit => exact hdeposit (fun _ _ => HddDeposit.mforfeit_effect) h
  | delminer => exact hdeposit (fun _ _ => HddDeposit.delminer_effect) h
  | mchgdepacc => exact hdeposit (fun _ _ => HddDeposit.mchgdepacc_effect) h
  | setrate => exact hdeposit (fun _ _ => HddDeposit.setrate_effect) h
  | updatevote => exact hdeposit (fun _ _ => HddDeposit.updatevote_effect) h
  | transfer => exact transferred_handled h
  | mapc | feetoc | subfee | splitgas | rewardnode =>
    obtain ⟨t, out, hok, rfl, rfl⟩ := onChannel_ok h
    constructor
    exact hok
  | create | retire =>
    simp only [handle, ok_iff] at h
    obtain ⟨t, hok, rfl, rfl⟩ := h
    constructor
    exact hok
  | issue =>
    simp only [handle, ok_iff] at h
    obtain ⟨⟨t, out⟩, hok, rfl, rfl⟩ := h
    exact .issue hok
  | depositlog | channellog =>
    simp only [handle, ok_iff] at h
    obtain ⟨_, _, rfl, rfl⟩ := h
    constructor
  | changevotes =>
    cases h
    exact .changevotes
  | poollog | poolfail | payrewardnew | onreward | onbuild => cases h

end Handle

variable {fp : Doubles} {e : Env} {w w' : World} {c : Ctx} {a : Act} {sent : List Message}

theorem Handled.inRange (h : Handled fp e c w a w' sent) (ht : Token.InRange w.token) :
    Token.InRange w'.token := by
  cases h with
  | transfer _ h => exact h.inRange ht
  | incoming h => exact h.inRange ht
  | create h =>
    simp only [Token.create, ok_iff] at h
    obtain ⟨_, _, _, _, _, _, _, rfl⟩ := h
    exact ht
  | issue h =>
    simp only [Token.issue, ok_iff] at h
    obtain ⟨_, _, st, _, _, hvalid, _, _, _, _, _, t1, hadd, rfl, _⟩ := h
    have ht1 : ∀ stat, Token.InRange ⟨stat, w.token.accounts⟩ := fun _ => ht
    exact (ht1 _).addBalance (Asset.inWindow_of_isValid hvalid) hadd
  | retire h =>
    simp only [Token.retire, Token.subBalance, ok_iff] at h
    obtain ⟨_, _, st, _, _, _, _, _, _, _, balance, hbalance, _, htake⟩ := h
    have ht1 : ∀ stat, Token.InRange ⟨stat, w.token.accounts⟩ := fun _ => ht
    exact (ht1 (w.token.stat.put _ _)).takeBalance hbalance htake
  | _ => exact ht

/-! ## 3. Transactions -/

def Payable : Act → Prop
  | .transfer _ _ quantity _ => InWindow quantity.amount ∧ 0 < quantity.amount
  | .paydeppool2 _ quant => InWindow quant.amount ∧ 0 < quant.amount
  | _ => True

/-- A message that was handled was payable if all it sent is. -/
theorem Handled.payable (h : Handled fp e c w a w' sent) (hsent : ∀ x ∈ sent, Payable x.act) :
    Payable a := by
  cases h with
  | deposit h =>
    cases h with
    | pay2 hpos _ _ _ =>
      exact ⟨(hsent _ (List.mem_map_of_mem List.mem_cons_self)).1, hpos⟩
    | @idle a _ ha _ _ =>
      cases a with
      | paydeppool2 | transfer => cases ha
      | _ => trivial
    | _ => trivial
  | transfer _ h => exact ⟨Asset.inWindow_of_isValid h.valid, h.pos⟩
  | incoming h => exact ⟨Asset.inWindow_of_isValid h.valid, h.pos⟩
  | _ => trivial

/-- A property of the tables and the messages in flight that every message keeps,
    amounts in flight being payable, is kept by every transaction. -/
theorem exec_sound {J : World → List Message → Prop}
    (hstep : ∀ w m rest w' sent, (∀ x ∈ m :: rest, Payable x.act) →
      (∀ x ∈ sent ++ rest, Payable x.act) → J w (m :: rest) →
      Handled fp e (e.acting m.auths) w m.act w' sent → J w' (sent ++ rest)) {depth : ℕ}
    {m : Message} (h : J w [m]) (hrun : exec fp e depth w m = .ok w') : J w' [] := by
  refine Dispatch.exec_rule (I := fun w l => (∀ x ∈ l, Payable x.act) → J w l) ?_ depth
    (fun _ => h) hrun ?_
  · intro w m rest w' sent hI hhandle hpayable
    have hhandled := handle_handled hhandle
    have hm : ∀ x ∈ m :: rest, Payable x.act := by
      obtain ⟨hsent, hrest⟩ := List.forall_mem_append.mp hpayable
      exact List.forall_mem_cons.mpr ⟨hhandled.payable hsent, hrest⟩
    exact hstep w m rest w' sent hm hpayable (hI hm) hhandled
  · intro x hx
    cases hx

/-- Balances stay in range in every run of transactions. -/
theorem inRange_run {allowed : Env → World → Act → Prop}
    (hrun : Run.Steps (TxStep fp allowed) .empty w) : Token.InRange w.token := by
  refine Run.invariant (P := fun w : World => Token.InRange w.token) ?_ ?_ hrun
  · rintro w w' h ⟨e, depth, m, _, hexec⟩
    refine exec_sound (J := fun w _ => Token.InRange w.token) ?_ h hexec
    intro w m rest w' sent _ _ hw hhandled
    exact hhandled.inRange hw
  · intro k balance hbalance
    cases hbalance

def inFlight (f : Act → ℤ) (l : List Message) : ℤ := (l.map fun m => f m.act).sum

section InFlight

variable {f : Act → ℤ} {l l' : List Message}

@[simp] theorem inFlight_nil : inFlight f [] = 0 := rfl

theorem inFlight_cons (m : Message) : inFlight f (m :: l) = f m.act + inFlight f l := by
  rw [inFlight, List.map_cons, List.sum_cons, inFlight]

theorem inFlight_append : inFlight f (l ++ l') = inFlight f l + inFlight f l' := by
  rw [inFlight, List.map_append, List.sum_append, inFlight, inFlight]

theorem inFlight_nonneg (h : ∀ x ∈ l, 0 ≤ f x.act) : 0 ≤ inFlight f l := by
  refine List.sum_nonneg ?_
  intro d hd
  obtain ⟨m, hm, rfl⟩ := List.mem_map.mp hd
  exact h m hm

theorem inFlight_eq_zero {sent : List Sent} (h : ∀ x ∈ sent, f x.act = 0) :
    inFlight f (sent.map .ofSent) = 0 := by
  refine List.sum_eq_zero ?_
  intro d hd
  rw [List.map_map] at hd
  obtain ⟨x, hx, rfl⟩ := List.mem_map.mp hd
  exact h x hx

end InFlight

end YottaChain.Ledger
