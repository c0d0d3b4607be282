/-
  **What a message does to the whole, and the rule for whole transactions.**

  `exec_sound` is the rule of the ledger for the whole: while a property is kept
  from message to message it may be assumed that what is in flight can be executed,
  since a transaction with a message that cannot be fails.
-/
import YottaChain.CoreBalances
import YottaChain.Economy

namespace YottaChain.Economy

open Checked FixedWidth List

variable {env : System.Env} {st st' : State} {m : Message} {sent rest : List Message}

/-! ## 1. Messages -/

inductive Handled (env : System.Env) (st : State) (m : Message) : State → List Message → Prop
  | ledger {a w out} (hrequest : m.request = .ledger a)
      (h : Ledger.Handled env.fp (ledgerEnv (acting env st m.auths)) (acting env st m.auths).ctx
        st.ledger a w out) :
      Handled env st m { st with ledger := w } (out.map .ofLedger)
  | system {a t out} (hrequest : m.request = .system a)
      (h : System.apply (acting env st m.auths) st.system a = .ok (t, out)) :
      Handled env st m { st with system := t } (out.map .ofSent)

theorem handle_handled (h : handle env st m = .ok (st', sent)) : Handled env st m st' sent := by
  obtain ⟨auths, request⟩ := m
  cases request with
  | system =>
    simp only [handle, ok_iff] at h
    obtain ⟨⟨t, out⟩, hcall, rfl, rfl⟩ := h
    exact .system rfl hcall
  | ledger a =>
    have hledger : ∃ w out, Ledger.handle env.fp (ledgerEnv (acting env st auths)) st.ledger
        ⟨auths, a⟩ = .ok (w, out) ∧ st' = { st with ledger := w } ∧ sent = out.map .ofLedger := by
      cases a with
      | changevotes => cases h
      | _ =>
        simp only [handle, ok_iff] at h
        obtain ⟨⟨w, out⟩, hcall, rfl, rfl⟩ := h
        exact ⟨w, out, hcall, rfl, rfl⟩
    obtain ⟨w, out, hcall, rfl, rfl⟩ := hledger
    exact .ledger rfl (Ledger.handle_handled hcall)

/-- A transfer goes to someone else, and amounts that are moved are in range and positive. -/
def Executable (m : Message) : Prop :=
  match m.request with
  | .ledger (.transfer sender receiver quantity _) =>
      sender ≠ receiver ∧ InWindow quantity.amount ∧ 0 < quantity.amount
  | .ledger a => Ledger.Payable a
  | .system _ => True

theorem Executable.payable {x : Ledger.Message} (h : Executable (.ofLedger x)) :
    Ledger.Payable x.act := by
  obtain ⟨auths, act⟩ := x
  cases act with
  | transfer => exact h.2
  | paydeppool2 => exact h
  | _ => trivial

/-- A message that was handled was executable if all it sent is. -/
theorem Handled.executable (h : Handled env st m st' sent) (hsent : ∀ x ∈ sent, Executable x) :
    Executable m := by
  obtain ⟨auths, request⟩ := m
  cases h with
  | system hrequest =>
    cases hrequest
    trivial
  | @ledger a _ _ hrequest hledger =>
    cases hrequest
    have hpayable := hledger.payable fun x hx =>
      (hsent (.ofLedger x) (mem_map_of_mem hx)).payable
    cases hledger with
    | transfer _ htransfer => exact ⟨htransfer.ne, hpayable⟩
    | incoming htransfer => exact ⟨htransfer.ne, hpayable⟩
    | deposit heffect =>
      cases a with
      | transfer => cases heffect with | idle ha _ _ => cases ha
      | _ => exact hpayable
    | _ => trivial

/-! ## 2. Transactions -/

variable {depth : ℕ}

/-- A property of the state and the messages in flight that every message keeps, as long
    as what is in flight can be executed, is kept by every transaction. -/
theorem exec_sound {J : State → List Message → Prop}
    (hstep : ∀ st m rest st' sent, (∀ x ∈ m :: rest, Executable x) →
      (∀ x ∈ sent ++ rest, Executable x) → J st (m :: rest) → Handled env st m st' sent →
      J st' (sent ++ rest)) (h : J st [m]) (hrun : exec env depth st m = .ok st') : J st' [] := by
  refine Dispatch.exec_rule (I := fun st l => (∀ x ∈ l, Executable x) → J st l) ?_ depth
    (fun _ => h) hrun ?_
  · intro st m rest st' sent hI hhandle hexecutable
    have hhandled := handle_handled hhandle
    have hm : ∀ x ∈ m :: rest, Executable x := by
      obtain ⟨hsent, hrest⟩ := forall_mem_append.mp hexecutable
      exact forall_mem_cons.mpr ⟨hhandled.executable hsent, hrest⟩
    exact hstep st m rest st' sent hm hexecutable (hI hm) hhandled
  · intro x hx
    cases hx

def Inline (m : Message) : Prop :=
  (∃ a, m.request = .ledger a) ∨ ∃ voter, m.request = .system (.changevotes voter)

theorem inline_ofLedger (x : Ledger.Message) : Inline (.ofLedger x) := by
  obtain ⟨auths, act⟩ := x
  cases act with
  | changevotes voter => exact .inr ⟨voter, rfl⟩
  | _ => exact .inl ⟨_, rfl⟩

theorem Handled.inline (h : Handled env st m st' sent) : ∀ x ∈ sent, Inline x := by
  intro x hx
  cases h with
  | ledger _ _ =>
    obtain ⟨y, _, rfl⟩ := mem_map.mp hx
    exact inline_ofLedger y
  | system _ _ =>
    obtain ⟨y, _, rfl⟩ := mem_map.mp hx
    exact inline_ofLedger (.ofSent y)

/-- A transaction is the message it starts with, in the state it starts in, and then
    messages that were sent. -/
theorem exec_root {J : State → List Message → Prop}
    (hroot : ∀ st' sent, (∀ x ∈ sent, Executable x) → Handled env st m st' sent → J st' sent)
    (hinline : ∀ st x rest st' sent, Inline x → (∀ y ∈ x :: rest, Executable y) →
      (∀ y ∈ sent ++ rest, Executable y) → J st (x :: rest) → Handled env st x st' sent →
      J st' (sent ++ rest)) (hrun : exec env depth st m = .ok st') : J st' [] := by
  have hend : ([] = [m] ∧ st' = st) ∨ (J st' [] ∧ ∀ x ∈ ([] : List Message), Inline x) := by
    refine exec_sound (J := fun s l => (l = [m] ∧ s = st) ∨ (J s l ∧ ∀ x ∈ l, Inline x)) ?_
      (.inl ⟨rfl, rfl⟩) hrun
    rintro s x rest s' sent hbefore hafter (⟨hl, rfl⟩ | ⟨hJ, hall⟩) hhandled
    · cases hl
      rw [append_nil] at hafter ⊢
      exact .inr ⟨hroot s' sent hafter hhandled, hhandled.inline⟩
    · refine .inr ⟨hinline s x rest s' sent (hall x mem_cons_self) hbefore hafter hJ hhandled,
        forall_mem_append.mpr ⟨hhandled.inline, (forall_mem_cons.mp hall).2⟩⟩
  rcases hend with ⟨hnil, _⟩ | ⟨hJ, _⟩
  · cases hnil
  · exact hJ

theorem Handled.inRange (h : Handled env st m st' sent) (ht : Token.InRange st.ledger.token) :
    Token.InRange st'.ledger.token := by
  cases h with
  | ledger _ hledger => exact hledger.inRange ht
  | system => exact ht

/-- The deposits stay in order, if what is sent can be executed. -/
theorem Handled.depositLaw (h : Handled env st m st' sent)
    (hlaw : HddDeposit.DepositLaw st.ledger.deposit) (ht : Token.InRange st.ledger.token)
    (hsent : ∀ x ∈ sent, Executable x) : HddDeposit.DepositLaw st'.ledger.deposit := by
  cases h with
  | ledger _ hledger =>
    exact hledger.depositLaw hlaw ht fun x hx =>
      (hsent (.ofLedger x) (mem_map_of_mem hx)).payable
  | system => exact hlaw

/-! ## 3. Transfers sent by the system contract -/

/-- A transfer with a memo that `channel.sys` would refuse. -/
def Plain (m : Message) : Prop :=
  ∃ sender receiver quantity memo, m.request = .ledger (.transfer sender receiver quantity memo) ∧
    ∀ x, Channel.parseMemo memo ≠ .ok x

def incoming (user : Name) (m : Message) : ℤ :=
  match m.request with
  | .ledger (.transfer sender receiver quantity _) =>
      if symbolName quantity.symbol = symbolName coreSymbol then
        (if user = receiver then quantity.value else 0) - (if user = sender then quantity.value else 0)
      else 0
  | _ => 0

def due (user : Name) (l : List Message) : ℤ := (l.map (incoming user)).sum

@[simp] theorem due_nil (user : Name) : due user [] = 0 := rfl

theorem due_cons (user : Name) (m : Message) (l : List Message) :
    due user (m :: l) = incoming user m + due user l := by
  rw [due, map_cons, sum_cons, due]

variable {user : Name}

theorem due_eq_zero {l : List Message} (h : ∀ x ∈ l, incoming user x = 0) : due user l = 0 := by
  refine sum_eq_zero ?_
  intro d hd
  obtain ⟨x, hx, rfl⟩ := mem_map.mp hd
  exact h x hx

variable {sender receiver : Name}

theorem incoming_other (actor : Name) (quantity : Asset) (memo : Text) (hsender : user ≠ sender)
    (hreceiver : user ≠ receiver) :
    incoming user (.ofSent ⟨actor, .transfer sender receiver quantity memo⟩) = 0 := by
  simp [incoming, Message.ofSent, Message.ofLedger, Ledger.Message.ofSent, hsender, hreceiver]

variable {quantity : Asset}

theorem incoming_receiver (actor : Name) (memo : Text) (hsymbol : quantity.symbol = coreSymbol)
    (hsender : user ≠ sender) :
    incoming user (.ofSent ⟨actor, .transfer sender user quantity memo⟩) = quantity.value := by
  simp [incoming, Message.ofSent, Message.ofLedger, Ledger.Message.ofSent, hsender, hsymbol]

theorem incoming_sender (actor : Name) (memo : Text) (hsymbol : quantity.symbol = coreSymbol)
    (hreceiver : user ≠ receiver) :
    incoming user (.ofSent ⟨actor, .transfer user receiver quantity memo⟩) = -quantity.value := by
  simp [incoming, Message.ofSent, Message.ofLedger, Ledger.Message.ofSent, hreceiver, hsymbol]

variable {memo : Text}

theorem transfercore_parsed {t t' : Channel.Tables} {out : List Sent}
    (h : Channel.transfercore t sender Channel.self quantity memo = .ok (t', out)) :
    ∃ x, Channel.parseMemo memo = .ok x := by
  rw [Channel.transfercore, if_neg (by simp)] at h
  simp only [ok_iff] at h
  obtain ⟨_, x, hparse, _⟩ := h
  exact ⟨x, hparse⟩

theorem Handled.plain (h : Handled env st m st' sent) (hplain : Plain m)
    (ht : Token.InRange st.ledger.token) :
    sent = [] ∧ st'.system = st.system ∧ ∀ user, Token.balanceOf st'.ledger.token user =
      Token.balanceOf st.ledger.token user + incoming user m := by
  obtain ⟨auths, request⟩ := m
  obtain ⟨sender, receiver, quantity, memo, hrequest, hmemo⟩ := hplain
  cases hrequest
  cases h with
  | system hrequest => cases hrequest
  | ledger hrequest hledger =>
    cases hrequest
    cases hledger with
    | deposit heffect => cases heffect with | idle ha _ _ => cases ha
    | incoming _ hcore =>
      obtain ⟨x, hparse⟩ := transfercore_parsed hcore
      exact absurd hparse (hmemo x)
    | transfer _ htransfer =>
      refine ⟨rfl, rfl, fun user => ?_⟩
      have hmoved := htransfer.amount ht (user, symbolName coreSymbol)
      simp only [Prod.mk.injEq] at hmoved
      unfold Token.balanceOf incoming
      dsimp only
      rw [hmoved]
      by_cases hname : symbolName quantity.symbol = symbolName coreSymbol
      · simp only [hname, and_true, if_true]
        omega
      · have hname' : ¬ symbolName coreSymbol = symbolName quantity.symbol := fun h => hname h.symm
        simp only [hname', hname, and_false, if_false]
        omega

/-- **A transaction of the system contract that sends plain transfers**: the action, and
    every account gets what is sent to it. -/
theorem exec_system {a : System.Action} (hrequest : m.request = .system a)
    (ht : Token.InRange st.ledger.token)
    (hplain : ∀ t out, System.apply (acting env st m.auths) st.system a = .ok (t, out) →
      ∀ x ∈ out, Plain (.ofSent x)) (hrun : exec env depth st m = .ok st') :
    ∃ out, System.apply (acting env st m.auths) st.system a = .ok (st'.system, out) ∧
      (∀ x ∈ out, Executable (.ofSent x)) ∧ Token.InRange st'.ledger.token ∧
      ∀ user, Token.balanceOf st'.ledger.token user =
        Token.balanceOf st.ledger.token user + due user (out.map .ofSent) := by
  have hend : ∃ out, System.apply (acting env st m.auths) st.system a = .ok (st'.system, out) ∧
      (∀ x ∈ out, Executable (.ofSent x)) ∧ Token.InRange st'.ledger.token ∧
      (∀ x ∈ ([] : List Message), Plain x) ∧ ∀ user, Token.balanceOf st'.ledger.token user +
        due user [] = Token.balanceOf st.ledger.token user + due user (out.map .ofSent) := by
    refine exec_root (J := fun s l => ∃ out,
      System.apply (acting env st m.auths) st.system a = .ok (s.system, out) ∧
        (∀ x ∈ out, Executable (.ofSent x)) ∧ Token.InRange s.ledger.token ∧ (∀ x ∈ l, Plain x) ∧
        ∀ user, Token.balanceOf s.ledger.token user + due user l =
          Token.balanceOf st.ledger.token user + due user (out.map .ofSent)) ?_ ?_ hrun
    · intro s sent hsent hhandled
      cases hhandled with
      | ledger hother =>
        rw [hrequest] at hother
        cases hother
      | @system b t out hsame hcall =>
        rw [hrequest] at hsame
        cases hsame
        refine ⟨out, hcall, fun x hx => hsent _ (mem_map_of_mem hx), ht, ?_, fun _ => rfl⟩
        intro x hx
        obtain ⟨y, hy, rfl⟩ := mem_map.mp hx
        exact hplain t out hcall y hy
    · rintro s x rest s' sent _ _ _ ⟨out, hcall, hexecutable, hrange, hrest, hbalance⟩ hhandled
      obtain ⟨rfl, hsystem, hmoved⟩ := hhandled.plain (hrest x mem_cons_self) hrange
      refine ⟨out, hsystem ▸ hcall, hexecutable, hhandled.inRange hrange,
        fun y hy => hrest y (mem_cons_of_mem _ hy), fun user => ?_⟩
      have hbefore := hbalance user
      rw [due_cons] at hbefore
      rw [nil_append, hmoved user]
      omega
  obtain ⟨out, hcall, hexecutable, hrange, _, hbalance⟩ := hend
  refine ⟨out, hcall, hexecutable, hrange, fun user => ?_⟩
  have hfinal := hbalance user
  rw [due_nil, add_zero] at hfinal
  exact hfinal

def systemMemos : List Text :=
  ["stake bandwidth".toList, "unstake".toList, "buy ram".toList, "ram fee".toList,
    "sell ram".toList, "sell ram fee".toList]

theorem systemMemos_refused : ∀ memo ∈ systemMemos, ∀ x, Channel.parseMemo memo ≠ .ok x := by
  intro memo hmemo x hparse
  have hall : ∀ memo ∈ systemMemos, (Channel.parseMemo memo).isOk = false := by decide +kernel
  have hfail := hall memo hmemo
  rw [hparse] at hfail
  cases hfail

theorem plain_of_memo (actor sender receiver : Name) (quantity : Asset) (hmemo : memo ∈ systemMemos)
    : Plain (.ofSent ⟨actor, .transfer sender receiver quantity memo⟩) :=
  ⟨sender, receiver, quantity, memo, rfl, systemMemos_refused memo hmemo⟩

end YottaChain.Economy
