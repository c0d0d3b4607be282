/-
  **Who loses tokens has signed.**

  Tokens leave an account by a transfer or by being retired, and both ask for its authority.  The
  contracts themselves send transfers with the authority of others, so the statement is about
  all messages of a transaction: if none carries the authority of an account, the account loses
  nothing, whatever the contracts do.
-/
import YottaChain.CoreBalances

namespace YottaChain.Ledger

open Checked Token

/-- The ledger if messages with the authority of `user` are refused. -/
def handleWithout (user : Name) (fp : Doubles) (e : Env) (w : World) (m : Message) :
    Checked (World × List Message) := do
  ensure (user ∉ m.auths) "signed"
  handle fp e w m

variable {fp : Doubles} {e : Env} {w w' : World} {user : Name} {sym : UInt64}

/-- Nothing else is different. -/
theorem exec_of_without {depth : ℕ} {m : Message}
    (h : Dispatch.exec (handleWithout user fp e) depth w m = .ok w') :
    exec fp e depth w m = .ok w' := by
  unfold exec
  induction depth generalizing w w' m with
  | zero =>
    simp only [Dispatch.exec, handleWithout, ok_iff] at h ⊢
    obtain ⟨out, ⟨_, hout⟩, hrest⟩ := h
    exact ⟨out, hout, hrest⟩
  | succ _ ih =>
    simp only [Dispatch.exec, handleWithout, ok_iff] at h ⊢
    obtain ⟨⟨w1, sent⟩, ⟨_, hout⟩, hrest⟩ := h
    refine ⟨(w1, sent), hout, ?_⟩
    clear hout
    dsimp only at hrest ⊢
    induction sent generalizing w1 with
    | nil => exact hrest
    | cons m sent ihs =>
      rw [List.foldlM_cons, bind_eq_ok] at hrest ⊢
      obtain ⟨w2, hm, hrest⟩ := hrest
      exact ⟨w2, ih hm, ihs w2 hrest⟩

section Balances

variable {t t' : Token.Tables} {owner : Name} {value : Asset}

theorem amount_le_of_addBalance (ht : InRange t) (hpos : 0 < value.amount)
    (h : addBalance t owner value = .ok t') (k : Name × UInt64) : amountAt t k ≤ amountAt t' k := by
  have hvalue := HddDeposit.value_pos hpos
  rw [addBalance_amount ht h]
  split
  · omega
  · omega

theorem amount_of_takeBalance {balance : Asset} (ht : InRange t) (hne : owner ≠ user)
    (hbalance : t.accounts.find (owner, symbolName value.symbol) = some balance)
    (h : takeBalance t owner balance value = .ok t') :
    amountAt t' (user, sym) = amountAt t (user, sym) := by
  have hkey : ¬ (user, sym) = (owner, symbolName value.symbol) :=
    fun heq => hne (Prod.mk.inj heq).1.symm
  rw [takeBalance_amount h (ht _ _ hbalance) hbalance, if_neg hkey, sub_zero]

end Balances

theorem handle_amount_le {m : Message} {sent : List Message} (ht : InRange w.token)
    (hm : user ∉ m.auths) (h : handle fp e w m = .ok (w', sent)) :
    amountAt w.token (user, sym) ≤ amountAt w'.token (user, sym) := by
  obtain ⟨auths, act⟩ := m
  have hrange : ∀ stat, InRange ⟨stat, w.token.accounts⟩ := fun _ => ht
  have hne : ∀ {v}, (e.acting auths).hasAuth v = true → v ≠ user := by
    rintro v hv rfl
    exact hm (List.contains_iff_mem.mp hv)
  have hpaid : ∀ {sender receiver quantity memo t}, act = .transfer sender receiver quantity memo →
      Transfer fp (e.acting auths) e.lock w.deposit w.token sender receiver quantity t →
      amountAt w.token (user, sym) ≤ amountAt t (user, sym) := by
    rintro sender receiver quantity memo t rfl htransfer
    simp only [handle, transferred, Token.transfer, ok_iff] at h
    obtain ⟨_, ⟨_, hauth, _⟩, _⟩ := h
    obtain ⟨balance, t1, hbalance, _, htake, hadd⟩ := htransfer.moved
    rw [← amount_of_takeBalance ht (hne hauth) hbalance htake]
    exact amount_le_of_addBalance (ht.takeBalance hbalance htake) htransfer.pos hadd _
  cases handle_handled h with
  | transfer _ htransfer => exact hpaid rfl htransfer
  | incoming htransfer => exact hpaid rfl htransfer
  | create hcreate =>
    simp only [Token.create, ok_iff] at hcreate
    obtain ⟨_, _, _, _, _, _, _, _, rfl⟩ := hcreate
    exact le_refl _
  | issue hissue =>
    simp only [Token.issue, ok_iff] at hissue
    obtain ⟨_, _, _, _, _, _, hpos, _, _, _, _, _, hadd, rfl, _⟩ := hissue
    exact amount_le_of_addBalance (hrange _) hpos hadd _
  | retire hretire =>
    simp only [Token.retire, subBalance, ok_iff] at hretire
    obtain ⟨_, _, _, _, hauth, _, _, _, _, _, _, hbalance, _, htake⟩ := hretire
    exact (amount_of_takeBalance (hrange (w.token.stat.put _ _)) (hne hauth) hbalance htake).ge
  | _ => exact le_refl _

/-- What a transaction keeps, whatever is in flight. -/
def HasAtLeast (user : Name) (sym : UInt64) (amount : ℤ) (w : World) (_ : List Message) : Prop :=
  InRange w.token ∧ amount ≤ amountAt w.token (user, sym)

/-- **No account loses tokens unsigned**: none of its balances falls in a run of transactions in
    which no message, signed by users or sent by a contract, carries its authority. -/
theorem unsigned_balances_kept (ht : InRange w.token) (hrun : Run.Steps (fun w w' =>
      ∃ e depth m, Dispatch.exec (handleWithout user fp e) depth w m = .ok w') w w')
    (sym : UInt64) : amountAt w.token (user, sym) ≤ amountAt w'.token (user, sym) := by
  refine (Run.invariant (P := fun v => HasAtLeast user sym (amountAt w.token (user, sym)) v []) ?_
    ⟨ht, le_refl _⟩ hrun).2
  rintro v v' hkept ⟨e, depth, m, hexec⟩
  have hstart : HasAtLeast user sym (amountAt w.token (user, sym)) v [m] := hkept
  refine Dispatch.exec_rule ?_ depth hstart hexec
  rintro v m _ v' sent ⟨hrange, hle⟩ hhandle
  simp only [handleWithout, ok_iff] at hhandle
  exact ⟨(handle_handled hhandle.2).inRange hrange,
    hle.trans (handle_amount_le hrange hhandle.1 hhandle.2)⟩

def sampleIssue : List Message :=
  [⟨[Token.self], .create 1 ⟨1000000000, coreSymbol⟩⟩, ⟨[1], .issue 7 ⟨800000, coreSymbol⟩ []⟩]

theorem unsigned_balances_kept_sample : ∃ w w', balanceOf w.token 7 = 800000 ∧
    exec .whole .plain 4 w ⟨[1], .issue 7 ⟨500, coreSymbol⟩ []⟩ = .ok w' ∧
    800000 ≤ balanceOf w'.token 7 := by
  obtain ⟨w, hw, hview⟩ := exists_of_map_eq_ok (x := execs .whole .plain 4 .empty sampleIssue)
    (f := fun w => (balanceOf w.token 7, (Dispatch.exec (handleWithout 7 .whole .plain) 4 w
      ⟨[1], .issue 7 ⟨500, coreSymbol⟩ []⟩).map fun _ => ()))
    (b := (800000, .ok ())) (by decide +kernel)
  obtain ⟨hbalance, hmap⟩ := Prod.mk.inj hview
  obtain ⟨w', hexec, _⟩ := exists_of_map_eq_ok hmap
  have hrun : Run.Steps (TxStep .whole fun _ _ _ => True) .empty w :=
    execs_steps (fun _ _ _ => trivial) hw
  have hkept := unsigned_balances_kept (inRange_run hrun)
    (.single ⟨.plain, 4, _, hexec⟩) (symbolName coreSymbol)
  exact ⟨w, w', hbalance, exec_of_without hexec, hbalance ▸ hkept⟩

end YottaChain.Ledger
