/-
  **Runs of `hddpool`.**

  An `Action` is a call of the contract with its arguments, one constructor per
  entry of the dispatch table.  A step is a successful call in some execution
  context and with some contents of the tables of other contracts, so that a
  property of every run holds whatever the rest of the chain does in between.
  A call that fails leaves the tables as they were and is no step.
-/
import YottaChain.HddPoolLottery
import YottaChain.HddPoolParams

namespace YottaChain.HddPool

open Checked

inductive Disabled where
  | calcmbalance
  | newminer
  | addm2pool
  | mchgspace
  | fixownspace
deriving DecidableEq

def Disabled.message : Disabled → String
  | .calcmbalance => "not support now!"
  | .newminer => "not support now."
  | .addm2pool => "not support now."
  | .mchgspace => "not support now."
  | .fixownspace => "not support now!"

inductive Action where
  | onbuild (slot : UInt32)
  | onreward (slot : UInt32)
  | payrewardnew (type : UInt8) (quant : Asset) (minerid : UInt64) (isDestory : Bool)
  | channellog (type : UInt8) (quant : Asset) (minerid : UInt64) (gas : Asset) (owner : Name)
  | channelfail
  | getbalance (user : Name) (accType : UInt8) (caller : Name)
  | calcprofit (user : Name)
  | buyhdd (sender receiver : Name) (amount : Int64) (memo : Text)
  | transhdds (sender receiver : Name) (amount : Int64) (memo : Text)
  | sellhdd (user : Name) (amount : Int64) (memo : Text)
  | sethfee (user : Name) (fee : Int64) (caller : Name)
  | subbalance (user : Name) (balance : Int64) (accType : UInt8) (caller : Name)
  | addhspace (user : Name) (space : UInt64) (caller : Name)
  | subhspace (user : Name) (space : UInt64) (caller : Name)
  | addmprofit (minerid space : UInt64) (caller : Name)
  | submprofit (minerid space : UInt64) (caller : Name)
  | mdeactive (minerid : UInt64) (caller : Name)
  | mactive (minerid : UInt64) (caller : Name)
  | delminer (minerid : UInt64) (accType : UInt8) (caller : Name)
  | regminer (minerid : UInt64) (adminacc depAcc poolId minerowner : Name) (maxSpace : UInt64)
      (depAmount : Asset) (isCalc : Bool)
  | delstrpool (poolid : Name)
  | regstrpool (poolId poolOwner : Name)
  | chgpoolspace (poolId : Name) (isIncrease : Bool) (deltaSpace : UInt64)
  | mchgstrpool (minerid : UInt64) (newPoolid : Name)
  | mincdeposit (minerid space : UInt64) (depAmount : Asset) (isCalc : Bool)
  | mchgadminacc (minerid : UInt64) (newAdminacc : Name)
  | mchgowneracc (minerid : UInt64) (newOwneracc : Name)
  | mlevel (minerid : UInt64) (level : UInt32) (caller : Name)
  | mrspace (minerid realSpace : UInt64) (caller : Name)
  | oldsync (minerid : UInt64)
  | startnewm
  | sethddprice (price : UInt64)
  | setusdprice (price : UInt64) (accType : UInt8)
  | setytaprice (price : UInt64) (accType : UInt8)
  | setdrratio (ratio : UInt64) (accType : UInt8)
  | setdrdratio (ratio : UInt64)
  | addhddcnt (count : Int64) (accType : UInt8)
  | disabled (which : Disabled)

def apply (fp : Doubles) (c : Ctx) (v : Views) (s : Tables) : Action → Checked Outcome
  | .onbuild slot => onbuild c s slot
  | .onreward slot => onreward fp c v s slot
  | .payrewardnew type quant minerid isDestory => payrewardnew fp c v s type quant minerid isDestory
  | .channellog type quant minerid gas owner => channellog c s type quant minerid gas owner
  | .channelfail => channelfail c s
  | .getbalance user accType caller => getbalance fp c s user accType caller
  | .calcprofit user => calcprofit fp c s user
  | .buyhdd sender receiver amount memo => buyhdd fp c s sender receiver amount memo
  | .transhdds sender receiver amount memo => transhdds c s sender receiver amount memo
  | .sellhdd user amount memo => sellhdd fp c s user amount memo
  | .sethfee user fee caller => sethfee fp c s user fee caller
  | .subbalance user balance accType caller => subbalance c s user balance accType caller
  | .addhspace user space caller => addhspace c s user space caller
  | .subhspace user space caller => subhspace c s user space caller
  | .addmprofit minerid space caller => addmprofit fp c s minerid space caller
  | .submprofit minerid space caller => submprofit fp c s minerid space caller
  | .mdeactive minerid caller => mdeactive fp c s minerid caller
  | .mactive minerid caller => mactive fp c s minerid caller
  | .delminer minerid accType caller => delminer fp c s minerid accType caller
  | .regminer minerid adminacc depAcc poolId minerowner maxSpace depAmount isCalc =>
      regminer fp c v s minerid adminacc depAcc poolId minerowner maxSpace depAmount isCalc
  | .delstrpool poolid => delstrpool c s poolid
  | .regstrpool poolId poolOwner => regstrpool c s poolId poolOwner
  | .chgpoolspace poolId isIncrease deltaSpace => chgpoolspace c s poolId isIncrease deltaSpace
  | .mchgstrpool minerid newPoolid => mchgstrpool c s minerid newPoolid
  | .mincdeposit minerid space depAmount isCalc => mincdeposit fp c v s minerid space depAmount isCalc
  | .mchgadminacc minerid newAdminacc => mchgadminacc c s minerid newAdminacc
  | .mchgowneracc minerid newOwneracc => mchgowneracc fp c s minerid newOwneracc
  | .mlevel minerid level caller => mlevel c s minerid level caller
  | .mrspace minerid realSpace caller => mrspace c s minerid realSpace caller
  | .oldsync minerid => oldsync c s minerid
  | .startnewm => startnewm fp c s
  | .sethddprice price => sethddprice c s price
  | .setusdprice price accType => setusdprice fp c s price accType
  | .setytaprice price accType => setytaprice fp c s price accType
  | .setdrratio ratio accType => setdrratio c s ratio accType
  | .setdrdratio ratio => setdrdratio c s ratio
  | .addhddcnt count accType => addhddcnt c s count accType
  | .disabled which => .error which.message

/-- A successful call of `a`. -/
def Call (fp : Doubles) (a : Action) (s s' : Tables) : Prop :=
  ∃ c v sent, apply fp c v s a = .ok (s', sent)

/-- A successful call of some action that `allowed` admits. -/
def Step (fp : Doubles) (allowed : Action → Prop) (s s' : Tables) : Prop :=
  ∃ a, allowed a ∧ Call fp a s s'

abbrev AnyStep (fp : Doubles) : Tables → Tables → Prop := Step fp fun _ => True

/-! ## Evaluating runs -/

def runActions (fp : Doubles) (c : Ctx) (v : Views) : Tables → List Action → Checked Tables
  | s, [] => .ok s
  | s, a :: rest => do
      let r ← apply fp c v s a
      runActions fp c v r.1 rest

theorem runActions_steps {fp : Doubles} {c : Ctx} {v : Views} {allowed : Action → Prop}
    {actions : List Action} {s s' : Tables} (hall : ∀ a ∈ actions, allowed a)
    (h : runActions fp c v s actions = .ok s') : Run.Steps (Step fp allowed) s s' := by
  induction actions generalizing s with
  | nil =>
    cases h
    exact .refl
  | cons a _ ih =>
    simp only [runActions, bind_eq_ok] at h
    obtain ⟨⟨s1, sent⟩, hcall, hrest⟩ := h
    refine .head ⟨a, hall a List.mem_cons_self, c, v, sent, hcall⟩ ?_
    exact ih (fun b hb => hall b (List.mem_cons_of_mem a hb)) hrest

/-- A run in which every call is tested, with the tables before and after it. -/
def runTested (fp : Doubles) (c : Ctx) (v : Views) (test : Tables → Action → Tables → Bool)
    (s : Tables) (actions : List Action) : Checked Tables :=
  actions.foldlM (fun s a => do
    let r ← apply fp c v s a
    ensure (test s a r.1 = true) "not in the run"
    pure r.1) s

theorem runTested_steps {fp : Doubles} {c : Ctx} {v : Views} {R : Tables → Tables → Prop}
    {test : Tables → Action → Tables → Bool} {actions : List Action}
    (hR : ∀ a ∈ actions, ∀ s s', test s a s' = true → Call fp a s s' → R s s') {s s' : Tables}
    (h : runTested fp c v test s actions = .ok s') : Run.Steps R s s' := by
  refine Run.steps_of_foldlM (fun a ha s s' h => ?_) h
  simp only [ok_iff] at h
  obtain ⟨⟨s1, sent⟩, hcall, htest, rfl⟩ := h
  exact hR a ha s s1 htest ⟨c, v, sent, hcall⟩

end YottaChain.HddPool
