/-
  **What a successful `hdddeposit` action does.**

  `Effect` lists the changes an action can make to the pools and the deposits of
  miners, each with the checks that were passed and the actions that are sent.
  The two pools are told apart by the type of the miners they are for, so that a
  fine, a deletion and a change of account are one case each.
-/
import YottaChain.HddDeposit

namespace YottaChain.HddDeposit

open Checked

/-! ## 1. The pool of a type of miners -/

namespace Tables

def pool (t : Tables) (type : UInt8) : Table Name DepositPool :=
  if type = 0 then t.depositpool else t.depositpool2

def setPool (t : Tables) (type : UInt8) (pool : Table Name DepositPool) : Tables :=
  if type = 0 then { t with depositpool := pool } else { t with depositpool2 := pool }

end Tables

def IsType (type : UInt8) : Prop := type = 0 ∨ type = 1

theorem pool_setPool {t : Tables} {type type' : UInt8} {pool : Table Name DepositPool}
    (h : IsType type) (h' : IsType type') :
    (t.setPool type pool).pool type' = if type' = type then pool else t.pool type' := by
  rcases h with rfl | rfl <;> rcases h' with rfl | rfl <;> rfl

@[simp] theorem miner2dep_setPool (t : Tables) (type : UInt8) (pool : Table Name DepositPool) :
    (t.setPool type pool).miner2dep = t.miner2dep := by
  unfold Tables.setPool
  split <;> rfl

/-! ## 2. The changes -/

def sentBack (user : Name) (quant : Asset) : List Sent :=
  [⟨user, .transfer user (N "store.sys") quant "unpaydeppool2".toList⟩,
    ⟨N "store.sys", .transfer (N "store.sys") channelSys quant
      ("3:".toList ++ nameToString user ++ ":0".toList)⟩,
    ⟨self, .depositlog 3 quant user⟩]

def forfeitAccount (type : UInt8) : Name :=
  if type = 0 then N "yottaforfeit" else N "forfeit.sys"

structure SamePools (t t' : Tables) : Prop where
  depositpool : t'.depositpool = t.depositpool
  depositpool2 : t'.depositpool2 = t.depositpool2
  miner2dep : t'.miner2dep = t.miner2dep

/-- The actions that can leave pools and deposits as they are: a deletion does so
    if the miner has no deposit. -/
def mayIdle : Act → Bool
  | .delminer _ | .setrate _ | .updatevote _ => true
  | _ => false

inductive Effect (c : Ctx) (token : Token.Tables) (t : Tables) : Act → Tables → List Sent → Prop
  | idle {a t'} (ha : mayIdle a) (hsame : SamePools t t') (voters : List Name) :
      Effect c token t a t' (voters.map fun u => ⟨u, .changevotes u⟩)
  | store {user quant t'} (hsame : SamePools t t') :
      Effect c token t (.depstore user quant) t'
        [⟨user, .transfer user (N "pool.sys") quant "deopsit for data storage".toList⟩]
  | unstore {user caller t'} (hsame : SamePools t t') (quant : Asset) :
      Effect c token t (.undepstore user caller) t'
        [⟨N "pool.sys", .transfer (N "pool.sys") user quant
          "return deopsit for data storage".toList⟩]
  | pay {user quant} (hpos : 0 < quant.amount) (balance : Asset)
      (hbalance : token.accounts.find (user, symbolName coreSymbol) = some balance)
      (hcover : quant.amount ≤
        balance.amount - poolTotal t.depositpool user - poolTotal t.depositpool2 user)
      (pool : Table Name DepositPool) (hpool : payIn (t.pool 0) user quant = .ok pool) :
      Effect c token t (.paydeppool user quant) (t.setPool 0 pool) (revote c user)
  | unpay {user quant} (hpos : 0 < quant.amount) (pool : Table Name DepositPool)
      (hpool : payOut (t.pool 0) user quant = .ok pool) :
      Effect c token t (.unpaydeppool user quant) (t.setPool 0 pool) (revote c user)
  | pay2 {user quant} (hpos : 0 < quant.amount) (hsym : quant.symbol = coreSymbol)
      (pool : Table Name DepositPool) (hpool : payIn (t.pool 1) user quant = .ok pool) :
      Effect c token t (.paydeppool2 user quant) (t.setPool 1 pool)
        (⟨channelSys, .transfer channelSys user quant "paydeppool2".toList⟩ :: revote c user)
  | unpay2 {user quant} (hpos : 0 < quant.amount) (pool : Table Name DepositPool)
      (hpool : payOut (t.pool 1) user quant = .ok pool) :
      Effect c token t (.undeppool2 user quant) (t.setPool 1 pool)
        (revote c user ++ sentBack user quant)
  | lock {user minerid quant} (hpos : 0 < quant.amount) (a : DepositPool)
      (ha : (t.pool 1).find user = some a) (hle : quant.amount ≤ a.depositFree.amount)
      (free : Asset) (hfree : a.depositFree.sub quant = .ok free)
      (hnew : t.miner2dep.find minerid = none) :
      Effect c token t (.paydeposit user minerid quant)
        { t.setPool 1 ((t.pool 1).put user { a with depositFree := free }) with
          miner2dep := t.miner2dep.put minerid ⟨1, user, quant, quant⟩ }
        (revote c user)
  | migrate {minerid quant} (hpos : 0 < quant.amount) (miner : Miner2Dep)
      (hminer : t.miner2dep.find minerid = some miner) (htype : miner.minerType = 0)
      (a a2 : DepositPool) (ha : (t.pool 0).find miner.accountName = some a)
      (ha2 : (t.pool 1).find miner.accountName = some a2) (released : DepositPool)
      (hrel : release a miner.deposit = .ok released) (increased : Miner2Dep)
      (hinc : increase miner quant = .ok increased)
      (hle : increased.deposit.amount ≤ a2.depositFree.amount) (free : Asset)
      (hfree : a2.depositFree.sub increased.deposit = .ok free) :
      Effect c token t (.incdeposit minerid quant)
        { (t.setPool 0 ((t.pool 0).put miner.accountName released)).setPool 1
            ((t.pool 1).put miner.accountName { a2 with depositFree := free }) with
          miner2dep := t.miner2dep.put minerid increased }
        (revote c miner.accountName)
  | raise {minerid quant} (hpos : 0 < quant.amount) (miner : Miner2Dep)
      (hminer : t.miner2dep.find minerid = some miner) (htype : miner.minerType ≠ 0)
      (a2 : DepositPool) (ha2 : (t.pool 1).find miner.accountName = some a2)
      (hle : quant.amount ≤ a2.depositFree.amount) (increased : Miner2Dep)
      (hinc : increase miner quant = .ok increased) (free : Asset)
      (hfree : a2.depositFree.sub quant = .ok free) :
      Effect c token t (.incdeposit minerid quant)
        { t.setPool 1 ((t.pool 1).put miner.accountName { a2 with depositFree := free }) with
          miner2dep := t.miner2dep.put minerid increased }
        (revote c miner.accountName)
  | forfeit {user minerid quant memo accType caller} (hpos : 0 < quant.amount)
      (hsym : quant.symbol = coreSymbol) (miner : Miner2Dep)
      (hminer : t.miner2dep.find minerid = some miner) (msg : String)
      (pool : Table Name DepositPool)
      (hpool : charge (t.pool miner.minerType) miner.accountName (fine miner quant) msg =
        .ok pool) :
      Effect c token t (.mforfeit user minerid quant memo accType caller)
        { t.setPool miner.minerType pool with
          miner2dep := t.miner2dep.put minerid { miner with
            deposit := { miner.deposit with
              amount := miner.deposit.amount - (fine miner quant).amount } } }
        [⟨miner.accountName, .transfer miner.accountName (forfeitAccount miner.minerType)
          (fine miner quant) memo⟩]
  | delete {minerid} (miner : Miner2Dep) (hminer : t.miner2dep.find minerid = some miner)
      (pool : Table Name DepositPool)
      (hpool : giveBack (t.pool miner.minerType) miner = .ok pool) :
      Effect c token t (.delminer minerid)
        { t.setPool miner.minerType pool with miner2dep := t.miner2dep.erase minerid }
        (revote c miner.accountName)
  | move {minerid newDepacc} (miner : Miner2Dep)
      (hminer : t.miner2dep.find minerid = some miner) (hne : miner.accountName ≠ newDepacc)
      (a2 : DepositPool) (ha2 : (t.pool 1).find newDepacc = some a2)
      (msg : String) (pool : Table Name DepositPool)
      (hpool : leave (t.pool miner.minerType) miner msg a2.depositFree = .ok pool) (free : Asset)
      (hfree : a2.depositFree.sub miner.depTotal = .ok free) :
      Effect c token t (.mchgdepacc minerid newDepacc)
        { (t.setPool miner.minerType pool).setPool 1
            (((t.setPool miner.minerType pool).pool 1).put newDepacc
              { a2 with depositFree := free }) with
          miner2dep := t.miner2dep.put minerid ⟨1, newDepacc, miner.depTotal, miner.depTotal⟩ }
        (revote c miner.accountName ++ revote c newDepacc)

/-! ## 3. Every action has one of these effects -/

section Actions

variable {fp : Doubles} {c : Ctx} {lock : HddLock.Tables} {token : Token.Tables}
  {hddpool : HddPool.Tables} {t t' : Tables} {sent : List Sent} {user : Name} {quant : Asset}

theorem paydeppool_effect (h : paydeppool c lock token t user quant = .ok (t', sent)) :
    Effect c token t (.paydeppool user quant) t' sent := by
  simp only [paydeppool, Token.getBalance, ok_iff] at h
  obtain ⟨_, _, _, hsym, hpos, balance, hbalance, hcover, pool, hpool, rfl, rfl⟩ := h
  rw [hsym] at hbalance
  exact .pay hpos balance hbalance hcover pool hpool

theorem unpaydeppool_effect (h : unpaydeppool c lock t user quant = .ok (t', sent)) :
    Effect c token t (.unpaydeppool user quant) t' sent := by
  simp only [unpaydeppool, ok_iff] at h
  obtain ⟨_, _, hpos, _, pool, hpool, rfl, rfl⟩ := h
  exact .unpay hpos pool hpool

theorem paydeppool2_effect (h : paydeppool2 fp c lock t user quant = .ok (t', sent)) :
    Effect c token t (.paydeppool2 user quant) t' sent := by
  simp only [paydeppool2, ok_iff] at h
  obtain ⟨_, _, _, _, _, _, hsym, hpos, pool, hpool, rfl, rfl⟩ := h
  exact .pay2 hpos hsym pool hpool

theorem undeppool2_effect (h : undeppool2 c lock t user quant = .ok (t', sent)) :
    Effect c token t (.undeppool2 user quant) t' sent := by
  simp only [undeppool2, ok_iff] at h
  obtain ⟨_, _, hpos, _, pool, hpool, rfl, rfl⟩ := h
  exact .unpay2 hpos pool hpool

theorem depstore_effect (h : depstore c t user quant = .ok (t', sent)) :
    Effect c token t (.depstore user quant) t' sent := by
  simp only [depstore, ok_iff] at h
  obtain ⟨_, _, _, _, rows, _, rfl, rfl⟩ := h
  exact .store ⟨rfl, rfl, rfl⟩

variable {caller : Name}

theorem undepstore_effect (h : undepstore c t user caller = .ok (t', sent)) :
    Effect c token t (.undepstore user caller) t' sent := by
  simp only [undepstore, ok_iff] at h
  obtain ⟨_, _, quant, _, rfl, rfl⟩ := h
  refine .unstore ?_ quant
  exact ⟨rfl, rfl, rfl⟩

variable {minerid : UInt64}

theorem paydeposit_effect (h : paydeposit fp c lock hddpool t user minerid quant = .ok (t', sent)) :
    Effect c token t (.paydeposit user minerid quant) t' sent := by
  simp only [paydeposit, ok_iff] at h
  obtain ⟨_, _, _, _, hpos, _, a, ha, hle, free, hfree, hnew, _, ⟨_, rfl⟩, rfl, rfl⟩ := h
  exact .lock hpos a ha hle free hfree hnew

theorem incdeposit_effect (h : incdeposit c t minerid quant = .ok (t', sent)) :
    Effect c token t (.incdeposit minerid quant) t' sent := by
  simp only [incdeposit, ok_iff] at h
  obtain ⟨_, _, hpos, miner, hminer, h⟩ := h
  by_cases htype : miner.minerType = 0
  · simp only [htype, if_true, ok_iff] at h
    obtain ⟨a, ha, a2, ha2, released, hrel, increased, hinc, hle, free, hfree, rfl, rfl⟩ := h
    exact .migrate hpos miner hminer htype a a2 ha ha2 released hrel increased hinc hle free hfree
  · simp only [htype, if_false, ok_iff] at h
    obtain ⟨a2, ha2, hle, increased, hinc, free, hfree, rfl, rfl⟩ := h
    exact .raise hpos miner hminer htype a2 ha2 hle increased hinc free hfree

theorem mforfeit_effect {memo : Text} {accType : UInt8}
    (h : mforfeit c t minerid quant memo accType caller = .ok (t', sent)) :
    Effect c token t (.mforfeit user minerid quant memo accType caller) t' sent := by
  simp only [mforfeit, ok_iff] at h
  obtain ⟨_, _, hsym, hpos, miner, hminer, h⟩ := h
  by_cases htype : miner.minerType = 0
  · simp only [htype, if_true, ok_iff] at h
    obtain ⟨pool, hpool, rfl, rfl⟩ := h
    have heffect : Effect c token t (.mforfeit user minerid quant memo accType caller) _ _ :=
      .forfeit hpos hsym miner hminer _ pool (by rw [htype]; exact hpool)
    simpa only [htype, forfeitAccount, Tables.setPool, if_true] using heffect
  · simp only [htype, if_false, ok_iff] at h
    obtain ⟨pool, hpool, rfl, rfl⟩ := h
    have heffect : Effect c token t (.mforfeit user minerid quant memo accType caller) _ _ :=
      .forfeit hpos hsym miner hminer _ pool (by rw [Tables.pool, if_neg htype]; exact hpool)
    simpa only [forfeitAccount, Tables.setPool, if_neg htype] using heffect

theorem delminer_effect (h : delminer c t minerid = .ok (t', sent)) :
    Effect c token t (.delminer minerid) t' sent := by
  simp only [delminer, ok_iff] at h
  obtain ⟨_, h⟩ := h
  rcases hminer : t.miner2dep.find minerid with _ | miner
  · rw [hminer] at h
    cases h
    exact .idle rfl ⟨rfl, rfl, rfl⟩ []
  · rw [hminer] at h
    by_cases htype : miner.minerType = 0
    · simp only [htype, if_true, ok_iff] at h
      obtain ⟨pool, hpool, rfl, rfl⟩ := h
      have heffect : Effect c token t (.delminer minerid) _ _ := .delete miner hminer pool
        (by rw [htype]; exact hpool)
      simpa only [htype, Tables.setPool, if_true] using heffect
    · simp only [htype, if_false, ok_iff] at h
      obtain ⟨pool, hpool, rfl, rfl⟩ := h
      have heffect : Effect c token t (.delminer minerid) _ _ := .delete miner hminer pool
        (by rw [Tables.pool, if_neg htype]; exact hpool)
      simpa only [Tables.setPool, if_neg htype] using heffect

theorem mchgdepacc_effect {newDepacc : Name} (h : mchgdepacc c t minerid newDepacc = .ok (t', sent))
    : Effect c token t (.mchgdepacc minerid newDepacc) t' sent := by
  simp only [mchgdepacc, ok_iff] at h
  obtain ⟨_, miner, hminer, hne, a2, ha2, h⟩ := h
  by_cases htype : miner.minerType = 0
  · simp only [htype, if_true, ok_iff] at h
    obtain ⟨pool, hpool, free, hfree, rfl, rfl⟩ := h
    have heffect : Effect c token t (.mchgdepacc minerid newDepacc) _ _ :=
      .move miner hminer hne a2 ha2 _ pool (by rw [htype]; exact hpool) free hfree
    rw [htype] at heffect
    exact heffect
  · simp only [htype, if_false, ok_iff] at h
    obtain ⟨pool, hpool, free, hfree, rfl, rfl⟩ := h
    have heffect : Effect c token t (.mchgdepacc minerid newDepacc) _ _ :=
      .move miner hminer hne a2 ha2 _ pool (by rw [Tables.pool, if_neg htype]; exact hpool)
        free hfree
    rw [show t.setPool miner.minerType pool = { t with depositpool2 := pool } from
      if_neg htype] at heffect
    exact heffect

theorem setrate_effect {rate : Int64} (h : setrate c t rate = .ok (t', sent)) :
    Effect c token t (.setrate rate) t' sent := by
  simp only [setrate, ok_iff] at h
  obtain ⟨_, rfl, rfl⟩ := h
  refine .idle rfl ?_ []
  exact ⟨rfl, rfl, rfl⟩

theorem revote_eq (c : Ctx) (user : Name) :
    ∃ voters : List Name, revote c user = voters.map fun u => ⟨u, .changevotes u⟩ := by
  unfold revote
  split
  · exact ⟨[user], rfl⟩
  · exact ⟨[], rfl⟩

theorem updatevote_effect (h : updatevote c t user = .ok (t', sent)) :
    Effect c token t (.updatevote user) t' sent := by
  simp only [updatevote, ok_iff] at h
  obtain ⟨_, rfl, rfl⟩ := h
  obtain ⟨voters, hvoters⟩ := revote_eq c user
  rw [hvoters]
  exact .idle rfl ⟨rfl, rfl, rfl⟩ voters

end Actions

end YottaChain.HddDeposit
