/-
  **What a successful call of `hddpool` can do.**

  `Effect fp s a s'` describes a call `a` by what it requires of the tables and
  what it does to them: one constructor for every action that touches the
  miners, the pools, the internal ids or the lottery, and one, `quiet`, for all
  the others.  Authorisations, messages and balances are left out; what is said
  about the production space of the owners' accounts is said through `spaceOf`.

  `apply_effect` is the connection with the code: every successful call has its
  effect.  Invariants of whole runs are proved from effects and never unfold an
  action.
-/
import YottaChain.HddPoolRun
import YottaChain.OwnerAccounts

namespace YottaChain.HddPool

open Checked

/-! ## 1. Internal ids -/

structure Slots where
  rows : Table UInt64 Miner2
  ex : Option Miner2Ex

def Slots.head (t : Slots) : Miner2Ex := t.ex.getD {}

def Tables.slots (s : Tables) : Slots := ⟨s.miner2, s.miner2ex⟩

/-- A miner takes the slot at the head of the free list, or a new one behind the
    last. -/
inductive Slots.Takes (minerid : UInt64) (t : Slots) : UInt64 → Slots → Prop
  | grow (hlast : t.head.nextId = t.head.maxTableCount + 1)
      (hfree : t.rows.find t.head.nextId = none) :
      Takes minerid t t.head.nextId
        ⟨t.rows.put t.head.nextId ⟨minerid, 0⟩,
          some ⟨t.head.nextId + 1, t.head.maxTableCount + 1, t.head.maxMinerCount + 1⟩⟩
  | reuse (hlast : t.head.nextId ≠ t.head.maxTableCount + 1) (slot : Miner2)
      (hslot : t.rows.find t.head.nextId = some slot) :
      Takes minerid t t.head.nextId
        ⟨t.rows.put t.head.nextId ⟨minerid, 0⟩,
          some ⟨slot.nextId, t.head.maxTableCount, t.head.maxMinerCount + 1⟩⟩

/-- A slot goes to the head of the free list; the id 0 stands for no slot. -/
inductive Slots.Frees (id : UInt64) (t : Slots) : Slots → Prop
  | nothing (hid : id = 0) : Frees id t t
  | slot (hid : id ≠ 0) (g : Miner2Ex) (hex : t.ex = some g) (slot : Miner2)
      (hslot : t.rows.find id = some slot) :
      Frees id t ⟨t.rows.put id ⟨0, g.nextId⟩, some ⟨id, g.maxTableCount, g.maxMinerCount - 1⟩⟩

variable {s s' : Tables}

theorem insertMiner2_ok {minerid : UInt64} {id : UInt32} (h : insertMiner2 s minerid = .ok (s', id))
    :
    ∃ t k, s' = { s with miner2 := t.rows, miner2ex := t.ex } ∧ id = k.toUInt32 ∧
      s.slots.Takes minerid k t := by
  unfold insertMiner2 at h
  dsimp only at h
  split_ifs at h with hlast
  · simp only [ok_iff] at h
    obtain ⟨_, ⟨hfree, rfl⟩, rfl, rfl⟩ := h
    exact ⟨_, _, rfl, rfl, Slots.Takes.grow (t := s.slots) hlast hfree⟩
  · simp only [ok_iff] at h
    obtain ⟨slot, hslot, rfl, rfl⟩ := h
    exact ⟨_, _, rfl, rfl, Slots.Takes.reuse (t := s.slots) hlast slot hslot⟩

theorem delMiner2_ok {id : UInt64} (h : delMiner2 s id = .ok s') :
    ∃ t, s' = { s with miner2 := t.rows, miner2ex := t.ex } ∧ s.slots.Frees id t := by
  unfold delMiner2 at h
  split_ifs at h with hid
  · cases h
    exact ⟨s.slots, rfl, .nothing hid⟩
  · split at h
    · cases h
    · rename_i g hex
      simp only [ok_iff] at h
      obtain ⟨slot, hslot, rfl⟩ := h
      exact ⟨_, rfl, .slot hid g hex slot hslot⟩

/-! ## 2. Effects -/

def totalAfter (total : Option UInt64) (spaceDelta : UInt64) (isIncrease : Bool) : Option UInt64 :=
  let old := total.getD 0
  some (if isIncrease then old + (spaceDelta >>> 16)
    else if spaceDelta >>> 16 < old then old - (spaceDelta >>> 16)
    else 0)

structure SameRegistry (s s' : Tables) : Prop where
  maccount : s'.maccount = s.maccount
  storepool : s'.storepool = s.storepool
  minerinfo : s'.minerinfo = s.minerinfo
  miner : s'.miner = s.miner
  miner2 : s'.miner2 = s.miner2
  miner2ex : s'.miner2ex = s.miner2ex
  counterstat : s'.counterstat = s.counterstat

structure SameLottery (s s' : Tables) : Prop where
  mscore1 : s'.mscore1 = s.mscore1
  mscore2 : s'.mscore2 = s.mscore2
  mscore2ex : s'.mscore2ex = s.mscore2ex

theorem SameRegistry.refl (s : Tables) : SameRegistry s s := ⟨rfl, rfl, rfl, rfl, rfl, rfl, rfl⟩

theorem SameLottery.refl (s : Tables) : SameLottery s s := ⟨rfl, rfl, rfl⟩

inductive Unbinds (s : Tables) (minerid : UInt64) (owner : Name) :
    Table Name UserHdd → Table (Name × UInt64) MAccount → Prop
  | nothing (h : owner = 0 ∨ s.maccount.find (owner, minerid) = none) :
      Unbinds s minerid owner s.userhdd s.maccount
  | row (howner : owner ≠ 0) (acc : MAccount)
      (hacc : s.maccount.find (owner, minerid) = some acc) (t : Table Name UserHdd)
      (husers : MovesIf (0 < acc.hddPerCycleProfit) owner acc.space false s.userhdd t) :
      Unbinds s minerid owner t (s.maccount.erase (owner, minerid))

def poolsAfterDelete (pools : Table Name StorePool) (info : MinerInfo) : Table Name StorePool :=
  if info.poolId = 0 then pools
  else pools.adjust info.poolId fun pool =>
    { pool with spaceLeft := pool.spaceLeft + info.maxSpace }

inductive DropsMiner (s : Tables) (minerid : UInt64) : Slots → Prop
  | nothing (h : s.miner.find minerid = none) : DropsMiner s minerid s.slots
  | row (row : Miner) (hrow : s.miner.find minerid = some row) (t : Slots)
      (hfrees : s.slots.Frees row.internalId.toUInt64 t) : DropsMiner s minerid t

theorem DropsMiner.of_eq {minerid : UInt64} {t : Slots} (h : DropsMiner s' minerid t)
    (hm : s'.miner = s.miner) (hs : s'.slots = s.slots) : DropsMiner s minerid t := by
  cases h with
  | nothing h =>
    rw [hs]
    exact .nothing (hm ▸ h)
  | row row hrow _ hfrees => exact .row row (hm ▸ hrow) _ (hs ▸ hfrees)

def Action.writes : Action → Bool
  | .addmprofit .. | .submprofit .. | .mdeactive .. | .mactive .. | .delminer .. | .regminer ..
  | .regstrpool .. | .chgpoolspace .. | .mchgstrpool .. | .mincdeposit .. | .mchgadminacc ..
  | .mchgowneracc .. | .mlevel .. | .mrspace .. | .oldsync .. => true
  | _ => false

inductive Effect (fp : Doubles) (s : Tables) : Action → Tables → Prop
  | quiet {a s'} (ha : a.writes = false) (husers : Plain fp s.userhdd s'.userhdd)
      (hreg : SameRegistry s s') (hlot : SameLottery s s') : Effect fp s a s'
  | build {slot} (p : NewMParam) (g : Miner2Ex) (hex : s.miner2ex = some g) :
      Effect fp s (.onbuild slot) (buildTables { s with newmparam := some p } g.maxTableCount)
  | poolDelete {poolid} (pool : StorePool) (hpool : s.storepool.find poolid = some pool)
      (hempty : pool.maxSpace - pool.spaceLeft = 0) :
      Effect fp s (.delstrpool poolid) { s with storepool := s.storepool.erase poolid }
  | poolRegister {poolId poolOwner} (hnew : s.storepool.find poolId = none) :
      Effect fp s (.regstrpool poolId poolOwner)
        { s with storepool := s.storepool.put poolId ⟨poolOwner, maxPoolSpace, maxPoolSpace⟩ }
  | poolResize {poolId isIncrease delta} (pool : StorePool)
      (hpool : s.storepool.find poolId = some pool) (max : UInt64) (hmax : max ≤ maxPoolSpace)
      (hused : pool.maxSpace - pool.spaceLeft ≤ max) :
      Effect fp s (.chgpoolspace poolId isIncrease delta)
        { s with
          storepool := s.storepool.put poolId
            { pool with maxSpace := max, spaceLeft := max - (pool.maxSpace - pool.spaceLeft) } }
  | register {minerid adminacc depAcc poolId minerowner maxSpace depAmount isCalc}
      (howner : minerowner ≠ 0) (hid : minerid ≠ 0) (pool : StorePool)
      (hpool : s.storepool.find poolId = some pool)
      (hinfo : s.minerinfo.find minerid = none) (hmask : maxSpace &&& 65535 = 0)
      (hle : maxSpace ≤ maxMinerSpace) (hge : minMinerSpace ≤ maxSpace)
      (hleft : maxSpace ≤ pool.spaceLeft)
      (hacc : s.maccount.find (minerowner, minerid) = none) (now : UInt64)
      (users : Table Name UserHdd) (husers : OpensFor minerowner s.userhdd users)
      (hminer : s.miner.find minerid = none) (slots : Slots) (id : UInt64)
      (htakes : s.slots.Takes minerid id slots) (macc total : UInt64) :
      Effect fp s
        (.regminer minerid adminacc depAcc poolId minerowner maxSpace depAmount isCalc)
        { s with
          storepool := s.storepool.put poolId { pool with spaceLeft := pool.spaceLeft - maxSpace }
          maccount := s.maccount.put (minerowner, minerid) ⟨0, 0, 0, now⟩
          userhdd := users
          minerinfo := s.minerinfo.put minerid ⟨minerowner, adminacc, poolId, maxSpace, maxSpace⟩
          counterstat := totalAfter s.counterstat maxSpace true
          miner := s.miner.put minerid
            { owner := minerowner, admin := adminacc, poolId := poolId, maxSpace := maxSpace
              space := 0, lastModifyTime := now, internalId := id.toUInt32
              realSpace := 0, level := defaulMinerLevel, status := 2 }
          miner2 := slots.rows
          miner2ex := slots.ex
          hddMaccUser := macc
          hddTotalUser := total }
  | delete {minerid accType caller} (info : MinerInfo)
      (hinfo : s.minerinfo.find minerid = some info) (users : Table Name UserHdd)
      (accounts : Table (Name × UInt64) MAccount)
      (hunbind : Unbinds s minerid info.owner users accounts) (slots : Slots)
      (hdrop : DropsMiner s minerid slots) :
      Effect fp s (.delminer minerid accType caller)
        { s with
          userhdd := users
          maccount := accounts
          storepool := poolsAfterDelete s.storepool info
          minerinfo := s.minerinfo.erase minerid
          counterstat := totalAfter s.counterstat info.maxSpace false
          miner := s.miner.erase minerid
          miner2 := slots.rows
          miner2ex := slots.ex }
  | addSpace {minerid space caller} (hmask : space &&& 65535 = 0) (info : MinerInfo)
      (hinfo : s.minerinfo.find minerid = some info) (acc : MAccount)
      (hacc : s.maccount.find (info.owner, minerid) = some acc)
      (hactive : 0 < acc.space → 0 < acc.hddPerCycleProfit) (hleft : space ≤ info.spaceLeft)
      (acc' : MAccount) (hspace : acc'.space = acc.space + space)
      (hprofit : acc'.hddPerCycleProfit = fp.cycleProfit (acc.space + space))
      (users : Table Name UserHdd) (husers : Moves info.owner space true s.userhdd users) :
      Effect fp s (.addmprofit minerid space caller)
        { s with
          minerinfo := s.minerinfo.put minerid { info with spaceLeft := info.spaceLeft - space }
          maccount := s.maccount.put (info.owner, minerid) acc'
          userhdd := users
          miner := s.miner.adjust minerid fun row =>
            { row with space := row.space + space
                       status := if row.status = 2 then 0 else row.status } }
  | subSpace {minerid space caller} (hmask : space &&& 65535 = 0) (info : MinerInfo)
      (hinfo : s.minerinfo.find minerid = some info) (acc : MAccount)
      (hacc : s.maccount.find (info.owner, minerid) = some acc)
      (hleft : info.spaceLeft + space ≤ info.maxSpace) (hhas : space ≤ acc.space)
      (acc' : MAccount) (hspace : acc'.space = acc.space - space)
      (hprofit : acc'.hddPerCycleProfit =
        if 0 < acc.space ∧ acc.hddPerCycleProfit = 0 then acc.hddPerCycleProfit
        else fp.cycleProfit (acc.space - space))
      (users : Table Name UserHdd)
      (husers : MovesIf (¬ (0 < acc.space ∧ acc.hddPerCycleProfit = 0)) info.owner space false
        s.userhdd users) :
      Effect fp s (.submprofit minerid space caller)
        { s with
          minerinfo := s.minerinfo.put minerid { info with spaceLeft := info.spaceLeft + space }
          maccount := s.maccount.put (info.owner, minerid) acc'
          userhdd := users
          miner := s.miner.adjust minerid fun row => { row with space := row.space - space } }
  | deactivate {minerid caller} (info : MinerInfo)
      (hinfo : s.minerinfo.find minerid = some info) (acc : MAccount)
      (hacc : s.maccount.find (info.owner, minerid) = some acc)
      (hactive : 0 < acc.space → 0 < acc.hddPerCycleProfit)
      (acc' : MAccount) (hspace : acc'.space = acc.space) (hprofit : acc'.hddPerCycleProfit = 0)
      (users : Table Name UserHdd) (husers : Moves info.owner acc.space false s.userhdd users) :
      Effect fp s (.mdeactive minerid caller)
        { s with
          maccount := s.maccount.put (info.owner, minerid) acc'
          userhdd := users
          miner := s.miner.adjust minerid fun row => { row with status := 1 } }
  | activate {minerid caller} (info : MinerInfo)
      (hinfo : s.minerinfo.find minerid = some info) (acc : MAccount)
      (hacc : s.maccount.find (info.owner, minerid) = some acc)
      (hinactive : acc.hddPerCycleProfit = 0)
      (acc' : MAccount) (hspace : acc'.space = acc.space)
      (hprofit : acc'.hddPerCycleProfit = fp.cycleProfit acc.space)
      (users : Table Name UserHdd) (husers : Moves info.owner acc.space true s.userhdd users) :
      Effect fp s (.mactive minerid caller)
        { s with
          maccount := s.maccount.put (info.owner, minerid) acc'
          userhdd := users
          miner := s.miner.adjust minerid fun row => { row with status := 0 } }
  | movePool {minerid newPoolid} (info : MinerInfo)
      (hinfo : s.minerinfo.find minerid = some info) (old : StorePool)
      (hold : s.storepool.find info.poolId = some old) (pool : StorePool)
      (hpool : (s.storepool.put info.poolId (releasePoolSpace old info.maxSpace)).find newPoolid =
        some pool)
      (hleft : info.maxSpace ≤ pool.spaceLeft) :
      Effect fp s (.mchgstrpool minerid newPoolid)
        { s with
          storepool := (s.storepool.put info.poolId (releasePoolSpace old info.maxSpace)).put
            newPoolid { pool with spaceLeft := pool.spaceLeft - info.maxSpace }
          minerinfo := s.minerinfo.put minerid { info with poolId := newPoolid }
          miner := s.miner.adjust minerid fun row => { row with poolId := newPoolid } }
  | enlarge {minerid space depAmount isCalc} (row : Miner)
      (hrow : s.miner.find minerid = some row) (hmask : space &&& 65535 = 0)
      (hle : space + row.maxSpace ≤ maxMinerSpace) (hge : minMinerSpace ≤ space + row.maxSpace)
      (pool : StorePool) (hpool : s.storepool.find row.poolId = some pool)
      (hleft : space ≤ pool.spaceLeft) :
      Effect fp s (.mincdeposit minerid space depAmount isCalc)
        { s with
          storepool := s.storepool.put row.poolId { pool with spaceLeft := pool.spaceLeft - space }
          miner := s.miner.put minerid
            { row with maxSpace := row.maxSpace + space
                       realSpace := if 0 < row.realSpace then row.realSpace + space
                         else row.realSpace }
          counterstat := totalAfter s.counterstat space true
          minerinfo := s.minerinfo.adjust minerid fun info =>
            { info with maxSpace := info.maxSpace + space, spaceLeft := info.spaceLeft + space } }
  | changeAdmin {minerid newAdminacc} (info : MinerInfo)
      (hinfo : s.minerinfo.find minerid = some info) :
      Effect fp s (.mchgadminacc minerid newAdminacc)
        { s with
          minerinfo := s.minerinfo.put minerid { info with admin := newAdminacc }
          miner := s.miner.adjust minerid fun row => { row with admin := newAdminacc } }
  | changeOwner {minerid newOwneracc} (info : MinerInfo)
      (hinfo : s.minerinfo.find minerid = some info) (hnew : newOwneracc ≠ 0) (acc : MAccount)
      (hacc : s.maccount.find (info.owner, minerid) = some acc)
      (hfree : s.maccount.find (newOwneracc, minerid) = none) (t1 t2 t3 : Table Name UserHdd)
      (hleave : MovesIf (0 < acc.hddPerCycleProfit) info.owner acc.space false s.userhdd t1)
      (hopen : OpensFor newOwneracc t1 t2)
      (henter : MovesIf (0 < acc.hddPerCycleProfit) newOwneracc acc.space true t2 t3)
      (total : UInt64) :
      Effect fp s (.mchgowneracc minerid newOwneracc)
        { s with
          userhdd := t3
          maccount := (s.maccount.put (newOwneracc, minerid) acc).erase (info.owner, minerid)
          minerinfo := s.minerinfo.put minerid { info with owner := newOwneracc }
          miner := s.miner.adjust minerid fun row => { row with owner := newOwneracc }
          hddTotalUser := total }
  | setLevel {minerid level caller} (row : Miner) (hrow : s.miner.find minerid = some row)
      (hle : level ≤ 89657) :
      Effect fp s (.mlevel minerid level caller)
        { s with miner := s.miner.put minerid { row with level := level } }
  | setRealSpace {minerid realSpace caller} (row : Miner)
      (hrow : s.miner.find minerid = some row) (hmask : realSpace &&& 65535 = 0)
      (hle : realSpace ≤ row.maxSpace) :
      Effect fp s (.mrspace minerid realSpace caller)
        { s with miner := s.miner.put minerid { row with realSpace := realSpace } }
  | sync {minerid} (hminer : s.miner.find minerid = none) (info : MinerInfo)
      (hinfo : s.minerinfo.find minerid = some info) (slots : Slots) (row : Miner)
      (hcase : info.maxSpace = 0 ∧ slots = s.slots ∧ row.internalId = 0 ∧ row.status = 1 ∨
        ∃ id, s.slots.Takes minerid id slots ∧ row.internalId = id.toUInt32) :
      Effect fp s (.oldsync minerid)
        { s with miner := s.miner.put minerid row, miner2 := slots.rows, miner2ex := slots.ex }

/-- The builder writes the lottery tables only. -/
theorem build_registry (s : Tables) (p : Option NewMParam) (n : UInt64) :
    SameRegistry s (buildTables { s with newmparam := p } n) := by
  unfold buildTables
  dsimp only
  split
  · exact ⟨rfl, rfl, rfl, rfl, rfl, rfl, rfl⟩
  · exact ⟨rfl, rfl, rfl, rfl, rfl, rfl, rfl⟩

theorem build_users (s : Tables) (p : Option NewMParam) (n : UInt64) :
    (buildTables { s with newmparam := p } n).userhdd = s.userhdd := by
  unfold buildTables
  dsimp only
  split <;> rfl

/-! ## 3. The calls have their effects -/

section Calls

variable {fp : Doubles} {c : Ctx} {v : Views} {s s' : Tables} {sent : List Sent}

theorem isAccount_ne_zero {u : Name} (h : c.isAccount u = true) : u ≠ 0 := by
  rintro rfl
  rw [c.isAccount_zero] at h
  cases h

variable {minerid : UInt64}

theorem minerRows_ok {r : MinerInfo × MAccount} (h : minerRows s minerid = .ok r) :
    s.minerinfo.find minerid = some r.1 ∧ s.maccount.find (r.1.owner, minerid) = some r.2 := by
  simp only [minerRows, ok_iff] at h
  obtain ⟨info, hinfo, acc, hacc, rfl⟩ := h
  exact ⟨hinfo, hacc⟩

theorem bindOwner_ok {owner : Name} (h : bindOwner c s minerid owner = .ok s') :
    s.maccount.find (owner, minerid) = none ∧
      ∃ n, s' = { s with
        maccount := s.maccount.put (owner, minerid) ⟨0, 0, 0, c.currentTime⟩
        hddMaccUser := n } := by
  simp only [bindOwner, ok_iff] at h
  obtain ⟨hnone, _, ⟨_, rfl⟩, rfl⟩ := h
  exact ⟨hnone, _, rfl⟩

variable {poolId : Name}

theorem regminer_effect {adminacc depAcc minerowner : Name} {maxSpace : UInt64} {depAmount : Asset}
    {isCalc : Bool}
    (h : regminer fp c v s minerid adminacc depAcc poolId minerowner maxSpace depAmount isCalc =
      .ok (s', sent)) :
    Effect fp s (.regminer minerid adminacc depAcc poolId minerowner maxSpace depAmount isCalc)
      s' := by
  simp only [regminer, ok_iff] at h
  obtain ⟨_, _, hown, hid, _, pool, hpool, _, hinfo, hmask, hle, hge, hleft, s1, hbind, s2, hopen,
    _, ⟨_, rfl⟩, hminer, ⟨s3, id⟩, hins, _, ⟨_, rfl⟩, _, _, rfl, rfl⟩ := h
  obtain ⟨hacc, macc, rfl⟩ := bindOwner_ok hbind
  obtain ⟨users, total, rfl, husers⟩ := openOwner_ok hopen
  obtain ⟨slots, k, rfl, rfl, htakes⟩ := insertMiner2_ok hins
  exact .register (isAccount_ne_zero hown) (UInt64.pos_iff_ne_zero.mp hid) pool hpool hinfo hmask
    hle hge hleft.2 hacc _ users husers.opensFor hminer slots k htakes macc total

theorem unbindOwner_ok {owner : Name} (h : unbindOwner fp c s minerid owner = .ok s') :
    ∃ users accounts, s' = { s with userhdd := users, maccount := accounts } ∧
      Unbinds s minerid owner users accounts := by
  unfold unbindOwner at h
  split_ifs at h with howner
  · cases h
    exact ⟨_, _, rfl, .nothing (.inl howner)⟩
  · split at h
    · rename_i hnone
      cases h
      exact ⟨_, _, rfl, .nothing (.inr hnone)⟩
    · rename_i acc hacc
      simp only [ok_iff] at h
      obtain ⟨users, husers, rfl⟩ := h
      exact ⟨_, _, rfl, .row howner acc hacc users (chgOwnerSpaceIf_ok husers)⟩

theorem dropMiner_ok (h : dropMiner s minerid = .ok s') :
    ∃ slots, s' = { s with
        miner := s.miner.erase minerid, miner2 := slots.rows, miner2ex := slots.ex } ∧
      DropsMiner s minerid slots := by
  unfold dropMiner at h
  split at h
  · rename_i hnone
    cases h
    exact ⟨s.slots, by rw [Table.erase_of_none hnone]; rfl, .nothing hnone⟩
  · rename_i row hrow
    simp only [ok_iff] at h
    obtain ⟨s1, hdel, rfl⟩ := h
    obtain ⟨slots, rfl, hfrees⟩ := delMiner2_ok hdel
    exact ⟨slots, rfl, .row row hrow slots hfrees⟩

theorem returnPoolSpace_eq (s : Tables) (info : MinerInfo) :
    returnPoolSpace s info = { s with storepool := poolsAfterDelete s.storepool info } := by
  unfold returnPoolSpace poolsAfterDelete
  split <;> rfl

variable {caller : Name}

theorem delminer_effect {accType : UInt8}
    (h : delminer fp c s minerid accType caller = .ok (s', sent)) :
    Effect fp s (.delminer minerid accType caller) s' := by
  simp only [delminer, ok_iff, returnPoolSpace_eq] at h
  obtain ⟨info, hinfo, _, _, s1, hunbind, s2, hdrop, rfl, rfl⟩ := h
  obtain ⟨users, accounts, rfl, hunbinds⟩ := unbindOwner_ok hunbind
  obtain ⟨slots, rfl, hdrops⟩ := dropMiner_ok hdrop
  exact .delete info hinfo users accounts hunbinds slots (hdrops.of_eq rfl rfl)

variable {space : UInt64} {slot : UInt32}

theorem addmprofit_effect (h : addmprofit fp c s minerid space caller = .ok (s', sent)) :
    Effect fp s (.addmprofit minerid space caller) s' := by
  simp only [addmprofit, ok_iff] at h
  obtain ⟨_, _, hmask, ⟨info, acc⟩, hrows, hactive, _, hleft, _, _, users, husers, rfl, rfl⟩ := h
  obtain ⟨hinfo, hacc⟩ := minerRows_ok hrows
  exact .addSpace hmask info hinfo acc hacc hactive hleft _ rfl rfl users (chgOwnerSpace_ok husers)

theorem submprofit_effect (h : submprofit fp c s minerid space caller = .ok (s', sent)) :
    Effect fp s (.submprofit minerid space caller) s' := by
  simp only [submprofit, ok_iff] at h
  obtain ⟨_, _, hmask, ⟨info, acc⟩, hrows, hleft, _, _, hhas, users, husers, rfl, rfl⟩ := h
  obtain ⟨hinfo, hacc⟩ := minerRows_ok hrows
  refine .subSpace hmask info hinfo acc hacc hleft hhas _ rfl ?_ users ?_
  · by_cases hoff : 0 < acc.space ∧ acc.hddPerCycleProfit = 0
    · simp [hoff]
    · simp [hoff]
  · have hmoves := chgOwnerSpaceIf_ok husers
    simpa only [Bool.not_eq_true', decide_eq_false_iff_not] using hmoves

theorem mdeactive_effect (h : mdeactive fp c s minerid caller = .ok (s', sent)) :
    Effect fp s (.mdeactive minerid caller) s' := by
  simp only [mdeactive, ok_iff] at h
  obtain ⟨_, _, ⟨info, acc⟩, hrows, hactive, ⟨kept, _⟩, _, users, husers, rfl, rfl⟩ := h
  obtain ⟨hinfo, hacc⟩ := minerRows_ok hrows
  exact .deactivate info hinfo acc hacc hactive ⟨acc.space, 0, kept, c.currentTime⟩ rfl rfl users
    (chgOwnerSpace_ok husers)

theorem mactive_effect (h : mactive fp c s minerid caller = .ok (s', sent)) :
    Effect fp s (.mactive minerid caller) s' := by
  simp only [mactive, ok_iff] at h
  obtain ⟨_, _, ⟨info, acc⟩, hrows, hinactive, users, husers, rfl, rfl⟩ := h
  obtain ⟨hinfo, hacc⟩ := minerRows_ok hrows
  exact .activate info hinfo acc hacc hinactive
    ⟨acc.space, fp.cycleProfit acc.space, acc.hddBalance, c.currentTime⟩ rfl rfl users
    (chgOwnerSpace_ok husers)

theorem mchgstrpool_effect {newPoolid : Name}
    (h : mchgstrpool c s minerid newPoolid = .ok (s', sent)) :
    Effect fp s (.mchgstrpool minerid newPoolid) s' := by
  simp only [mchgstrpool, ok_iff] at h
  obtain ⟨info, hinfo, _, _, _, _, old, hold, pool, hpool, hleft, rfl, rfl⟩ := h
  exact .movePool info hinfo old hold pool hpool hleft

theorem mincdeposit_effect {depAmount : Asset} {isCalc : Bool}
    (h : mincdeposit fp c v s minerid space depAmount isCalc = .ok (s', sent)) :
    Effect fp s (.mincdeposit minerid space depAmount isCalc) s' := by
  simp only [mincdeposit, ok_iff] at h
  obtain ⟨row, hrow, hmask, hle, hge, _, _, pool, hpool, hleft, _, _, rfl, rfl⟩ := h
  exact .enlarge row hrow hmask hle hge pool hpool hleft

theorem mchgadminacc_effect {newAdminacc : Name}
    (h : mchgadminacc c s minerid newAdminacc = .ok (s', sent)) :
    Effect fp s (.mchgadminacc minerid newAdminacc) s' := by
  simp only [mchgadminacc, ok_iff] at h
  obtain ⟨info, hinfo, _, _, rfl, rfl⟩ := h
  exact .changeAdmin info hinfo

theorem mchgowneracc_effect {newOwneracc : Name}
    (h : mchgowneracc fp c s minerid newOwneracc = .ok (s', sent)) :
    Effect fp s (.mchgowneracc minerid newOwneracc) s' := by
  simp only [mchgowneracc, ok_iff, decide_eq_true_eq] at h
  obtain ⟨info, hinfo, hnew, _, _, _, acc, hacc, t1, hleave, s1, hopen, t3, henter, hfree,
    _, ⟨_, rfl⟩, rfl, rfl⟩ := h
  obtain ⟨t2, total, rfl, hopens⟩ := openOwner_ok hopen
  exact .changeOwner info hinfo (isAccount_ne_zero hnew) acc hacc hfree t1 t2 t3
    (chgOwnerSpaceIf_ok hleave) hopens.opensFor (chgOwnerSpaceIf_ok henter) total

theorem mlevel_effect {level : UInt32} (h : mlevel c s minerid level caller = .ok (s', sent)) :
    Effect fp s (.mlevel minerid level caller) s' := by
  simp only [mlevel, ok_iff] at h
  obtain ⟨_, _, row, hrow, _, hle, rfl, rfl⟩ := h
  exact .setLevel row hrow hle

theorem mrspace_effect {realSpace : UInt64}
    (h : mrspace c s minerid realSpace caller = .ok (s', sent)) :
    Effect fp s (.mrspace minerid realSpace caller) s' := by
  simp only [mrspace, ok_iff] at h
  obtain ⟨_, _, row, hrow, hmask, _, _, hle, rfl, rfl⟩ := h
  exact .setRealSpace row hrow hmask hle

theorem oldsyncSlot_ok {info : MinerInfo} {status : UInt16} {id : UInt32}
    (h : oldsyncSlot s minerid info = .ok (s', status, id)) :
    ∃ slots : Slots, s' = { s with miner2 := slots.rows, miner2ex := slots.ex } ∧
      (info.maxSpace = 0 ∧ slots = s.slots ∧ id = 0 ∧ status = 1 ∨
        ∃ k, s.slots.Takes minerid k slots ∧ id = k.toUInt32) := by
  unfold oldsyncSlot at h
  split_ifs at h with hzero
  · simp only [ok_iff] at h
    obtain ⟨_, _, ⟨s1, k⟩, hins, rfl, rfl, rfl⟩ := h
    obtain ⟨slots, k, rfl, rfl, htakes⟩ := insertMiner2_ok hins
    exact ⟨slots, rfl, .inr ⟨k, htakes, rfl⟩⟩
  · cases h
    refine ⟨s.slots, rfl, .inl ⟨?_, rfl, rfl, rfl⟩⟩
    exact Classical.byContradiction fun hne => hzero (UInt64.pos_iff_ne_zero.mpr hne)

theorem oldsync_effect (h : oldsync c s minerid = .ok (s', sent)) :
    Effect fp s (.oldsync minerid) s' := by
  simp only [oldsync, ok_iff] at h
  obtain ⟨_, hminer, info, hinfo, ⟨s1, status, id⟩, hslot, _, ⟨_, rfl⟩, rfl, rfl⟩ := h
  obtain ⟨slots, rfl, hcase⟩ := oldsyncSlot_ok hslot
  exact .sync hminer info hinfo slots _ hcase

theorem delstrpool_effect {poolid : Name} (h : delstrpool c s poolid = .ok (s', sent)) :
    Effect fp s (.delstrpool poolid) s' := by
  simp only [delstrpool, bind_eq_ok] at h
  obtain ⟨_, _, h⟩ := h
  split at h
  · cases h
    exact .quiet rfl (.refl _ _) (.refl _) (.refl _)
  · rename_i pool hpool
    simp only [ok_iff] at h
    obtain ⟨hempty, rfl, rfl⟩ := h
    exact .poolDelete pool hpool hempty

theorem regstrpool_effect {poolOwner : Name} (h : regstrpool c s poolId poolOwner = .ok (s', sent))
    : Effect fp s (.regstrpool poolId poolOwner) s' := by
  simp only [regstrpool, ok_iff] at h
  obtain ⟨_, hnew, _, ⟨_, rfl⟩, _, _, rfl, rfl⟩ := h
  exact .poolRegister hnew

theorem chgpoolspace_effect {isIncrease : Bool} {delta : UInt64}
    (h : chgpoolspace c s poolId isIncrease delta = .ok (s', sent)) :
    Effect fp s (.chgpoolspace poolId isIncrease delta) s' := by
  simp only [chgpoolspace, ok_iff] at h
  obtain ⟨_, pool, hpool, hmax, hused, rfl, rfl⟩ := h
  exact .poolResize pool hpool _ hmax hused

theorem onbuild_effect (h : onbuild c s slot = .ok (s', sent)) :
    Effect fp s (.onbuild slot) s' := by
  simp only [onbuild, bind_eq_ok] at h
  obtain ⟨_, _, h⟩ := h
  split at h
  · cases h
    exact .quiet rfl (.refl _ _) (.refl _) (.refl _)
  · split at h
    · cases h
      exact .quiet rfl (.refl _ _) ⟨rfl, rfl, rfl, rfl, rfl, rfl, rfl⟩ ⟨rfl, rfl, rfl⟩
    · rename_i g hex
      cases h
      exact .build _ g hex

/-! The remaining actions are quiet: they write accounts, parameters or nothing. -/

theorem updateNewmodelParams_ok {plan : Option RewardPlan}
    (h : updateNewmodelParams fp c v s slot = .ok (s', sent, plan)) :
    ∃ p, s' = { s with newmparam := p } := by
  unfold updateNewmodelParams at h
  split at h
  · cases h
    exact ⟨s.newmparam, rfl⟩
  · dsimp only at h
    split at h
    · cases h
      exact ⟨_, rfl⟩
    · split at h
      · cases h
        exact ⟨s.newmparam, rfl⟩
      · simp only [ok_iff] at h
        obtain ⟨_, _, _, _, rfl, rfl, rfl⟩ := h
        exact ⟨_, rfl⟩

theorem calcDepositRate_ok (h : calcDepositRate fp s = .ok (s', sent)) :
    ∃ r, s' = { s with gdeprate := r } := by
  simp only [calcDepositRate, ok_iff] at h
  obtain ⟨_, rfl, rfl⟩ := h
  exact ⟨_, rfl⟩

section Quiet

variable {a : Action} (ha : a.writes = false)

include ha

theorem Effect.of_params {p : Option NewMParam} {g : Option HddGlobalParam}
    {w : Option HddPriceGuard} {u : Option UInt64} {r : Option Int64} :
    Effect fp s a { s with newmparam := p, gparams := g, paramguard := w, gusdprice := u
                           gdeprate := r } :=
  .quiet ha (.refl _ _) ⟨rfl, rfl, rfl, rfl, rfl, rfl, rfl⟩ ⟨rfl, rfl, rfl⟩

theorem Effect.nothing : Effect fp s a s := .quiet ha (.refl _ _) (.refl s) (.refl s)

theorem Effect.of_users {t : Table Name UserHdd} {g : Option HddGlobalParam} {n : UInt64}
    (h : Plain fp s.userhdd t) :
    Effect fp s a { s with userhdd := t, gparams := g, hddTotalUser := n } :=
  .quiet ha h ⟨rfl, rfl, rfl, rfl, rfl, rfl, rfl⟩ ⟨rfl, rfl, rfl⟩

theorem Effect.of_row {u : Name} {row row' : UserHdd} (hrow : s.userhdd.find u = some row)
    (hsame : SameEarnings row row') : Effect fp s a { s with userhdd := s.userhdd.put u row' } :=
  .of_users ha (.put_same hrow hsame)

variable {accType : UInt8} {caller user : Name}

theorem getbalance_effect (h : getbalance fp c s user accType caller = .ok (s', sent)) :
    Effect fp s a s' := by
  simp only [getbalance, ok_iff] at h
  obtain ⟨_, _, _, h⟩ := h
  split at h
  · cases h
    exact .nothing ha
  · rename_i row hrow
    simp only [ok_iff] at h
    obtain ⟨row', hsettle, rfl, rfl⟩ := h
    exact .of_row ha hrow (settleStore_ok hsettle)

theorem calcprofit_effect (h : calcprofit fp c s user = .ok (s', sent)) : Effect fp s a s' := by
  simp only [calcprofit, bind_eq_ok] at h
  obtain ⟨_, _, h⟩ := h
  split at h
  · cases h
    exact .nothing ha
  · simp only [ok_iff] at h
    obtain ⟨row, hrow, ⟨kept, share⟩, hsettle, t, hcredit, rfl, rfl⟩ := h
    obtain ⟨hwin, hkept, _⟩ := settle_ok rfl hsettle
    refine .of_users ha (Plain.trans ?_ (creditEco_rows fp hcredit).1)
    refine .put hrow rfl rfl fun hfp hsound => ?_
    dsimp only at hkept ⊢
    rw [hkept]
    exact (keptBalance_split hfp hsound hwin).1

variable {amount : Int64} {memo : Text}

theorem buyhdd_effect {sender receiver : Name}
    (h : buyhdd fp c s sender receiver amount memo = .ok (s', sent)) : Effect fp s a s' := by
  simp only [buyhdd, ok_iff] at h
  obtain ⟨_, _, _, _, _, _, _, _, _, _, s1, hadd, rfl, rfl⟩ := h
  obtain ⟨t, n, rfl, hplain⟩ := addStore_ok fp hadd
  exact .of_users ha hplain

theorem transhdds_effect {sender receiver : Name}
    (h : transhdds c s sender receiver amount memo = .ok (s', sent)) : Effect fp s a s' := by
  simp only [transhdds, ok_iff] at h
  obtain ⟨_, _, _, _, _, _, row, hrow, _, _, s1, hadd, rfl, rfl⟩ := h
  obtain ⟨t, n, rfl, hplain⟩ := addStore_ok fp hadd
  refine .of_users ha (Plain.trans ?_ hplain)
  exact .put_same hrow ⟨rfl, rfl, rfl⟩

theorem sellhdd_effect (h : sellhdd fp c s user amount memo = .ok (s', sent)) :
    Effect fp s a s' := by
  simp only [sellhdd, ok_iff] at h
  obtain ⟨_, _, _, _, row, hrow, _, hrange, _, _, _, _, rfl, rfl⟩ := h
  exact .of_users ha (.put hrow rfl rfl fun _ _ => inWindow_of_range hrange)

theorem sethfee_effect {fee : Int64} (h : sethfee fp c s user fee caller = .ok (s', sent)) :
    Effect fp s a s' := by
  simp only [sethfee, ok_iff] at h
  obtain ⟨_, _, _, row, hrow, _, _, _, _, row', hsettle, rfl, rfl⟩ := h
  obtain ⟨hspace, hrate, hbalance⟩ := settleStore_ok hsettle
  exact .of_row ha hrow ⟨hspace, hrate, hbalance⟩

theorem subbalance_effect {balance : Int64}
    (h : subbalance c s user balance accType caller = .ok (s', sent)) : Effect fp s a s' := by
  simp only [subbalance, ok_iff] at h
  obtain ⟨_, _, _, _, _, row, hrow, _, _, _, rfl, rfl⟩ := h
  exact .of_row ha hrow ⟨rfl, rfl, rfl⟩

variable {space : UInt64}

theorem addhspace_effect (h : addhspace c s user space caller = .ok (s', sent)) :
    Effect fp s a s' := by
  simp only [addhspace, ok_iff] at h
  obtain ⟨row, hrow, _, rfl, rfl⟩ := h
  exact .of_row ha (storeSpaceRow_ok hrow) ⟨rfl, rfl, rfl⟩

theorem subhspace_effect (h : subhspace c s user space caller = .ok (s', sent)) :
    Effect fp s a s' := by
  simp only [subhspace, ok_iff] at h
  obtain ⟨row, hrow, rfl, rfl⟩ := h
  exact .of_row ha (storeSpaceRow_ok hrow) ⟨rfl, rfl, rfl⟩

theorem startnewm_effect (h : startnewm fp c s = .ok (s', sent)) : Effect fp s a s' := by
  simp only [startnewm, bind_eq_ok] at h
  obtain ⟨_, _, h⟩ := h
  split at h
  · cases h
  · simp only [ok_iff] at h
    obtain ⟨_, _, _, _, _, rfl, rfl⟩ := h
    exact .of_params ha

theorem onreward_effect (h : onreward fp c v s slot = .ok (s', sent)) : Effect fp s a s' := by
  simp only [onreward, bind_eq_ok] at h
  obtain ⟨_, _, ⟨s1, sent1, plan⟩, hupdate, h⟩ := h
  obtain ⟨p, rfl⟩ := updateNewmodelParams_ok hupdate
  dsimp only at h
  split at h
  · cases h
    exact .of_params ha
  · split at h
    · cases h
      exact .of_params ha
    · simp only [ok_iff] at h
      obtain ⟨_, _, rfl, rfl⟩ := h
      exact .of_params ha

theorem payrewardnew_effect {type : UInt8} {quant : Asset} {minerid : UInt64}
    {isDestory : Bool} (h : payrewardnew fp c v s type quant minerid isDestory = .ok (s', sent)) :
    Effect fp s a s' := by
  simp only [payrewardnew, bind_eq_ok] at h
  obtain ⟨_, _, _, _, _, _, _, _, h⟩ := h
  split at h
  · cases h
    exact .nothing ha
  · cases h
    exact .nothing ha

theorem setusdprice_effect {price : UInt64} (h : setusdprice fp c s price accType = .ok (s', sent))
    :
    Effect fp s a s' := by
  simp only [setusdprice, bind_eq_ok] at h
  obtain ⟨_, _, _, _, h⟩ := h
  obtain ⟨r, rfl⟩ := calcDepositRate_ok h
  exact .of_params ha

theorem setytaprice_effect {price : UInt64} (h : setytaprice fp c s price accType = .ok (s', sent))
    :
    Effect fp s a s' := by
  simp only [setytaprice, bind_eq_ok] at h
  obtain ⟨_, _, _, _, _, _, h⟩ := h
  obtain ⟨r, rfl⟩ := calcDepositRate_ok h
  exact .of_params ha

theorem setdrratio_effect {ratio : UInt64} (h : setdrratio c s ratio accType = .ok (s', sent)) :
    Effect fp s a s' := by
  simp only [setdrratio, ok_iff] at h
  obtain ⟨_, _, _, _, _, rfl, rfl⟩ := h
  exact .of_params ha

end Quiet

/-- Every successful call has the effect of its action. -/
theorem apply_effect {a : Action} (h : apply fp c v s a = .ok (s', sent)) : Effect fp s a s' := by
  cases a with
  | onbuild => exact onbuild_effect h
  | onreward => exact onreward_effect rfl h
  | payrewardnew => exact payrewardnew_effect rfl h
  | channellog =>
    simp only [apply, channellog, ok_iff] at h
    obtain ⟨_, rfl, rfl⟩ := h
    exact .nothing rfl
  | channelfail =>
    simp only [apply, channelfail, ok_iff] at h
    obtain ⟨_, rfl, rfl⟩ := h
    exact .nothing rfl
  | getbalance => exact getbalance_effect rfl h
  | calcprofit => exact calcprofit_effect rfl h
  | buyhdd => exact buyhdd_effect rfl h
  | transhdds => exact transhdds_effect rfl h
  | sellhdd => exact sellhdd_effect rfl h
  | sethfee => exact sethfee_effect rfl h
  | subbalance => exact subbalance_effect rfl h
  | addhspace => exact addhspace_effect rfl h
  | subhspace => exact subhspace_effect rfl h
  | addmprofit => exact addmprofit_effect h
  | submprofit => exact submprofit_effect h
  | mdeactive => exact mdeactive_effect h
  | mactive => exact mactive_effect h
  | delminer => exact delminer_effect h
  | regminer =>
    exact regminer_effect h
  | delstrpool => exact delstrpool_effect h
  | regstrpool => exact regstrpool_effect h
  | chgpoolspace => exact chgpoolspace_effect h
  | mchgstrpool => exact mchgstrpool_effect h
  | mincdeposit => exact mincdeposit_effect h
  | mchgadminacc => exact mchgadminacc_effect h
  | mchgowneracc => exact mchgowneracc_effect h
  | mlevel => exact mlevel_effect h
  | mrspace => exact mrspace_effect h
  | oldsync => exact oldsync_effect h
  | startnewm => exact startnewm_effect rfl h
  | sethddprice =>
    simp only [apply, sethddprice, ok_iff] at h
    obtain ⟨_, _, rfl, rfl⟩ := h
    exact .of_params rfl
  | setusdprice => exact setusdprice_effect rfl h
  | setytaprice => exact setytaprice_effect rfl h
  | setdrratio => exact setdrratio_effect rfl h
  | setdrdratio =>
    simp only [apply, setdrdratio, ok_iff] at h
    obtain ⟨_, _, rfl, rfl⟩ := h
    exact .of_params rfl
  | addhddcnt =>
    simp only [apply, addhddcnt, ok_iff] at h
    obtain ⟨_, _, rfl, rfl⟩ := h
    exact .of_params rfl
  | disabled => cases h

end Calls

/-- The actions that move production space, and `regminer`, which opens an account. -/
def Action.movesSpace : Action → Bool
  | .addmprofit .. | .submprofit .. | .mdeactive .. | .mactive .. | .delminer .. | .regminer ..
  | .mchgowneracc .. => true
  | _ => false

theorem Effect.plain {a : Action} (h : Effect fp s a s') (ha : a.movesSpace = false) :
    Plain fp s.userhdd s'.userhdd := by
  cases h with
  | quiet _ husers => exact husers
  | build =>
    rw [build_users]
    exact .refl _ _
  | poolDelete | poolRegister | poolResize | movePool | enlarge | changeAdmin | setLevel
  | setRealSpace | sync => exact .refl _ _
  | register | delete | addSpace | subSpace | deactivate | activate | changeOwner => cases ha

theorem Step.effect {allowed : Action → Prop} (h : Step fp allowed s s') :
    ∃ a, allowed a ∧ Effect fp s a s' := by
  obtain ⟨a, ha, c, v, sent, hcall⟩ := h
  exact ⟨a, ha, apply_effect hcall⟩

end YottaChain.HddPool
