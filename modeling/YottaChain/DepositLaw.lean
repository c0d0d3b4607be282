/-
  **The deposit ledger adds up.**

  What an account has in a pool is either free or locked for its miners:

      deposit_total - deposit_free = sum of the deposits of its miners,

  for the old pool with the miners of type 0 and for the second pool with those
  of type 1.  The law has two generators, `DepositLaw.frees` for a miner that
  leaves a pool and `DepositLaw.locks` for one that enters a pool; changes of one
  miner and changes of a pool alone are `DepositLaw.update`.

  The law is kept by whole transactions: `paydeppool2` takes any amount, and it is
  the transfer sent with it that refuses an amount out of range.
-/
import YottaChain.LedgerEffects

namespace YottaChain.HddDeposit

open Checked FixedWidth Table Int64

/-! ## 1. The law -/

def standing (pool : Table Name DepositPool) (user : Name) : DepositPool :=
  (pool.find user).getD ⟨0, ⟨0, coreSymbol⟩, ⟨0, coreSymbol⟩, ⟨0, coreSymbol⟩⟩

/-- `0 ≤ deposit_free ≤ deposit_total ≤ deposit_his`, within the range of assets. -/
structure DepositPool.Sound (a : DepositPool) : Prop where
  free : 0 ≤ a.depositFree.value
  total : a.depositFree.value ≤ a.depositTotal.value
  his : a.depositTotal.value ≤ a.depositHis.value
  range : a.depositHis.value ≤ 2 ^ 62 - 1

/-- `0 ≤ deposit ≤ dep_total`, within the range of assets, and a type there is. -/
structure Miner2Dep.Sound (row : Miner2Dep) : Prop where
  type : IsType row.minerType
  deposit : 0 ≤ row.deposit.value
  total : row.deposit.value ≤ row.depTotal.value
  range : row.depTotal.value ≤ 2 ^ 62 - 1

def share (type : UInt8) (user : Name) (row : Miner2Dep) : ℤ :=
  if row.accountName = user ∧ row.minerType = type then row.deposit.value else 0

def locked (rows : Table UInt64 Miner2Dep) (type : UInt8) (user : Name) : ℤ :=
  rows.total fun _ row => share type user row

structure DepositLaw (t : Tables) : Prop where
  pools : ∀ type, IsType type → ∀ user, (standing (t.pool type) user).Sound
  locked : ∀ type, IsType type → ∀ user,
    (standing (t.pool type) user).depositTotal.value -
      (standing (t.pool type) user).depositFree.value = locked t.miner2dep type user
  miners : ∀ minerid row, t.miner2dep.find minerid = some row → row.Sound

theorem isType_zero : IsType 0 := .inl rfl

theorem isType_one : IsType 1 := .inr rfl

variable {user : Name} {a : DepositPool}

theorem standing_of_some {pool : Table Name DepositPool} (h : pool.find user = some a) :
    standing pool user = a := by
  rw [standing, h]
  rfl

theorem standing_put (pool : Table Name DepositPool) (user v : Name) (a : DepositPool) :
    standing (pool.put user a) v = if v = user then a else standing pool v := by
  rw [standing, find_put]
  split <;> rfl

theorem DepositPool.Sound.windows (h : a.Sound) :
    InWindow a.depositTotal.amount ∧ InWindow a.depositFree.amount ∧
      InWindow a.depositHis.amount := by
  have h0 := h.free
  have h1 := h.total
  have h2 := h.his
  have h3 := h.range
  unfold Asset.value at h0 h1 h2 h3
  unfold InWindow
  omega

variable {row : Miner2Dep}

theorem Miner2Dep.Sound.windows (h : row.Sound) :
    InWindow row.deposit.amount ∧ InWindow row.depTotal.amount := by
  have h0 := h.deposit
  have h1 := h.total
  have h2 := h.range
  unfold Asset.value at h0 h1 h2
  unfold InWindow
  omega

variable {t t' : Tables} {a' : DepositPool}

theorem DepositLaw.congr (h : DepositLaw t) (hsame : SamePools t t') : DepositLaw t' := by
  have hpool : ∀ type, t'.pool type = t.pool type := by
    intro type
    rw [Tables.pool, Tables.pool, hsame.depositpool, hsame.depositpool2]
  refine ⟨?_, ?_, ?_⟩
  · intro type htype user
    rw [hpool]
    exact h.pools type htype user
  · intro type htype user
    rw [hpool, hsame.miner2dep]
    exact h.locked type htype user
  · rw [hsame.miner2dep]
    exact h.miners

/-! ## 2. Deposits of miners -/

section Rows

variable {rows : Table UInt64 Miner2Dep} {minerid : UInt64} {row old : Miner2Dep}

theorem share_self (row : Miner2Dep) :
    share row.minerType row.accountName row = row.deposit.value :=
  if_pos ⟨rfl, rfl⟩

theorem share_nonneg (h : row.Sound) (type : UInt8) (user : Name) : 0 ≤ share type user row := by
  unfold share
  split
  · exact h.deposit
  · exact le_refl 0

theorem deposit_le_locked (h : ∀ m r, rows.find m = some r → r.Sound)
    (hrow : rows.find minerid = some row) :
    row.deposit.value ≤ locked rows row.minerType row.accountName := by
  rw [← share_self row]
  exact le_total (f := fun _ r => share row.minerType row.accountName r)
    (fun m r hr => share_nonneg (h m r hr) _ _) hrow

theorem locked_erase (hrow : rows.find minerid = some row) (type : UInt8) (user : Name) :
    locked (rows.erase minerid) type user + share type user row = locked rows type user :=
  total_erase_add (fun _ r => share type user r) hrow

theorem locked_put_new (hnew : rows.find minerid = none) (type : UInt8) (user : Name) :
    locked (rows.put minerid row) type user = share type user row + locked rows type user :=
  total_put_of_none row (fun _ r => share type user r) hnew

theorem locked_put (hold : rows.find minerid = some old) (type : UInt8) (user : Name) :
    locked (rows.put minerid row) type user + share type user old =
      locked rows type user + share type user row :=
  total_put_add row (fun _ r => share type user r) hold

end Rows

/-! ## 3. Keeping the law -/

/-- One row of a pool and the deposits of miners change. -/
theorem DepositLaw.update (h : DepositLaw t) {type : UInt8} (htype : IsType type) (ha : a.Sound)
    {rows : Table UInt64 Miner2Dep}
    (hrows : ∀ minerid row, rows.find minerid = some row → row.Sound)
    (hlocked : ∀ type' user', HddDeposit.locked rows type' user' =
      if type' = type ∧ user' = user then a.depositTotal.value - a.depositFree.value
      else HddDeposit.locked t.miner2dep type' user') :
    DepositLaw { t.setPool type ((t.pool type).put user a) with miner2dep := rows } := by
  have hstanding : ∀ type', IsType type' → ∀ user',
      standing ((t.setPool type ((t.pool type).put user a)).pool type') user' =
        if type' = type ∧ user' = user then a else standing (t.pool type') user' := by
    intro type' htype' user'
    rw [pool_setPool htype htype']
    by_cases ht : type' = type
    · simp only [ht, if_true, true_and, standing_put]
    · simp only [ht, if_false, false_and]
  refine ⟨?_, ?_, hrows⟩
  · intro type' htype' user'
    show (standing ((t.setPool type ((t.pool type).put user a)).pool type') user').Sound
    rw [hstanding type' htype' user']
    split
    · exact ha
    · exact h.pools type' htype' user'
  · intro type' htype' user'
    show (standing ((t.setPool type ((t.pool type).put user a)).pool type') user').depositTotal.value
      - (standing ((t.setPool type ((t.pool type).put user a)).pool type') user').depositFree.value
      = HddDeposit.locked rows type' user'
    rw [hstanding type' htype' user', hlocked type' user']
    split
    · rfl
    · exact h.locked type' htype' user'

theorem DepositLaw.shift (h : DepositLaw t) {type : UInt8} (htype : IsType type) (ha : a.Sound)
    (hsame : a.depositTotal.value - a.depositFree.value =
      (standing (t.pool type) user).depositTotal.value -
        (standing (t.pool type) user).depositFree.value) :
    DepositLaw (t.setPool type ((t.pool type).put user a)) := by
  have hlaw : DepositLaw { t.setPool type ((t.pool type).put user a) with
      miner2dep := t.miner2dep } := by
    refine h.update htype ha h.miners ?_
    intro type' user'
    split_ifs with heq
    · rw [heq.1, heq.2, hsame]
      exact (h.locked type htype user).symm
    · rfl
  refine hlaw.congr ⟨rfl, rfl, ?_⟩
  rw [miner2dep_setPool]

/-- A miner enters a pool: its deposit is taken from the free part. -/
theorem DepositLaw.locks (h : DepositLaw t) (minerid : UInt64) (hrow : row.Sound)
    (hnew : t.miner2dep.find minerid = none) (ha : a.Sound) (htotal : a.depositTotal.value =
      (standing (t.pool row.minerType) row.accountName).depositTotal.value)
    (hfree : a.depositFree.value =
      (standing (t.pool row.minerType) row.accountName).depositFree.value - row.deposit.value) :
    DepositLaw { t.setPool row.minerType ((t.pool row.minerType).put row.accountName a) with
      miner2dep := t.miner2dep.put minerid row } := by
  refine h.update hrow.type ha (forall_put h.miners hrow) ?_
  intro type user
  rw [locked_put_new hnew]
  split
  · rename_i heq
    have hlocked := h.locked _ hrow.type row.accountName
    rw [heq.1, heq.2, share_self]
    omega
  · rename_i hne
    rw [share, if_neg (fun heq => hne ⟨heq.2.symm, heq.1.symm⟩), zero_add]

/-- A miner leaves a pool: its deposit becomes free, and the total stays. -/
theorem DepositLaw.frees (h : DepositLaw t) {minerid : UInt64}
    (hrow : t.miner2dep.find minerid = some row) (ha : a.Sound) (htotal : a.depositTotal.value =
      (standing (t.pool row.minerType) row.accountName).depositTotal.value)
    (hfree : a.depositFree.value =
      (standing (t.pool row.minerType) row.accountName).depositFree.value + row.deposit.value) :
    DepositLaw { t.setPool row.minerType ((t.pool row.minerType).put row.accountName a) with
      miner2dep := t.miner2dep.erase minerid } := by
  have hsound := h.miners minerid row hrow
  refine h.update hsound.type ha (forall_erase h.miners) ?_
  intro type user
  have herase := locked_erase hrow type user
  split
  · rename_i heq
    have hlocked := h.locked _ hsound.type row.accountName
    rw [heq.1, heq.2, share_self] at herase
    rw [heq.1, heq.2]
    omega
  · rename_i hne
    rw [share, if_neg (fun heq => hne ⟨heq.2.symm, heq.1.symm⟩), add_zero] at herase
    exact herase

/-! ## 4. Rows of a pool -/

structure Shifted (a a' : DepositPool) (total free his : ℤ) : Prop where
  total : a'.depositTotal.value = a.depositTotal.value + total
  free : a'.depositFree.value = a.depositFree.value + free
  his : a'.depositHis.value = a.depositHis.value + his
  range : a'.depositHis.value ≤ 2 ^ 62 - 1

theorem value_pos {q : Asset} (h : 0 < q.amount) : 0 < q.value := by
  have h' := lt_iff_toInt_lt.mp h
  rwa [toInt_zero] at h'

theorem value_le {a b : Asset} (h : a.amount ≤ b.amount) : a.value ≤ b.value := le_iff_toInt_le.mp h

section PoolRows

variable {pool pool' : Table Name DepositPool} {user : Name} {quant : Asset}

theorem payIn_ok (h : payIn pool user quant = .ok pool') (hs : (standing pool user).Sound)
    (hq : pool.find user = none → InWindow quant.amount) :
    ∃ a, pool' = pool.put user a ∧
      Shifted (standing pool user) a quant.value quant.value quant.value := by
  unfold payIn at h
  rcases hfind : pool.find user with _ | a
  · rw [hfind] at h
    cases h
    have hzero : standing pool user = ⟨0, ⟨0, coreSymbol⟩, ⟨0, coreSymbol⟩, ⟨0, coreSymbol⟩⟩ := by
      rw [standing, hfind]
      rfl
    have hvalue : (⟨0, coreSymbol⟩ : Asset).value = 0 := rfl
    refine ⟨_, rfl, ?_, ?_, ?_, (hq hfind).2⟩ <;> rw [hzero, hvalue, zero_add]
  · rw [standing_of_some hfind] at hs ⊢
    simp only [hfind, ok_iff] at h
    obtain ⟨total, htotal, free, hfree, his, hhis, rfl⟩ := h
    obtain ⟨wt, wf, wh⟩ := hs.windows
    obtain ⟨hvh, hwh⟩ := Asset.add_ok hhis wh
    exact ⟨_, rfl, (Asset.add_ok htotal wt).1, (Asset.add_ok hfree wf).1, hvh, hwh.2⟩

theorem payOut_ok (h : payOut pool user quant = .ok pool') (hs : (standing pool user).Sound) :
    ∃ a, pool' = pool.put user a ∧ quant.value ≤ (standing pool user).depositFree.value ∧
      Shifted (standing pool user) a (-quant.value) (-quant.value) (-quant.value) := by
  simp only [payOut, ok_iff] at h
  obtain ⟨a, ha, hle, _, _, free, hfree, total, htotal, his, hhis, rfl⟩ := h
  rw [standing_of_some ha] at hs ⊢
  obtain ⟨wt, wf, wh⟩ := hs.windows
  obtain ⟨hvh, hwh⟩ := Asset.sub_ok hhis wh
  exact ⟨_, rfl, value_le hle, (Asset.sub_ok htotal wt).1, (Asset.sub_ok hfree wf).1, hvh, hwh.2⟩

/-- The cut at the total does nothing as long as the deposit was locked. -/
theorem release_ok {a : DepositPool} {deposit : Asset} (h : release a deposit = .ok a')
    (hs : a.Sound) (hfit : a.depositFree.value + deposit.value ≤ a.depositTotal.value) :
    Shifted a a' 0 deposit.value 0 := by
  simp only [release, ok_iff] at h
  obtain ⟨free, hfree, full, hfull, rfl⟩ := h
  obtain ⟨hvalue, _⟩ := Asset.add_ok hfree hs.windows.2.1
  refine ⟨(add_zero _).symm, ?_, (add_zero _).symm, hs.range⟩
  by_cases hle : a.depositTotal.amount ≤ free.amount
  · have hle' := value_le hle
    rw [Asset.ge_ok hfull, decide_eq_true hle]
    show a.depositTotal.value = a.depositFree.value + deposit.value
    omega
  · rw [Asset.ge_ok hfull, decide_eq_false hle]
    exact hvalue

variable {msg : String}

theorem charge_ok (h : charge pool user quant msg = .ok pool') (hs : (standing pool user).Sound) :
    ∃ a, pool' = pool.put user a ∧
      quant.value ≤ (standing pool user).depositTotal.value -
        (standing pool user).depositFree.value ∧
      Shifted (standing pool user) a (-quant.value) 0 0 := by
  simp only [charge, ok_iff] at h
  obtain ⟨a, ha, hle, total, htotal, rfl⟩ := h
  rw [standing_of_some ha] at hs ⊢
  obtain ⟨wt, wf, _⟩ := hs.windows
  have hle' := le_iff_toInt_le.mp hle
  unfold InWindow at wt wf
  rw [toInt_sub_of_bounds (by omega) (by omega)] at hle'
  exact ⟨_, rfl, hle', (Asset.sub_ok htotal hs.windows.1).1, (add_zero _).symm,
    (add_zero _).symm, hs.range⟩

theorem leave_ok {miner : Miner2Dep} {newFree : Asset}
    (h : leave pool miner msg newFree = .ok pool') (hs : (standing pool miner.accountName).Sound) :
    ∃ a, pool' = pool.put miner.accountName a ∧ miner.depTotal.value ≤ newFree.value ∧
      Shifted (standing pool miner.accountName) a 0 miner.deposit.value 0 := by
  simp only [leave, ok_iff] at h
  obtain ⟨a, ha, hle, free, hfree, rfl⟩ := h
  rw [standing_of_some ha] at hs ⊢
  exact ⟨_, rfl, value_le hle, (add_zero _).symm, (Asset.add_ok hfree hs.windows.2.1).1,
    (add_zero _).symm, hs.range⟩

theorem lock_ok {a : DepositPool} {free : Asset} (h : a.depositFree.sub quant = .ok free)
    (hs : a.Sound) : Shifted a { a with depositFree := free } 0 (-quant.value) 0 :=
  ⟨(add_zero _).symm, (Asset.sub_ok h hs.windows.2.1).1, (add_zero _).symm, hs.range⟩

end PoolRows

/-- A shift that keeps the order keeps the row sound. -/
theorem Shifted.sound {total free his : ℤ} (h : Shifted a a' total free his)
    (h0 : 0 ≤ a.depositFree.value + free)
    (h1 : a.depositFree.value + free ≤ a.depositTotal.value + total)
    (h2 : a.depositTotal.value + total ≤ a.depositHis.value + his) : a'.Sound := by
  refine ⟨?_, ?_, ?_, h.range⟩
  · rw [h.free]
    exact h0
  · rw [h.free, h.total]
    exact h1
  · rw [h.total, h.his]
    exact h2

variable {quant : Asset}

theorem increase_ok {miner : Miner2Dep} (h : increase miner quant = .ok row) (hs : miner.Sound)
    (hpos : 0 < quant.value) :
    row.Sound ∧ row.minerType = 1 ∧ row.accountName = miner.accountName ∧
      row.deposit.value = miner.deposit.value + quant.value := by
  simp only [increase, ok_iff] at h
  obtain ⟨deposit, hdeposit, rfl⟩ := h
  obtain ⟨hvalue, hwindow⟩ := Asset.add_ok hdeposit hs.windows.1
  have hmax : ∀ x : Int64, x = (if miner.depTotal.amount < deposit.amount then deposit.amount
      else miner.depTotal.amount) → deposit.amount.toInt ≤ x.toInt ∧ x.toInt ≤ 2 ^ 62 - 1 := by
    rintro x rfl
    have hrange := hs.range
    unfold Asset.value at hrange
    split_ifs with hlt
    · exact ⟨le_refl _, hwindow.2⟩
    · rw [lt_iff_toInt_lt] at hlt
      omega
  obtain ⟨hle, hrange⟩ := hmax _ rfl
  refine ⟨⟨isType_one, ?_, hle, hrange⟩, rfl, rfl, hvalue⟩
  have hnonneg := hs.deposit
  show 0 ≤ deposit.value
  omega

/-! ## 5. Every action keeps the law -/

section Law

variable {t : Tables} {minerid : UInt64} {miner : Miner2Dep}

theorem DepositLaw.fits (h : DepositLaw t) (hminer : t.miner2dep.find minerid = some miner) :
    (standing (t.pool miner.minerType) miner.accountName).depositFree.value +
      miner.deposit.value ≤
        (standing (t.pool miner.minerType) miner.accountName).depositTotal.value := by
  have hle := deposit_le_locked h.miners hminer
  have hlocked := h.locked _ (h.miners minerid miner hminer).type miner.accountName
  omega

variable {a : DepositPool}

theorem DepositLaw.sound_free (h : DepositLaw t) (hminer : t.miner2dep.find minerid = some miner)
    (ha : Shifted (standing (t.pool miner.minerType) miner.accountName) a 0
      miner.deposit.value 0) : a.Sound := by
  have hs := h.pools _ (h.miners minerid miner hminer).type miner.accountName
  have hfit := h.fits hminer
  have hnonneg := (h.miners minerid miner hminer).deposit
  have h0 := hs.free
  have h2 := hs.his
  exact ha.sound (by omega) (by omega) (by omega)

theorem sound_lock {q : ℤ} (ha : a.Sound) (h : Shifted a a' 0 (-q) 0) (hq : 0 ≤ q)
    (hle : q ≤ a.depositFree.value) : a'.Sound := by
  have h1 := ha.total
  have h2 := ha.his
  exact h.sound (by omega) (by omega) (by omega)

variable {type : UInt8} {user : Name} {quant : Asset} {pool : Table Name DepositPool}

theorem DepositLaw.payIn (h : DepositLaw t) (htype : IsType type)
    (hpool : payIn (t.pool type) user quant = .ok pool) (hpos : 0 < quant.amount)
    (hq : (t.pool type).find user = none → InWindow quant.amount) :
    DepositLaw (t.setPool type pool) := by
  have hs := h.pools type htype user
  obtain ⟨a, rfl, ha⟩ := payIn_ok hpool hs hq
  have h0 := hs.free
  have h1 := hs.total
  have h2 := hs.his
  have hv := value_pos hpos
  refine h.shift htype (ha.sound (by omega) (by omega) (by omega)) ?_
  rw [ha.total, ha.free]
  omega

theorem DepositLaw.payOut (h : DepositLaw t) (htype : IsType type)
    (hpool : payOut (t.pool type) user quant = .ok pool) : DepositLaw (t.setPool type pool) := by
  have hs := h.pools type htype user
  obtain ⟨a, rfl, hle, ha⟩ := payOut_ok hpool hs
  have h1 := hs.total
  have h2 := hs.his
  refine h.shift htype (ha.sound (by omega) (by omega) (by omega)) ?_
  rw [ha.total, ha.free]
  omega

theorem DepositLaw.change (h : DepositLaw t) (hminer : t.miner2dep.find minerid = some miner)
    {row : Miner2Dep} (hrow : row.Sound) (htype : row.minerType = miner.minerType)
    (huser : row.accountName = miner.accountName) (ha : a.Sound)
    (hlocked : a.depositTotal.value - a.depositFree.value =
      (standing (t.pool miner.minerType) miner.accountName).depositTotal.value -
        (standing (t.pool miner.minerType) miner.accountName).depositFree.value +
        (row.deposit.value - miner.deposit.value)) :
    DepositLaw { t.setPool miner.minerType ((t.pool miner.minerType).put miner.accountName a) with
      miner2dep := t.miner2dep.put minerid row } := by
  have hsound := h.miners minerid miner hminer
  refine h.update hsound.type ha (forall_put h.miners hrow) ?_
  intro type user
  have hput : HddDeposit.locked (t.miner2dep.put minerid row) type user + share type user miner =
      HddDeposit.locked t.miner2dep type user + share type user row := locked_put hminer type user
  split
  · rename_i heq
    have hold := h.locked _ hsound.type miner.accountName
    have hself := share_self row
    rw [htype, huser] at hself
    rw [heq.1, heq.2, share_self, hself] at hput
    rw [heq.1, heq.2]
    omega
  · rename_i hne
    rw [share, if_neg (fun heq => hne ⟨heq.2.symm, heq.1.symm⟩), share, htype, huser,
      if_neg (fun heq => hne ⟨heq.2.symm, heq.1.symm⟩), add_zero, add_zero] at hput
    exact hput

theorem fine_value (hs : miner.Sound) (hpos : 0 < quant.amount) :
    0 ≤ (fine miner quant).value ∧ (fine miner quant).value ≤ miner.deposit.value := by
  have hv := value_pos hpos
  unfold fine
  split_ifs with hlt
  · exact ⟨hs.deposit, le_refl _⟩
  · rw [lt_iff_toInt_lt] at hlt
    exact ⟨le_of_lt hv, Int.not_lt.mp hlt⟩

variable {msg : String}

theorem DepositLaw.forfeit (h : DepositLaw t) (hminer : t.miner2dep.find minerid = some miner)
    (hpos : 0 < quant.amount)
    (hpool : charge (t.pool miner.minerType) miner.accountName (fine miner quant) msg = .ok pool) :
    DepositLaw { t.setPool miner.minerType pool with
      miner2dep := t.miner2dep.put minerid { miner with
        deposit := { miner.deposit with
          amount := miner.deposit.amount - (fine miner quant).amount } } } := by
  have hs := h.miners minerid miner hminer
  have hpools := h.pools _ hs.type miner.accountName
  obtain ⟨a, rfl, hle, ha⟩ := charge_ok hpool hpools
  obtain ⟨hlo, hhi⟩ := fine_value hs hpos
  have hwindow := hs.windows.1
  have hnonneg := hs.deposit
  have htotal := hs.total
  have hdeposit : (miner.deposit.amount - (fine miner quant).amount).toInt =
      miner.deposit.value - (fine miner quant).value := by
    unfold Asset.value at hlo hhi hnonneg
    unfold InWindow at hwindow
    exact toInt_sub_of_bounds (by omega) (by omega)
  have hrow : Miner2Dep.Sound { miner with
      deposit := { miner.deposit with
        amount := miner.deposit.amount - (fine miner quant).amount } } := by
    refine ⟨hs.type, ?_, ?_, hs.range⟩
    · show 0 ≤ (miner.deposit.amount - (fine miner quant).amount).toInt
      omega
    · show (miner.deposit.amount - (fine miner quant).amount).toInt ≤ miner.depTotal.value
      omega
  refine h.change hminer hrow rfl rfl ?_ ?_
  · have h0 := hpools.free
    have h2 := hpools.his
    exact ha.sound (by omega) (by omega) (by omega)
  · show _ = _ + ((miner.deposit.amount - (fine miner quant).amount).toInt - _)
    rw [ha.total, ha.free]
    omega

theorem setPool_pool (t : Tables) (type : UInt8) : t.setPool type (t.pool type) = t := by
  unfold Tables.setPool Tables.pool
  split <;> rfl

section

variable (h : DepositLaw t) (hminer : t.miner2dep.find minerid = some miner)

include h hminer

theorem DepositLaw.delete (hpool : giveBack (t.pool miner.minerType) miner = .ok pool) :
    DepositLaw { t.setPool miner.minerType pool with miner2dep := t.miner2dep.erase minerid } := by
  have hs := h.miners minerid miner hminer
  have hpools := h.pools _ hs.type miner.accountName
  unfold giveBack at hpool
  rcases hfind : (t.pool miner.minerType).find miner.accountName with _ | a
  · -- without a row in the pool the account has nothing locked
    rw [hfind] at hpool
    cases hpool
    have hfit := h.fits hminer
    have hzero : (⟨0, coreSymbol⟩ : Asset).value = 0 := rfl
    rw [standing, hfind] at hfit
    have hnonneg := hs.deposit
    have hdeposit : miner.deposit.value = 0 := by
      simp only [Option.getD_none, hzero] at hfit
      omega
    rw [setPool_pool]
    refine ⟨h.pools, ?_, forall_erase h.miners⟩
    intro type htype user
    have herase := locked_erase hminer type user
    have hshare : share type user miner = 0 := by
      unfold share
      split
      · exact hdeposit
      · rfl
    rw [hshare, add_zero] at herase
    exact (h.locked type htype user).trans herase.symm
  · rw [hfind] at hpool
    simp only [ok_iff] at hpool
    obtain ⟨a', hrel, rfl⟩ := hpool
    have hfit := h.fits hminer
    have ha : Shifted (standing (t.pool miner.minerType) miner.accountName) a' 0
        miner.deposit.value 0 := by
      rw [standing_of_some hfind] at hpools hfit ⊢
      exact release_ok hrel hpools hfit
    refine h.frees hminer (h.sound_free hminer ha) ?_ ha.free
    rw [ha.total, add_zero]

variable {a2 : DepositPool} {free : Asset} {increased : Miner2Dep}

/-- A miner of type 0 enters the second pool with a larger deposit. -/
theorem DepositLaw.migrate (htype : miner.minerType = 0) (hpos : 0 < quant.amount)
    (ha : (t.pool 0).find miner.accountName = some a)
    (ha2 : (t.pool 1).find miner.accountName = some a2) {released : DepositPool}
    (hrel : release a miner.deposit = .ok released) (hinc : increase miner quant = .ok increased)
    (hle : increased.deposit.amount ≤ a2.depositFree.amount)
    (hfree : a2.depositFree.sub increased.deposit = .ok free) :
    DepositLaw { (t.setPool 0 ((t.pool 0).put miner.accountName released)).setPool 1
        ((t.pool 1).put miner.accountName { a2 with depositFree := free }) with
      miner2dep := t.miner2dep.put minerid increased } := by
  obtain ⟨hsound, htype', huser, _⟩ := increase_ok hinc (h.miners minerid miner hminer)
    (value_pos hpos)
  -- it leaves the old pool
  have hshift : Shifted (standing (t.pool miner.minerType) miner.accountName) released 0
      miner.deposit.value 0 := by
    have hfit := h.fits hminer
    have hs := h.pools 0 isType_zero miner.accountName
    rw [htype, standing_of_some ha] at hfit
    rw [standing_of_some ha] at hs
    rw [htype, standing_of_some ha]
    exact release_ok hrel hs hfit
  have hlaw := h.frees hminer (h.sound_free hminer hshift)
    (hshift.total.trans (add_zero _)) hshift.free
  rw [htype] at hlaw
  -- and enters the second one
  have hs2 := h.pools 1 isType_one miner.accountName
  rw [standing_of_some ha2] at hs2
  have hlock := lock_ok hfree hs2
  have hstanding : standing ((t.setPool 0 ((t.pool 0).put miner.accountName released)).pool
      increased.minerType) increased.accountName = a2 := by
    rw [htype', huser, pool_setPool isType_zero isType_one]
    exact standing_of_some ha2
  have hlaw2 := hlaw.locks minerid hsound (find_erase_self _ _)
    (sound_lock hs2 hlock hsound.deposit (value_le hle))
    (by rw [hlock.total, add_zero]; exact congrArg (fun x => x.depositTotal.value) hstanding.symm)
    (by
      rw [hlock.free, ← sub_eq_add_neg]
      exact congrArg (fun x => x.depositFree.value - _) hstanding.symm)
  rw [htype', huser] at hlaw2
  refine hlaw2.congr ⟨?_, ?_, ?_⟩
  · rfl
  · rfl
  · show _ = (t.miner2dep.erase minerid).put minerid increased
    rw [put_erase]

theorem DepositLaw.raise (htype : miner.minerType ≠ 0) (hpos : 0 < quant.amount)
    (ha2 : (t.pool 1).find miner.accountName = some a2) (hle : quant.amount ≤ a2.depositFree.amount)
    (hinc : increase miner quant = .ok increased) (hfree : a2.depositFree.sub quant = .ok free) :
    DepositLaw { t.setPool 1 ((t.pool 1).put miner.accountName { a2 with depositFree := free }) with
      miner2dep := t.miner2dep.put minerid increased } := by
  have hone : miner.minerType = 1 := (h.miners minerid miner hminer).type.resolve_left htype
  obtain ⟨hsound, htype', huser, hvalue⟩ := increase_ok hinc (h.miners minerid miner hminer)
    (value_pos hpos)
  have hs2 := h.pools 1 isType_one miner.accountName
  rw [standing_of_some ha2] at hs2
  have hlock := lock_ok hfree hs2
  have hlaw := h.change hminer hsound (htype'.trans hone.symm) huser
    (sound_lock hs2 hlock (le_of_lt (value_pos hpos)) (value_le hle)) (by
      rw [hone, standing_of_some ha2, hlock.total, hlock.free, hvalue]
      omega)
  rw [hone] at hlaw
  exact hlaw

end

variable {newDepacc : Name}

theorem standing_move (htype : IsType type) (hne : user ≠ newDepacc)
    (ha2 : (t.pool 1).find newDepacc = some a2) :
    standing ((t.setPool type ((t.pool type).put user a)).pool 1) newDepacc = a2 := by
  rw [pool_setPool htype isType_one]
  split_ifs with heq
  · rw [standing_put, if_neg (Ne.symm hne), ← heq]
    exact standing_of_some ha2
  · exact standing_of_some ha2

/-- A miner leaves the pool of its account and enters the second pool of another one. -/
theorem DepositLaw.move (h : DepositLaw t) (hminer : t.miner2dep.find minerid = some miner)
    (hne : miner.accountName ≠ newDepacc) (ha2 : (t.pool 1).find newDepacc = some a2)
    (hpool : leave (t.pool miner.minerType) miner msg a2.depositFree = .ok pool)
    (hfree : a2.depositFree.sub miner.depTotal = .ok free) :
    DepositLaw { (t.setPool miner.minerType pool).setPool 1
        (((t.setPool miner.minerType pool).pool 1).put newDepacc
          { a2 with depositFree := free }) with
      miner2dep := t.miner2dep.put minerid ⟨1, newDepacc, miner.depTotal, miner.depTotal⟩ } := by
  have hs := h.miners minerid miner hminer
  obtain ⟨a, rfl, hle, hshift⟩ := leave_ok hpool (h.pools _ hs.type miner.accountName)
  have hlaw := h.frees hminer (h.sound_free hminer hshift)
    (hshift.total.trans (add_zero _)) hshift.free
  have hs2 := h.pools 1 isType_one newDepacc
  rw [standing_of_some ha2] at hs2
  have hlock := lock_ok hfree hs2
  have hnonneg : 0 ≤ miner.depTotal.value := le_trans hs.deposit hs.total
  have hrow : Miner2Dep.Sound ⟨1, newDepacc, miner.depTotal, miner.depTotal⟩ :=
    ⟨isType_one, hnonneg, le_refl _, hs.range⟩
  have hstanding := standing_move (a := a) hs.type hne ha2
  have hlaw2 := hlaw.locks minerid hrow (find_erase_self _ _)
    (sound_lock hs2 hlock hnonneg hle)
    (by rw [hlock.total, add_zero]; exact congrArg (fun x => x.depositTotal.value) hstanding.symm)
    (by
      rw [hlock.free, ← sub_eq_add_neg]
      exact congrArg (fun x => x.depositFree.value - _) hstanding.symm)
  refine hlaw2.congr ⟨?_, ?_, ?_⟩
  · rfl
  · rfl
  · show _ = (t.miner2dep.erase minerid).put minerid _
    rw [put_erase]

end Law

theorem poolTotal_toInt (pool : Table Name DepositPool) (user : Name) :
    (poolTotal pool user).toInt = (standing pool user).depositTotal.value := by
  unfold poolTotal standing
  rcases pool.find user with _ | a
  · rfl
  · rfl

theorem DepositLaw.pay_window (h : DepositLaw t) {balance : Asset} (hpos : 0 < quant.amount)
    (hw : InWindow balance.amount) (hcover : quant.amount ≤
      balance.amount - poolTotal t.depositpool user - poolTotal t.depositpool2 user)
    (hnone : (t.pool 0).find user = none) : InWindow quant.amount := by
  have hzero : poolTotal t.depositpool user = 0 := by
    rw [poolTotal, show t.depositpool.find user = none from hnone]
  have htotal : (poolTotal t.depositpool2 user).toInt =
      (standing (t.pool 1) user).depositTotal.value := poolTotal_toInt _ _
  have hs2 := h.pools 1 isType_one user
  have h0 := hs2.free
  have h1 := hs2.total
  have h2 := hs2.his
  have h3 := hs2.range
  have hv := value_pos hpos
  have hcover' := le_iff_toInt_le.mp hcover
  unfold InWindow at hw ⊢
  unfold Asset.value at hv
  rw [hzero, Int64.sub_zero, toInt_sub_of_bounds (by omega) (by omega), htotal] at hcover'
  omega

/-- A successful action keeps the law, if what it sends can be paid. -/
theorem DepositLaw.effect {c : Ctx} {token : Token.Tables} {a : Act} {sent : List Sent}
    (h : DepositLaw t) (htoken : Token.InRange token) (he : Effect c token t a t' sent)
    (hsent : ∀ x ∈ sent, Ledger.Payable x.act) : DepositLaw t' := by
  cases he with
  | idle _ hsame => exact h.congr hsame
  | store hsame => exact h.congr hsame
  | unstore hsame => exact h.congr hsame
  | pay hpos _ hbalance hcover _ hpool =>
    exact h.payIn isType_zero hpool hpos (h.pay_window hpos (htoken _ _ hbalance) hcover)
  | unpay _ _ hpool => exact h.payOut isType_zero hpool
  | pay2 hpos _ _ hpool =>
    exact h.payIn isType_one hpool hpos fun _ => (hsent _ List.mem_cons_self).1
  | unpay2 _ _ hpool => exact h.payOut isType_one hpool
  | @lock user minerid quant hpos a ha hle free hfree hnew =>
    have hs := h.pools 1 isType_one user
    rw [standing_of_some ha] at hs
    have hlock := lock_ok hfree hs
    have hv := le_of_lt (value_pos hpos)
    have hw := hs.windows.2.1
    have hle' := value_le hle
    have hrow : Miner2Dep.Sound ⟨1, user, quant, quant⟩ :=
      ⟨isType_one, hv, le_refl _, le_trans hle' hw.2⟩
    refine h.locks minerid hrow hnew (sound_lock hs hlock hv hle') ?_ ?_
    · rw [hlock.total, add_zero, standing_of_some ha]
    · rw [hlock.free, standing_of_some ha, ← sub_eq_add_neg]
  | migrate hpos _ hminer htype _ _ ha ha2 _ hrel _ hinc hle _ hfree =>
    exact h.migrate hminer htype hpos ha ha2 hrel hinc hle hfree
  | raise hpos _ hminer htype _ ha2 hle _ hinc _ hfree =>
    exact h.raise hminer htype hpos ha2 hle hinc hfree
  | forfeit hpos _ _ hminer _ _ hpool => exact h.forfeit hminer hpos hpool
  | delete _ hminer _ hpool => exact h.delete hminer hpool
  | move _ hminer hne _ ha2 _ _ hpool _ hfree =>
    exact h.move hminer hne ha2 hpool hfree

end YottaChain.HddDeposit

namespace YottaChain.Ledger

open Checked HddDeposit

/-! ## 6. Transactions keep the law -/

variable {fp : Doubles} {e : Env} {w w' : World}

theorem Handled.depositLaw {c : Ctx} {a : Act} {sent : List Message}
    (hhandled : Handled fp e c w a w' sent) (h : DepositLaw w.deposit) (ht : Token.InRange w.token)
    (hsent : ∀ x ∈ sent, Payable x.act) : DepositLaw w'.deposit := by
  cases hhandled with
  | deposit heffect =>
    exact h.effect ht heffect fun x hx => hsent (.ofSent x) (List.mem_map_of_mem hx)
  | _ => exact h

theorem exec_depositLaw {depth : ℕ} {m : Message} (h : DepositLaw w.deposit)
    (ht : Token.InRange w.token) (hrun : exec fp e depth w m = .ok w') :
    DepositLaw w'.deposit ∧ Token.InRange w'.token := by
  refine exec_sound (J := fun w _ => DepositLaw w.deposit ∧ Token.InRange w.token) ?_ ⟨h, ht⟩ hrun
  intro w m rest w' sent _ hpayable hw hhandled
  exact ⟨hhandled.depositLaw hw.1 hw.2 fun x hx => hpayable x (List.mem_append_left _ hx),
    hhandled.inRange hw.2⟩

/-- In every run of transactions that starts with a ledger in order, in particular
    an empty one, and with balances in range: pools and deposits of miners agree,
    and when a miner's deposit is released the cut at `deposit_total` discards
    nothing. -/
theorem deposit_ledger {fp : Doubles} {w₀ w : World} (h₀ : DepositLaw w₀.deposit)
    (ht₀ : Token.InRange w₀.token) (hrun : Run.Steps (TxStep fp fun _ _ _ => True) w₀ w) :
    DepositLaw w.deposit ∧
    ∀ minerid row a a', w.deposit.miner2dep.find minerid = some row →
      (w.deposit.pool row.minerType).find row.accountName = some a →
      release a row.deposit = .ok a' →
      a'.depositFree.value = a.depositFree.value + row.deposit.value := by
  have hlaw : DepositLaw w.deposit ∧ Token.InRange w.token := by
    refine Run.invariant (P := fun w => DepositLaw w.deposit ∧ Token.InRange w.token) ?_
      ⟨h₀, ht₀⟩ hrun
    rintro w w' ⟨h, ht⟩ ⟨e, depth, m, _, hexec⟩
    exact exec_depositLaw h ht hexec
  refine ⟨hlaw.1, ?_⟩
  intro minerid row a a' hrow ha hrel
  have hfit := hlaw.1.fits hrow
  have hs := hlaw.1.pools _ (hlaw.1.miners minerid row hrow).type row.accountName
  rw [standing_of_some ha] at hfit hs
  exact (release_ok hrel hs hfit).free

theorem depositLaw_empty : DepositLaw World.empty.deposit := by
  have hstanding : ∀ type user, standing (World.empty.deposit.pool type) user =
      ⟨0, ⟨0, coreSymbol⟩, ⟨0, coreSymbol⟩, ⟨0, coreSymbol⟩⟩ := by
    intro type user
    have hnone : (World.empty.deposit.pool type).find user = none := by
      unfold Tables.pool
      split <;> exact Table.find_empty user
    rw [standing, hnone]
    rfl
  refine ⟨?_, ?_, ?_⟩
  · intro type _ user
    rw [hstanding]
    constructor <;> decide
  · intro type _ user
    rw [hstanding]
    rfl
  · intro minerid row hrow
    rw [show World.empty.deposit.miner2dep.find minerid = none from Table.find_empty _] at hrow
    cases hrow

/-- The miners 5 and 6 are registered in `hddpool`. -/
def minersEnv : Env :=
  { Env.plain with hddpool := { HddPool.Tables.empty with
      minerinfo := [5, 6].foldl (fun rows m => rows.put m ⟨N "alice", 2, 9, 6553600, 6553600⟩) ∅ } }

/-- Tokens from the bridge fill the pool of `alice` through `channel.sys`; it pays
    the deposits of two miners, of which one is increased, fined and released. -/
def sampleDeposit : List Message :=
  let yta (n : Int64) : Asset := ⟨n, coreSymbol⟩
  let admin := [N "hddpooladmin"]
  [⟨[Token.self], .create 1 (yta 1000000000)⟩,
    ⟨[1], .issue Channel.mapAccount (yta 9000000) []⟩,
    ⟨[Channel.mapAccount], .transfer Channel.mapAccount channelSys (yta 8000000)
      "4:alice:".toList⟩,
    ⟨admin, .paydeposit (N "alice") 5 (yta 3000000)⟩,
    ⟨admin, .paydeposit (N "alice") 6 (yta 1500000)⟩, ⟨admin, .incdeposit 5 (yta 2000000)⟩,
    ⟨[HddDeposit.self], .mforfeit (N "alice") 5 (yta 1000000) [] 1 0⟩, ⟨admin, .delminer 5⟩]

/-- The pool has lost the fine, and lacks the deposit of the remaining miner. -/
theorem deposit_ledger_sample :
    DepositLaw World.empty.deposit ∧ Token.InRange World.empty.token ∧
      ∃ w, Run.Steps (TxStep .whole fun _ _ _ => True) World.empty w ∧
        (w.deposit.depositpool2.find (N "alice")).map (fun a =>
          (a.depositTotal.amount, a.depositFree.amount)) = some (7000000, 5500000) ∧
        DepositLaw w.deposit := by
  obtain ⟨w, hw, hview⟩ := Checked.exists_of_map_eq_ok
    (x := execs .whole minersEnv 4 .empty sampleDeposit)
    (f := fun w => (w.deposit.depositpool2.find (N "alice")).map fun a =>
      (a.depositTotal.amount, a.depositFree.amount))
    (b := some (7000000, 5500000)) (by decide +kernel)
  have ht : Token.InRange World.empty.token := by
    intro k balance hk
    rw [show World.empty.token.accounts.find k = none from Table.find_empty _] at hk
    cases hk
  have hrun : Run.Steps (TxStep .whole fun _ _ _ => True) World.empty w :=
    execs_steps (fun _ _ _ => trivial) hw
  exact ⟨depositLaw_empty, ht, w, hrun, hview, (deposit_ledger depositLaw_empty ht hrun).1⟩

end YottaChain.Ledger
