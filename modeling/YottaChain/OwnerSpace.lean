/-
  **An owner's production space is the space of the owner's earning miners.**

  A miner earns when its per-cycle profit is positive.  `worth` is what such a
  miner counts for, and `earning` the sum over the miners of an owner.  The law
  `OwnersLaw` is about the accounts and the miners' rows alone; every action that
  writes both is a removal, a new row or an overwritten row together with a
  `Shifts` of the owner's account from the old worth to the new one.

  The rate itself is a floating-point expression; all that is used of it is
  `PositiveRate`.
-/
import YottaChain.MinerRegistry

namespace YottaChain.HddPool

open FixedWidth Table UInt64

theorem maxProfitSpace_toNat : maxProfitSpace.toNat = 34359738368000 := rfl

/-! ## 1. The law -/

def worth (acc : MAccount) : Nat := if 0 < acc.hddPerCycleProfit then acc.space.toNat else 0

/-- What a row counts for in the production space of `o`. -/
def worthFor (o : Name) (k : Name × UInt64) (acc : MAccount) : Nat :=
  if k.1 = o then worth acc else 0

def earning (t : Table (Name × UInt64) MAccount) (o : Name) : Nat := t.total (worthFor o)

def Paid (acc : MAccount) : Prop :=
  acc.hddPerCycleProfit = 0 ∨ 0 < acc.hddPerCycleProfit ∧ 0 < acc.space

structure OwnersLaw (users : Table Name UserHdd) (accounts : Table (Name × UInt64) MAccount) :
    Prop where
  aggregate : ∀ o space, o ≠ ecologyfoundAcc → spaceOf users o = some space →
    space.toNat = earning accounts o
  bounded : ∀ o space, spaceOf users o = some space → space.toNat ≤ maxProfitSpace.toNat
  opened : ∀ o m acc, accounts.find (o, m) = some acc → (spaceOf users o).isSome
  paid : ∀ o m acc, accounts.find (o, m) = some acc → Paid acc

/-- The account of `o` goes from counting `w` to counting `w'`. -/
structure Shifts (o : Name) (w w' : Nat) (users users' : Table Name UserHdd) : Prop where
  other : ∀ u, u ≠ o → spaceOf users' u = spaceOf users u
  exempt : o = ecologyfoundAcc → spaceOf users' o = spaceOf users o
  own : o ≠ ecologyfoundAcc → ∀ old, spaceOf users o = some old → w ≤ old.toNat →
    old.toNat ≤ maxProfitSpace.toNat →
    ∃ new, spaceOf users' o = some new ∧ new.toNat + w = old.toNat + w' ∧
      new.toNat ≤ maxProfitSpace.toNat

theorem Shifts.refl (o : Name) (w : Nat) (users : Table Name UserHdd) :
    Shifts o w w users users where
  other := fun _ _ => rfl
  exempt := fun _ => rfl
  own := fun _ old hold _ hle => ⟨old, hold, rfl, hle⟩

variable {o : Name} {d : UInt64} {t t' : Table Name UserHdd} {inc : Bool}

theorem Moves.other (h : Moves o d inc t t') (u : Name) (hu : u ≠ o) :
    spaceOf t' u = spaceOf t u := by
  cases h with
  | exempt _ ht => rw [ht]
  | moved _ _ _ _ ht => rw [ht, Function.update_of_ne hu]

theorem Moves.exempt_eq (h : Moves o d inc t t') (ho : o = ecologyfoundAcc) :
    spaceOf t' o = spaceOf t o := by
  cases h with
  | exempt _ ht => rw [ht]
  | moved howner => exact absurd ho howner

variable {w w' : Nat}

theorem Moves.shifts_up (h : Moves o d true t t') (hw : w' = w + d.toNat)
    (hd : d.toNat ≤ maxMinerSpace.toNat) : Shifts o w w' t t' where
  other := h.other
  exempt := h.exempt_eq
  own := by
    intro ho old hold hle hmax
    cases h with
    | exempt howner => exact absurd howner ho
    | moved _ _ hold' hle' ht =>
      rw [hold] at hold'
      cases hold'
      rw [maxProfitSpace_toNat] at hmax
      rw [maxMinerSpace_toNat] at hd
      have hadd : (old + d).toNat = old.toNat + d.toNat := toNat_add_of_lt (by omega)
      refine ⟨old + d, ?_, by omega, le_iff_toNat_le.mp hle'⟩
      rw [ht, Function.update_self]
      rfl

/-- A decrease by the difference of the two worths: it never stops at zero early. -/
theorem Moves.shifts_down (h : Moves o d false t t') (hw : w' + d.toNat = w) :
    Shifts o w w' t t' where
  other := h.other
  exempt := h.exempt_eq
  own := by
    intro ho old hold hle hmax
    cases h with
    | exempt howner => exact absurd howner ho
    | moved _ _ hold' hle' ht =>
      rw [hold] at hold'
      cases hold'
      have hnew : (newOwnerSpace old d false).toNat + d.toNat = old.toNat := by
        show (if d < old then old - d else 0).toNat + d.toNat = old.toNat
        split_ifs with hlt
        · have hlt' := lt_iff_toNat_lt.mp hlt
          rw [toNat_sub_of_le (by omega)]
          omega
        · have hge := le_iff_toNat_le.mp (UInt64.not_lt.mp hlt)
          rw [UInt64.toNat_zero]
          omega
      refine ⟨_, ?_, by omega, le_iff_toNat_le.mp hle'⟩
      rw [ht, Function.update_self]

theorem MovesIf.shifts_up {c : Prop} (h : MovesIf c o d true t t') (hw : c → w' = w + d.toNat)
    (hd : d.toNat ≤ maxMinerSpace.toNat) (hn : ¬ c → w' = w) : Shifts o w w' t t' := by
  by_cases hc : c
  · exact (h.1 hc).shifts_up (hw hc) hd
  · rw [h.2 hc, hn hc]
    exact .refl o w t

theorem MovesIf.shifts_down {c : Prop} (h : MovesIf c o d false t t') (hw : c → w' + d.toNat = w)
    (hn : ¬ c → w' = w) : Shifts o w w' t t' := by
  by_cases hc : c
  · exact (h.1 hc).shifts_down (hw hc)
  · rw [h.2 hc, hn hc]
    exact .refl o w t

/-! ## 2. Writing a miner's row -/

/-- What the row of `m` in the scope of `o` counts for at present. -/
def worthAt (t : Table (Name × UInt64) MAccount) (o : Name) (m : UInt64) : Nat :=
  t.valueAt (worthFor o) (o, m)

variable {m : UInt64} {acc : MAccount}

theorem worthAt_of_some {t : Table (Name × UInt64) MAccount} (h : t.find (o, m) = some acc) :
    worthAt t o m = worth acc := by
  simp [worthAt, Table.valueAt, h, worthFor]

theorem worthAt_of_none {t : Table (Name × UInt64) MAccount} (h : t.find (o, m) = none) :
    worthAt t o m = 0 := by
  simp [worthAt, Table.valueAt, h]

variable {u : Name}

theorem valueAt_other {t : Table (Name × UInt64) MAccount} (h : o ≠ u) :
    t.valueAt (worthFor u) (o, m) = 0 := by
  unfold Table.valueAt
  cases t.find (o, m) with
  | none => rfl
  | some => exact if_neg h

theorem earning_put_self (t : Table (Name × UInt64) MAccount) (o : Name) (m : UInt64)
    (a : MAccount) : earning (t.put (o, m) a) o + worthAt t o m = earning t o + worth a := by
  have h := t.total_put (o, m) a (worthFor o)
  rwa [show worthFor o (o, m) a = worth a from if_pos rfl] at h

theorem earning_put_other (t : Table (Name × UInt64) MAccount) (m : UInt64) (a : MAccount)
    (h : u ≠ o) : earning (t.put (o, m) a) u = earning t u := by
  have hput := t.total_put (o, m) a (worthFor u)
  rw [valueAt_other (Ne.symm h), show worthFor u (o, m) a = 0 from if_neg (Ne.symm h)] at hput
  exact hput

theorem earning_erase_self (t : Table (Name × UInt64) MAccount) (o : Name) (m : UInt64) :
    earning (t.erase (o, m)) o + worthAt t o m = earning t o :=
  t.total_erase (o, m) (worthFor o)

theorem earning_erase_other (t : Table (Name × UInt64) MAccount) (m : UInt64) (h : u ≠ o) :
    earning (t.erase (o, m)) u = earning t u := by
  have herase := t.total_erase (o, m) (worthFor u)
  rw [valueAt_other (Ne.symm h)] at herase
  exact herase

theorem worthAt_le (t : Table (Name × UInt64) MAccount) (o : Name) (m : UInt64) :
    worthAt t o m ≤ earning t o := by
  have h := earning_erase_self t o m
  omega

section Write

variable {users users' : Table Name UserHdd} {accounts accounts' : Table (Name × UInt64) MAccount}
  {o : Name} {m : UInt64}

section

variable (hl : OwnersLaw users accounts) (hopen : (spaceOf users o).isSome)

include hl hopen

/-- The account of `o` follows a row of `o` from its worth to `w'`; all other accounts stay. -/
theorem OwnersLaw.shift {w' : Nat} (hshift : Shifts o (worthAt accounts o m) w' users users')
    (hself : earning accounts' o + worthAt accounts o m = earning accounts o + w')
    (hother : ∀ u, u ≠ o → earning accounts' u = earning accounts u)
    (hrows : ∀ u k acc, accounts'.find (u, k) = some acc →
      (spaceOf users u).isSome ∧ Paid acc) : OwnersLaw users' accounts' := by
  have hle := worthAt_le accounts o m
  obtain ⟨old, hold⟩ := Option.isSome_iff_exists.mp hopen
  -- the account of `o` itself, when it is not the eco fund
  have hown : o ≠ ecologyfoundAcc →
      ∃ new, spaceOf users' o = some new ∧ new.toNat = earning accounts' o ∧
        new.toNat ≤ maxProfitSpace.toNat := by
    intro ho
    have haggr := hl.aggregate o old ho hold
    obtain ⟨new, hnew, hsum, hmax⟩ := hshift.own ho old hold (by omega) (hl.bounded o old hold)
    exact ⟨new, hnew, by omega, hmax⟩
  refine ⟨fun u space hu hspace => ?_, fun u space hspace => ?_, fun u k acc hacc => ?_,
    fun u k acc hacc => (hrows u k acc hacc).2⟩
  · by_cases huo : u = o
    · subst huo
      obtain ⟨new, hnew, heq, _⟩ := hown hu
      rw [hnew] at hspace
      cases hspace
      exact heq
    · rw [hshift.other u huo] at hspace
      rw [hother u huo]
      exact hl.aggregate u space hu hspace
  · by_cases huo : u = o
    · subst huo
      by_cases heco : u = ecologyfoundAcc
      · rw [hshift.exempt heco] at hspace
        exact hl.bounded u space hspace
      · obtain ⟨new, hnew, _, hmax⟩ := hown heco
        rw [hnew] at hspace
        cases hspace
        exact hmax
    · rw [hshift.other u huo] at hspace
      exact hl.bounded u space hspace
  · by_cases huo : u = o
    · subst huo
      by_cases heco : u = ecologyfoundAcc
      · rw [hshift.exempt heco]
        exact hopen
      · obtain ⟨new, hnew, _⟩ := hown heco
        rw [hnew]
        rfl
    · rw [hshift.other u huo]
      exact (hrows u k acc hacc).1

theorem OwnersLaw.put {acc : MAccount} (hpaid : Paid acc)
    (hshift : Shifts o (worthAt accounts o m) (worth acc) users users') :
    OwnersLaw users' (accounts.put (o, m) acc) := by
  refine hl.shift hopen hshift (earning_put_self accounts o m acc)
    (fun u hu => earning_put_other accounts m acc hu) ?_
  intro u k a ha
  rw [find_put] at ha
  split_ifs at ha with hk
  · cases hk
    cases ha
    exact ⟨hopen, hpaid⟩
  · exact ⟨hl.opened u k a ha, hl.paid u k a ha⟩

theorem OwnersLaw.erase (hshift : Shifts o (worthAt accounts o m) 0 users users') :
    OwnersLaw users' (accounts.erase (o, m)) := by
  refine hl.shift hopen hshift (earning_erase_self accounts o m)
    (fun u hu => earning_erase_other accounts m hu) ?_
  intro u k a ha
  rw [find_erase] at ha
  split at ha
  · cases ha
  · exact ⟨hl.opened u k a ha, hl.paid u k a ha⟩

end

theorem OwnersLaw.earning_closed (hl : OwnersLaw users accounts) (h : spaceOf users o = none) :
    earning accounts o = 0 := by
  apply total_eq_zero
  rintro ⟨u, m⟩ acc hacc
  refine if_neg ?_
  rintro rfl
  have hopen := hl.opened u m acc hacc
  rw [h] at hopen
  cases hopen

theorem OwnersLaw.opens (hl : OwnersLaw users accounts) (h : Opens users users') :
    OwnersLaw users' accounts := by
  refine ⟨fun o space ho hspace => ?_, fun o space hspace => ?_, fun o m acc hacc => ?_, hl.paid⟩
  · rcases h o with heq | ⟨hnone, hzero⟩
    · rw [heq] at hspace
      exact hl.aggregate o space ho hspace
    · rw [hzero] at hspace
      cases hspace
      rw [hl.earning_closed hnone]
      rfl
  · rcases h o with heq | ⟨hnone, hzero⟩
    · rw [heq] at hspace
      exact hl.bounded o space hspace
    · rw [hzero] at hspace
      cases hspace
      exact Nat.zero_le _
  · rcases h o with heq | ⟨hnone, hzero⟩
    · rw [heq]
      exact hl.opened o m acc hacc
    · rw [hzero]
      rfl

end Write

/-! ## 3. Every call keeps the law -/

theorem toNat_eq_zero_of_not_pos {x : UInt64} (h : ¬ 0 < x) : x.toNat = 0 := by
  have hle := UInt64.le_iff_toNat_le.mp (UInt64.not_lt.mp h)
  rw [UInt64.toNat_zero] at hle
  omega

theorem worth_of_active (h : 0 < acc.space → 0 < acc.hddPerCycleProfit) :
    worth acc = acc.space.toNat := by
  unfold worth
  split_ifs with hoff
  · rfl
  · exact (toNat_eq_zero_of_not_pos fun hpos => hoff (h hpos)).symm

theorem worth_of_zero (h : acc.hddPerCycleProfit = 0) : worth acc = 0 := by
  unfold worth
  rw [h]
  rfl

variable {fp : Doubles}

theorem rate_active (hfp : fp.PositiveRate) {space : UInt64} (hspace : acc.space = space)
    (hprofit : acc.hddPerCycleProfit = fp.cycleProfit space) (hwhole : space.toNat % 65536 = 0) :
    (0 < acc.space → 0 < acc.hddPerCycleProfit) ∧ Paid acc := by
  by_cases hzero : space = 0
  · subst hzero
    rw [hfp.zero] at hprofit
    rw [hspace]
    exact ⟨fun h => absurd h (by decide), .inl hprofit⟩
  · have hpos := hfp.pos space hzero hwhole
    rw [← hprofit] at hpos
    refine ⟨fun _ => hpos, .inr ⟨hpos, ?_⟩⟩
    rw [hspace]
    exact UInt64.pos_iff_ne_zero.mpr hzero

theorem OpensFor.isSome (h : OpensFor o t t') : (spaceOf t' o).isSome := by
  rw [h, Function.update_self]
  rfl

variable {s : Tables} {users : Table Name UserHdd} {accounts : Table (Name × UInt64) MAccount}

theorem OwnersLaw.delete (hl : OwnersLaw s.userhdd s.maccount) (h : Unbinds s m o users accounts) :
    OwnersLaw users accounts := by
  cases h with
  | nothing => exact hl
  | row _ _ hacc _ husers =>
    refine hl.erase (hl.opened _ _ _ hacc) ?_
    rw [worthAt_of_some hacc]
    refine husers.shifts_down (fun hc => ?_) (fun hc => ?_)
    · unfold worth
      rw [if_pos hc, Nat.zero_add]
    · unfold worth
      rw [if_neg hc]

theorem OwnersLaw.change_owner (hl : OwnersLaw s.userhdd s.maccount) {n : Name}
    (hacc : s.maccount.find (o, m) = some acc) (hfree : s.maccount.find (n, m) = none)
    (hsize : acc.space.toNat ≤ maxMinerSpace.toNat) {t1 t2 t3 : Table Name UserHdd}
    (hleave : MovesIf (0 < acc.hddPerCycleProfit) o acc.space false s.userhdd t1)
    (hopen : OpensFor n t1 t2) (henter : MovesIf (0 < acc.hddPerCycleProfit) n acc.space true t2 t3)
    : OwnersLaw t3 ((s.maccount.put (n, m) acc).erase (o, m)) := by
  have hne : n ≠ o := by
    rintro rfl
    rw [hacc] at hfree
    cases hfree
  -- the row leaves the old owner first and then enters the scope of the new one
  have hswap : (s.maccount.put (n, m) acc).erase (o, m) =
      (s.maccount.erase (o, m)).put (n, m) acc := by
    apply ext_find
    intro k
    simp only [find_erase, find_put]
    split
    · rename_i hk
      rw [if_neg]
      rintro rfl
      exact hne (congrArg Prod.fst hk)
    · rfl
  have hone : OwnersLaw t1 (s.maccount.erase (o, m)) := by
    refine hl.erase (hl.opened _ _ _ hacc) ?_
    rw [worthAt_of_some hacc]
    refine hleave.shifts_down (fun hc => ?_) (fun hc => ?_)
    · unfold worth
      rw [if_pos hc, Nat.zero_add]
    · unfold worth
      rw [if_neg hc]
  have hfree' : (s.maccount.erase (o, m)).find (n, m) = none := by
    rw [find_erase]
    split
    · rfl
    · exact hfree
  rw [hswap]
  refine (hone.opens hopen.opens).put hopen.isSome (hl.paid _ _ _ hacc) ?_
  rw [worthAt_of_none hfree']
  refine henter.shifts_up (fun hc => ?_) hsize (fun hc => ?_)
  · unfold worth
    rw [if_pos hc, Nat.zero_add]
  · unfold worth
    rw [if_neg hc]

variable {users' : Table Name UserHdd} {info : MinerInfo} {row : Miner} {acc' : MAccount}

theorem OwnersLaw.add_space (hfp : fp.PositiveRate) (hl : OwnersLaw users accounts)
    (hagree : Agrees info row acc) (hacc : accounts.find (info.owner, m) = some acc)
    (hwhole : d.toNat % 65536 = 0) (hleft : d ≤ info.spaceLeft)
    (hactive : 0 < acc.space → 0 < acc.hddPerCycleProfit) (hspace : acc'.space = acc.space + d)
    (hprofit : acc'.hddPerCycleProfit = fp.cycleProfit (acc.space + d))
    (husers : Moves info.owner d true users users') :
    OwnersLaw users' (accounts.put (info.owner, m) acc') := by
  have hsold := hagree.sold
  have hmax := hagree.atMost
  have hw := hagree.sold_whole
  have hle := le_iff_toNat_le.mp hleft
  have hbound : acc.space.toNat + d.toNat ≤ maxMinerSpace.toNat := by omega
  have hadd : (acc.space + d).toNat = acc.space.toNat + d.toNat := by
    rw [maxMinerSpace_toNat] at hbound
    exact toNat_add_of_lt (by omega)
  obtain ⟨hactive', hpaid⟩ := rate_active hfp hspace hprofit (by omega)
  refine hl.put (hl.opened _ _ _ hacc) hpaid ?_
  rw [worthAt_of_some hacc, worth_of_active hactive, worth_of_active hactive', hspace]
  exact husers.shifts_up hadd (by omega)

theorem OwnersLaw.sub_space (hfp : fp.PositiveRate) (hl : OwnersLaw users accounts)
    (hagree : Agrees info row acc) (hacc : accounts.find (info.owner, m) = some acc)
    (hwhole : d.toNat % 65536 = 0) (hhas : d ≤ acc.space) (hspace : acc'.space = acc.space - d)
    (hprofit : acc'.hddPerCycleProfit =
      if 0 < acc.space ∧ acc.hddPerCycleProfit = 0 then acc.hddPerCycleProfit
      else fp.cycleProfit (acc.space - d))
    (husers : MovesIf (¬ (0 < acc.space ∧ acc.hddPerCycleProfit = 0)) info.owner d false
      users users') : OwnersLaw users' (accounts.put (info.owner, m) acc') := by
  have hw := hagree.sold_whole
  have hle := le_iff_toNat_le.mp hhas
  have hsub := toNat_sub_of_le hle
  have hopen := hl.opened _ _ _ hacc
  by_cases hoff : 0 < acc.space ∧ acc.hddPerCycleProfit = 0
  · -- a deactivated miner stays out of the account
    rw [if_pos hoff, hoff.2] at hprofit
    rw [husers.2 (not_not_intro hoff)]
    refine hl.put hopen (.inl hprofit) ?_
    rw [worthAt_of_some hacc, worth_of_zero hoff.2, worth_of_zero hprofit]
    exact .refl _ _ _
  · rw [if_neg hoff] at hprofit
    have hactive : 0 < acc.space → 0 < acc.hddPerCycleProfit := by
      intro hpos
      rcases hl.paid _ _ _ hacc with hzero | ⟨hpay, _⟩
      · exact absurd ⟨hpos, hzero⟩ hoff
      · exact hpay
    obtain ⟨hactive', hpaid⟩ := rate_active hfp hspace hprofit (by omega)
    refine hl.put hopen hpaid ?_
    rw [worthAt_of_some hacc, worth_of_active hactive, worth_of_active hactive', hspace]
    exact (husers.1 hoff).shifts_down (by omega)

theorem OwnersLaw.step (hfp : fp.PositiveRate) {s' : Tables} {a : Action}
    (hl : OwnersLaw s.userhdd s.maccount) (hs : Synced s) (h : Effect fp s a s') :
    OwnersLaw s'.userhdd s'.maccount := by
  cases h with
  | quiet _ husers hreg =>
    rw [hreg.maccount]
    exact hl.opens husers.space
  | build p g =>
    rw [(build_registry s (some p) g.maxTableCount).maccount,
      build_users s (some p) g.maxTableCount]
    exact hl
  | poolDelete | poolRegister | poolResize => exact hl
  | register _ _ _ _ _ _ _ _ _ hacc _ _ husers =>
    refine (hl.opens husers.opens).put husers.isSome (.inl rfl) ?_
    rw [worthAt_of_none hacc]
    exact .refl _ _ _
  | delete _ _ _ _ hunbind => exact hl.delete hunbind
  | addSpace hmask _ hinfo _ hacc hactive hleft _ hspace hprofit _ husers =>
    obtain ⟨_, _, _, hagree⟩ := hs.of_account hinfo hacc
    exact hl.add_space hfp hagree hacc (and_low16_eq_zero.mp hmask) hleft hactive hspace hprofit
      husers
  | subSpace hmask _ hinfo _ hacc _ hhas _ hspace hprofit _ husers =>
    obtain ⟨_, _, _, hagree⟩ := hs.of_account hinfo hacc
    exact hl.sub_space hfp hagree hacc (and_low16_eq_zero.mp hmask) hhas hspace hprofit husers
  | deactivate _ _ _ hacc hactive _ _ hprofit _ husers =>
    refine hl.put (hl.opened _ _ _ hacc) (.inl hprofit) ?_
    rw [worthAt_of_some hacc, worth_of_zero hprofit, worth_of_active hactive]
    exact husers.shifts_down (Nat.zero_add _)
  | activate _ hinfo _ hacc hinactive _ hspace hprofit _ husers =>
    obtain ⟨_, _, _, hagree⟩ := hs.of_account hinfo hacc
    obtain ⟨hactive', hpaid⟩ := rate_active hfp hspace hprofit hagree.sold_whole
    refine hl.put (hl.opened _ _ _ hacc) hpaid ?_
    rw [worthAt_of_some hacc, worth_of_zero hinactive, worth_of_active hactive', hspace]
    have hsold := hagree.sold
    have hmax := hagree.atMost
    exact husers.shifts_up (Nat.zero_add _).symm (by omega)
  | movePool | enlarge | changeAdmin => exact hl
  | changeOwner _ hinfo _ _ hacc hfree _ _ _ hleave hopen henter =>
    obtain ⟨_, _, _, hagree⟩ := hs.of_account hinfo hacc
    have hsold := hagree.sold
    have hmax := hagree.atMost
    exact hl.change_owner hacc hfree (by omega) hleave hopen henter
  | setLevel | setRealSpace | sync => exact hl

/-! ## 4. Runs -/

theorem OwnersLaw.of_empty : OwnersLaw ∅ ∅ where
  aggregate := fun o space _ h => by
    rw [spaceOf, find_empty] at h
    cases h
  bounded := fun o space h => by
    rw [spaceOf, find_empty] at h
    cases h
  opened := fun o m acc h => by
    rw [find_empty] at h
    cases h
  paid := fun o m acc h => by
    rw [find_empty] at h
    cases h

theorem OwnersLaw.run (hfp : fp.PositiveRate) {s0 : Tables} (hr : Registry s0)
    (hl : OwnersLaw s0.userhdd s0.maccount) (hrun : Run.Steps (AnyStep fp) s0 s) :
    OwnersLaw s.userhdd s.maccount := by
  have hinv := Run.invariant (P := fun t => Registry t ∧ OwnersLaw t.userhdd t.maccount)
    (R := AnyStep fp) ?_ ⟨hr, hl⟩ hrun
  · exact hinv.2
  · rintro t t' ⟨hr, hl⟩ hstep
    obtain ⟨a, _, heffect⟩ := hstep.effect
    exact ⟨hr.effect heffect, hl.step hfp hr.synced heffect⟩

/-- The production space of an account is the sum over the earning miners of that
    owner, a miner that earns has space, and the space of an earning miner is in
    the account, so that taking it out does not stop at zero. -/
theorem owner_space_exact {fp : Doubles} (hfp : fp.PositiveRate) {s₀ s : Tables}
    (hfresh : Fresh s₀) (husers : s₀.userhdd = ∅) (hrun : Run.Steps (AnyStep fp) s₀ s) :
    (∀ o row, o ≠ ecologyfoundAcc → s.userhdd.find o = some row →
      row.hddSpaceProfit.toNat = s.maccount.total fun k acc =>
        if k.1 = o then (if 0 < acc.hddPerCycleProfit then acc.space.toNat else 0) else 0) ∧
    (∀ o m acc, s.maccount.find (o, m) = some acc → 0 < acc.hddPerCycleProfit → 0 < acc.space) ∧
    (∀ o m acc row, o ≠ ecologyfoundAcc → s.maccount.find (o, m) = some acc →
      0 < acc.hddPerCycleProfit → s.userhdd.find o = some row →
      acc.space ≤ row.hddSpaceProfit) := by
  have hstart : OwnersLaw s₀.userhdd s₀.maccount := by
    rw [husers, hfresh.maccount]
    exact .of_empty
  have hl := hstart.run hfp hfresh.registry hrun
  have haggr : ∀ o row, o ≠ ecologyfoundAcc → s.userhdd.find o = some row →
      row.hddSpaceProfit.toNat = earning s.maccount o := by
    intro o row ho hrow
    exact hl.aggregate o row.hddSpaceProfit ho (by simp [spaceOf, hrow])
  refine ⟨haggr, fun o m acc hacc hpos => ?_, fun o m acc row ho hacc hpos hrow => ?_⟩
  · rcases hl.paid o m acc hacc with hzero | ⟨_, hspace⟩
    · rw [hzero] at hpos
      exact absurd hpos (by decide)
    · exact hspace
  · have hle := worthAt_le s.maccount o m
    rw [worthAt_of_some hacc, worth, if_pos hpos, ← haggr o row ho hrow] at hle
    exact le_iff_toNat_le.mpr hle

theorem positiveRate_whole : Doubles.whole.PositiveRate where
  zero := by decide +kernel
  pos := by
    intro space hne hwhole
    have hpos : 0 < space.toNat := by
      rcases Nat.eq_zero_or_pos space.toNat with h | h
      · exact absurd (UInt64.toNat_inj.mp h) hne
      · exact h
    have hrate : 1 ≤ space.toNat / 65536 * 100000000 / 365 := by omega
    unfold Doubles.whole
    dsimp only
    rw [Int64.lt_iff_toInt_lt, Int64.toInt_ofNat_of_lt (by omega), Int64.toInt_zero]
    omega

theorem owner_space_exact_sample :
    Doubles.whole.PositiveRate ∧ ∃ s row, Run.Steps (AnyStep .whole) Tables.empty s ∧
      s.userhdd.find 4 = some row ∧ row.hddSpaceProfit = 65536 ∧
      row.hddSpaceProfit.toNat = earning s.maccount 4 := by
  obtain ⟨s, hs, hread⟩ := Checked.exists_of_map_eq_ok
    (x := runActions .whole (.permissive 5) .empty .empty sampleRegistration)
    (f := fun s => (s.userhdd.find 4).map UserHdd.hddSpaceProfit) (b := some 65536) rfl
  obtain ⟨row, hrow, hspace⟩ := Option.map_eq_some_iff.mp hread
  have hrun : Run.Steps (AnyStep .whole) Tables.empty s := runActions_steps (fun _ _ => trivial) hs
  have hexact := owner_space_exact positiveRate_whole ⟨rfl, rfl, rfl, rfl⟩ rfl hrun
  exact ⟨positiveRate_whole, s, row, hrun, hrow, hspace, hexact.1 4 row (by decide) hrow⟩

end YottaChain.HddPool
