/-
  **A deactivated miner stays without profit until it is activated or deleted.**

  The old tables do not say that a miner is deactivated: `addmprofit` and
  `submprofit` take a miner with space and no profit for one.  A deactivated
  miner without space looks like a new one, and giving it space makes it earn
  again.  `Refills` is that call.  Along every run without it the miner keeps the
  profit zero in `maccount` and the status 1 in `miner`.
-/
import YottaChain.OwnerSpace

namespace YottaChain.HddPool

open Table

/-! ## 1. A miner that earns nothing -/

def Unpaid (t : Table (Name × UInt64) MAccount) (m : UInt64) : Prop :=
  ∀ o acc, t.find (o, m) = some acc → acc.hddPerCycleProfit = 0

/-- The row of the miner carries the status that `mdeactive` gives it. -/
def Stopped (t : Table UInt64 Miner) (m : UInt64) : Prop :=
  ∃ row, t.find m = some row ∧ row.status = 1

variable {k m : UInt64}

theorem Unpaid.put {t : Table (Name × UInt64) MAccount} {acc : MAccount} (h : Unpaid t m) (o : Name)
    (hk : k = m → acc.hddPerCycleProfit = 0) : Unpaid (t.put (o, k) acc) m := by
  intro u a ha
  rw [find_put] at ha
  split_ifs at ha with heq
  · cases heq
    cases ha
    exact hk rfl
  · exact h u a ha

theorem Unpaid.erase {t : Table (Name × UInt64) MAccount} (h : Unpaid t m) (k : Name × UInt64) :
    Unpaid (t.erase k) m := by
  intro u a ha
  rw [find_erase] at ha
  split at ha
  · cases ha
  · exact h u a ha

variable {t : Table UInt64 Miner} {row : Miner}

theorem Stopped.put (h : Stopped t m) (hk : k = m → row.status = 1) : Stopped (t.put k row) m := by
  by_cases heq : k = m
  · subst heq
    exact ⟨row, find_put_self _ _ _, hk rfl⟩
  · obtain ⟨old, hold, hstatus⟩ := h
    exact ⟨old, (find_put_ne _ _ (Ne.symm heq)).trans hold, hstatus⟩

theorem Stopped.overwrite {row' : Miner} (h : Stopped t m) (hrow : t.find k = some row)
    (hsame : row'.status = row.status) : Stopped (t.put k row') m := by
  apply h.put
  rintro rfl
  obtain ⟨old, hold, hstatus⟩ := h
  rw [hrow] at hold
  cases hold
  exact hsame.trans hstatus

theorem Stopped.adjust (h : Stopped t m) (k : UInt64) {f : Miner → Miner}
    (hf : ∀ row : Miner, row.status = 1 → (f row).status = 1) : Stopped (t.adjust k f) m := by
  obtain ⟨old, hold, hstatus⟩ := h
  by_cases heq : k = m
  · subst heq
    rw [adjust_of_some _ hold]
    exact ⟨f old, find_put_self _ _ _, hf old hstatus⟩
  · refine ⟨old, ?_, hstatus⟩
    rw [find_adjust, if_neg (Ne.symm heq)]
    exact hold

theorem Stopped.erase (h : Stopped t m) (hk : k ≠ m) : Stopped (t.erase k) m := by
  obtain ⟨old, hold, hstatus⟩ := h
  exact ⟨old, (find_erase_ne _ (Ne.symm hk)).trans hold, hstatus⟩

structure Off (s : Tables) (m : UInt64) : Prop where
  unpaid : Unpaid s.maccount m
  stopped : Stopped s.miner m

/-! ## 2. What keeps a miner off -/

def Action.Ends (m : UInt64) : Action → Prop
  | .mactive k _ => k = m
  | .delminer k _ _ => k = m
  | _ => False

def Refills (s : Tables) (m : UInt64) : Action → Prop
  | .addmprofit k space _ =>
      k = m ∧ space ≠ 0 ∧ ∃ o acc, s.maccount.find (o, m) = some acc ∧ acc.space = 0
  | _ => False

variable {s : Tables} {fp : Doubles} {s' : Tables}

theorem Off.of_registry (ho : Off s m) (h : SameRegistry s s') : Off s' m :=
  ⟨h.maccount ▸ ho.unpaid, h.miner ▸ ho.stopped⟩

section Unpaid

variable {o : Name} {acc : MAccount} {space : UInt64} (hun : Unpaid s.maccount m)
  (hacc : s.maccount.find (o, m) = some acc) (hzero : fp.cycleProfit 0 = 0)

include hun hacc hzero

/-- A miner without profit passes the check of `addmprofit` only if it has no space, and then it
    is given none. -/
theorem unpaid_added {caller : Name} (hactive : 0 < acc.space → 0 < acc.hddPerCycleProfit)
    (hrefill : ¬ Refills s m (.addmprofit m space caller)) :
    fp.cycleProfit (acc.space + space) = 0 := by
  have hnone : acc.space = 0 := by
    by_contra hne
    have hpos := hactive (UInt64.pos_iff_ne_zero.mpr hne)
    rw [hun _ _ hacc] at hpos
    exact absurd hpos (by decide)
  have hadd : space = 0 := by
    by_contra hne
    exact hrefill ⟨rfl, hne, _, acc, hacc, hnone⟩
  rw [hnone, hadd]
  exact hzero

/-- `submprofit` leaves the profit of a deactivated miner as it is; of one without space nothing
    can be taken. -/
theorem unpaid_taken (hhas : space ≤ acc.space) :
    (if 0 < acc.space ∧ acc.hddPerCycleProfit = 0 then acc.hddPerCycleProfit
      else fp.cycleProfit (acc.space - space)) = 0 := by
  split_ifs with hoff
  · exact hun _ _ hacc
  · have hnone : acc.space = 0 := by
      by_contra hne
      exact hoff ⟨UInt64.pos_iff_ne_zero.mpr hne, hun _ _ hacc⟩
    rw [hnone] at hhas ⊢
    rw [UInt64.le_zero_iff.mp hhas]
    exact hzero

end Unpaid

theorem Off.step (hzero : fp.cycleProfit 0 = 0) {a : Action} (ho : Off s m) (h : Effect fp s a s')
    (hends : ¬ a.Ends m) (hrefill : ¬ Refills s m a) : Off s' m := by
  obtain ⟨hun, hst⟩ := ho
  -- a row that is new is not the row of `m`
  have hnew : ∀ {k}, s.miner.find k = none → k ≠ m := by
    rintro k hnone rfl
    obtain ⟨row, hrow, _⟩ := hst
    cases hnone.symm.trans hrow
  cases h with
  | quiet _ _ hreg => exact .of_registry ⟨hun, hst⟩ hreg
  | build p g => exact .of_registry ⟨hun, hst⟩ (build_registry s (some p) g.maxTableCount)
  | poolDelete | poolRegister | poolResize => exact ⟨hun, hst⟩
  | register _ _ _ _ _ _ _ _ _ _ _ _ _ hminer =>
    constructor
    · exact hun.put _ fun heq => absurd heq (hnew hminer)
    · exact hst.put fun heq => absurd heq (hnew hminer)
  | delete _ _ _ _ hunbind =>
    constructor
    · cases hunbind with
      | nothing => exact hun
      | row => exact hun.erase _
    · exact hst.erase hends
  | addSpace _ _ _ _ hacc hactive _ _ _ hprofit =>
    constructor
    · refine hun.put _ ?_
      rintro rfl
      exact hprofit.trans (unpaid_added hun hacc hzero hactive hrefill)
    · refine hst.adjust _ ?_
      intro row hrow
      simp [hrow]
  | subSpace _ _ _ _ hacc _ hhas _ _ hprofit =>
    constructor
    · refine hun.put _ ?_
      rintro rfl
      exact hprofit.trans (unpaid_taken hun hacc hzero hhas)
    · exact hst.adjust _ fun _ hrow => hrow
  | deactivate _ _ _ _ _ _ _ hprofit =>
    constructor
    · exact hun.put _ fun _ => hprofit
    · exact hst.adjust _ fun _ _ => rfl
  | activate =>
    constructor
    · exact hun.put _ fun heq => absurd heq hends
    · obtain ⟨row, hrow, hstatus⟩ := hst
      refine ⟨row, ?_, hstatus⟩
      rw [find_adjust, if_neg (Ne.symm hends)]
      exact hrow
  | movePool | changeAdmin => exact ⟨hun, hst.adjust _ fun _ hrow => hrow⟩
  | changeOwner _ _ _ _ hacc =>
    constructor
    · refine (hun.put _ ?_).erase _
      rintro rfl
      exact hun _ _ hacc
    · exact hst.adjust _ fun _ hrow => hrow
  | enlarge _ hrow | setLevel _ hrow | setRealSpace _ hrow =>
    exact ⟨hun, hst.overwrite hrow rfl⟩
  | sync hminer => exact ⟨hun, hst.put fun heq => absurd heq (hnew hminer)⟩

/-! ## 3. Runs -/

/-- A call that neither ends the period of `m` nor refills it. -/
def IdleStep (fp : Doubles) (m : UInt64) (s s' : Tables) : Prop :=
  ∃ a, Call fp a s s' ∧ ¬ a.Ends m ∧ ¬ Refills s m a

theorem Off.of_mdeactive {caller : Name} (hs : Synced s) (h : Call fp (.mdeactive m caller) s s') :
    Off s' m := by
  obtain ⟨c, v, sent, hcall⟩ := h
  have heffect := apply_effect hcall
  cases heffect with
  | quiet ha => cases ha
  | deactivate _ hinfo _ hacc _ _ _ hprofit =>
    obtain ⟨row, hrow, honly, _⟩ := hs.of_account hinfo hacc
    constructor
    · -- the miner has no row in any other scope
      intro o a ha
      rw [find_put] at ha
      split_ifs at ha with hne
      · cases ha
        exact hprofit
      · have hother := congrFun honly o
        rw [only, Function.update_of_ne (fun heq => hne (by rw [heq])), accountsOf, ha] at hother
        cases hother
    · dsimp only
      rw [adjust_of_some _ hrow]
      exact ⟨_, find_put_self _ _ _, rfl⟩

/-- From a deactivation on, along every run that neither activates nor deletes
    the miner and never adds space to it while it has none, the miner is known, its
    rows in `maccount` have no profit and its row in `miner` is not active. -/
theorem deactivated_stays_unpaid {fp : Doubles} (hzero : fp.cycleProfit 0 = 0) {m : UInt64}
    {caller : Name} {s₀ s₁ s₂ s : Tables} (hfresh : Fresh s₀)
    (hbefore : Run.Steps (AnyStep fp) s₀ s₁) (hcall : Call fp (.mdeactive m caller) s₁ s₂)
    (hafter : Run.Steps (IdleStep fp m) s₂ s) :
    (∃ info acc, s.minerinfo.find m = some info ∧ s.maccount.find (info.owner, m) = some acc) ∧
    (∀ o acc, s.maccount.find (o, m) = some acc → acc.hddPerCycleProfit = 0) ∧
    ∃ row, s.miner.find m = some row ∧ row.status ≠ 0 := by
  have hreg := hfresh.registry.run hbefore
  have hstart : Registry s₂ ∧ Off s₂ m := by
    constructor
    · exact hreg.run (.single ⟨_, trivial, hcall⟩)
    · exact .of_mdeactive hreg.synced hcall
  have hinv := Run.invariant (P := fun t => Registry t ∧ Off t m) (R := IdleStep fp m) ?_ hstart
    hafter
  · obtain ⟨hr, hoff⟩ := hinv
    obtain ⟨row, hrow, hstatus⟩ := hoff.stopped
    obtain ⟨info, acc, hinfo, honly, _⟩ := hr.synced.of_row hrow
    refine ⟨⟨info, acc, hinfo, ?_⟩, hoff.unpaid, row, hrow, ?_⟩
    · rw [← only_self info.owner acc, ← honly]
      rfl
    · rw [hstatus]
      decide
  · rintro t t' ⟨hr, hoff⟩ ⟨a, ⟨c, v, sent, happly⟩, hends, hrefill⟩
    have heffect := apply_effect happly
    exact ⟨hr.effect heffect, hoff.step hzero heffect hends hrefill⟩

def deactivationRun (setup : List Action) (last : Action) :
    Checked (Tables × Tables × Tables) := do
  let s₁ ← runActions .whole (.permissive 5) .empty .empty setup
  let (s₂, _) ← apply .whole (.permissive 5) .empty s₁ (.mdeactive 7 5)
  let (s, _) ← apply .whole (.permissive 5) .empty s₂ last
  pure (s₁, s₂, s)

theorem deactivationRun_ok {setup : List Action} {last : Action} {s₁ s₂ : Tables}
    (h : deactivationRun setup last = .ok (s₁, s₂, s)) :
    Run.Steps (AnyStep .whole) Tables.empty s₁ ∧ Call .whole (.mdeactive 7 5) s₁ s₂ ∧
      Call .whole last s₂ s := by
  simp only [deactivationRun, Checked.ok_iff] at h
  obtain ⟨t1, hsetup, ⟨t2, sent2⟩, hoff, ⟨t, sent⟩, hlast, rfl, rfl, rfl⟩ := h
  exact ⟨runActions_steps (fun _ _ => trivial) hsetup, ⟨_, _, _, hoff⟩, ⟨_, _, _, hlast⟩⟩

/-- A miner that earns is deactivated and then loses its space. -/
theorem deactivated_stays_unpaid_sample :
    Doubles.whole.cycleProfit 0 = 0 ∧ Fresh Tables.empty ∧ ∃ s₁ s₂ s,
      Run.Steps (AnyStep .whole) Tables.empty s₁ ∧ Call .whole (.mdeactive 7 5) s₁ s₂ ∧
      Run.Steps (IdleStep .whole 7) s₂ s ∧ (s.maccount.find (4, 7)).isSome = true ∧
      ∀ o acc, s.maccount.find (o, 7) = some acc → acc.hddPerCycleProfit = 0 := by
  have hfresh : Fresh Tables.empty := ⟨rfl, rfl, rfl, rfl⟩
  obtain ⟨⟨s₁, s₂, s⟩, hrun, hrow⟩ := Checked.exists_of_map_eq_ok
    (x := deactivationRun sampleRegistration (.submprofit 7 65536 5))
    (f := fun r => (r.2.2.maccount.find (4, 7)).isSome) (b := true) rfl
  obtain ⟨hbefore, hcall, hlast⟩ := deactivationRun_ok hrun
  have hafter : Run.Steps (IdleStep .whole 7) s₂ s := .single ⟨_, hlast, id, id⟩
  refine ⟨positiveRate_whole.zero, hfresh, s₁, s₂, s, hbefore, hcall, hafter, hrow, ?_⟩
  exact (deactivated_stays_unpaid positiveRate_whole.zero hfresh hbefore hcall hafter).2.1

/-- A new miner, deactivated before it has any space, earns as soon as it is given
    some. -/
theorem deactivated_earns_again :
    ∃ s₁ s₂ s acc, Run.Steps (AnyStep .whole) Tables.empty s₁ ∧
      Call .whole (.mdeactive 7 5) s₁ s₂ ∧
      Run.Steps (Step .whole fun a => ¬ a.Ends 7) s₂ s ∧
      s.maccount.find (4, 7) = some acc ∧ 0 < acc.hddPerCycleProfit := by
  obtain ⟨⟨s₁, s₂, s⟩, hrun, hread⟩ := Checked.exists_of_map_eq_ok
    (x := deactivationRun (sampleRegistration.take 2) (.addmprofit 7 131072 5))
    (f := fun r => (r.2.2.maccount.find (4, 7)).map MAccount.hddPerCycleProfit)
    (b := some 547945) (by decide +kernel)
  obtain ⟨acc, hacc, hprofit⟩ := Option.map_eq_some_iff.mp hread
  obtain ⟨hbefore, hcall, hlast⟩ := deactivationRun_ok hrun
  refine ⟨s₁, s₂, s, acc, hbefore, hcall, .single ⟨_, id, hlast⟩, hacc, ?_⟩
  rw [hprofit]
  decide

end YottaChain.HddPool
