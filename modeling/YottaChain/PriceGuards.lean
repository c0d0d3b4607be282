/-
  **The price guards over whole runs.**

  A guarded value is compared with two references.  A reference refuses a change
  above its percentage while it is younger than its time span, and it is replaced
  once it is older.  At exactly the time span it does neither: any value passes and
  the reference stays.  The comparison itself is exact as long as a hundred times
  the price fits into 64 bits.

  Along every run whose guarded calls avoid both, the stored value lies within
  the percentages of both stored references.
-/
import YottaChain.HddPoolRun

namespace YottaChain.HddPool

open Checked FixedWidth

/-! ## 1. One reference -/

def Reference.InBand (r : Reference) (value : UInt64) : Prop :=
  ((value.toNat : Int) - r.value.toNat).natAbs * 100 / r.value.toNat ≤ r.delta.toNat

def Scalable (value : UInt64) : Prop := value.toNat * 100 < 2 ^ 64

def Reference.OffEdge (r : Reference) (ct : UInt64) : Prop := (ct - r.time) / 1000000 ≠ r.timespan

structure Reference.Fit (r : Reference) : Prop where
  pos : r.value ≠ 0
  scalable : Scalable r.value

theorem Reference.inBand_self (r : Reference) : r.InBand r.value := by
  unfold Reference.InBand
  rw [Int.sub_self]
  simp

theorem toNat_abs_sub {a b : UInt64} (ha : a.toNat < 2 ^ 63) (hb : b.toNat < 2 ^ 63) :
    (if a.toInt64 - b.toInt64 < 0 then -(a.toInt64 - b.toInt64)
      else a.toInt64 - b.toInt64).toUInt64.toNat = ((a.toNat : Int) - b.toNat).natAbs := by
  have hdiff : (a.toInt64 - b.toInt64).toInt = (a.toNat : Int) - b.toNat := by
    rw [toInt_sub_of_bounds] <;> rw [toInt_toInt64_of_lt ha, toInt_toInt64_of_lt hb] <;> omega
  have hneg : (-(a.toInt64 - b.toInt64)).toInt = -((a.toNat : Int) - b.toNat) := by
    rw [Int64.toInt_neg, hdiff]
    exact bmod_eq_of_bounds (by omega) (by omega)
  apply Int.ofNat_inj.mp
  split_ifs with hlt
  · rw [Int64.lt_iff_toInt_lt, hdiff, Int64.toInt_zero] at hlt
    rw [toNat_toUInt64, hneg]
    omega
  · rw [Int64.lt_iff_toInt_lt, hdiff, Int64.toInt_zero] at hlt
    rw [toNat_toUInt64, hdiff]
    omega

variable {r : Reference} {value : UInt64}

theorem Reference.change_exact (hr : r.Fit) {d : UInt64} (hv : Scalable value)
    (h : r.change value = .ok d) :
    d.toNat = ((value.toNat : Int) - r.value.toNat).natAbs * 100 / r.value.toNat := by
  have hb := hr.scalable
  unfold Scalable at hv hb
  simp only [Reference.change, ok_iff] at h
  obtain ⟨_, rfl⟩ := h
  rw [UInt64.toNat_div, UInt64.toNat_mul, toNat_abs_sub (by omega) (by omega)]
  have hmul : ((value.toNat : Int) - r.value.toNat).natAbs * (100 : UInt64).toNat < 2 ^ 64 := by
    show _ * 100 < _
    omega
  rw [Nat.mod_eq_of_lt hmul]
  rfl

variable {ct : UInt64}

/-- A value the reference does not refuse is within the band of what the reference becomes. -/
theorem Reference.renew_inBand (hr : r.Fit) (hv : Scalable value) (hedge : r.OffEdge ct)
    (h : r.refuses ct value = .ok false) : (r.renew ct value).InBand value := by
  simp only [Reference.refuses, ok_iff, decide_eq_false_iff_not] at h
  obtain ⟨d, hd, hpass⟩ := h
  unfold Reference.renew
  split_ifs with hold
  · exact Reference.inBand_self { r with value := value, time := ct }
  · -- not older and not at the edge, so the reference is young and has compared
    have hyoung : (ct - r.time) / 1000000 < r.timespan := by
      rcases UInt64.lt_or_lt_of_ne hedge with hlt | hgt
      · exact hlt
      · exact absurd hgt hold
    have hle : d ≤ r.delta := by
      apply UInt64.not_lt.mp
      intro hgt
      exact hpass ⟨hyoung, hgt⟩
    unfold Reference.InBand
    rw [← Reference.change_exact hr hv hd]
    exact UInt64.le_iff_toNat_le.mp hle

theorem Reference.renew_fit (hr : r.Fit) (hpos : value ≠ 0) (hv : Scalable value) :
    (r.renew ct value).Fit := by
  unfold Reference.renew
  split
  · exact ⟨hpos, hv⟩
  · exact hr

/-! ## 2. A guarded value -/

structure Guards (r1 r2 : Reference) (value : UInt64) : Prop where
  fit1 : r1.Fit
  fit2 : r2.Fit
  band1 : r1.InBand value
  band2 : r2.InBand value

variable {r1 r2 : Reference} {old : UInt64} {out : UInt64 × Reference × Reference}

/-- An unguarded change makes the value its own reference. -/
theorem guarded_unguarded (hpos : value ≠ 0) (hv : Scalable value)
    (h : guarded false r1 r2 ct old value = .ok out) : Guards out.2.1 out.2.2 out.1 := by
  cases h
  refine ⟨⟨hpos, hv⟩, ⟨hpos, hv⟩, ?_, ?_⟩
  · exact Reference.inBand_self { r1 with value := value, time := ct }
  · exact Reference.inBand_self { r2 with value := value, time := ct }

variable {isGuarded : Bool}

/-- A guarded change away from the edges keeps the law. -/
theorem Guards.step (hg : Guards r1 r2 old) (hpos : value ≠ 0) (hv : Scalable value)
    (hedge : isGuarded = true → r1.OffEdge ct ∧ r2.OffEdge ct)
    (h : guarded isGuarded r1 r2 ct old value = .ok out) : Guards out.2.1 out.2.2 out.1 := by
  cases isGuarded with
  | false => exact guarded_unguarded hpos hv h
  | true =>
    obtain ⟨hedge1, hedge2⟩ := hedge rfl
    simp only [guarded, guardAccepts, if_true, ok_iff] at h
    obtain ⟨accepted, ⟨refused1, h1, h2⟩, rfl⟩ := h
    cases refused1 with
    | true =>
      cases h2
      exact hg
    | false =>
      simp only [Bool.false_eq_true, if_false, ok_iff] at h2
      obtain ⟨refused2, h2, rfl⟩ := h2
      cases refused2 with
      | true => exact hg
      | false =>
        constructor
        · exact Reference.renew_fit hg.fit1 hpos hv
        · exact Reference.renew_fit hg.fit2 hpos hv
        · exact Reference.renew_inBand hg.fit1 hv hedge1 h1
        · exact Reference.renew_inBand hg.fit2 hv hedge2 h2

/-! ## 3. Runs of the two guarded parameters -/

/-- The guard an action works with at the time `ct`. -/
def guardAt (s : Tables) (ct : UInt64) : HddPriceGuard := s.paramguard.getD (.initial ct)

def PriceLaw (s : Tables) : Prop :=
  ∃ g p, s.gparams = some g ∧ s.paramguard = some p ∧
    p.ytaRef1.InBand g.ytaPrice ∧ p.ytaRef2.InBand g.ytaPrice

def RatioLaw (s : Tables) : Prop :=
  ∃ g p, s.gparams = some g ∧ s.paramguard = some p ∧
    p.dupRef1.InBand g.dupRemoveRatio ∧ p.dupRef2.InBand g.dupRemoveRatio

/-- A successful `setytaprice` with a price that can be scaled and, if it is guarded,
    at a time that is on no edge. -/
def PriceStep (fp : Doubles) (s s' : Tables) : Prop :=
  ∃ c price accType sent, setytaprice fp c s price accType = .ok (s', sent) ∧ Scalable price ∧
    (accType = 100 → (guardAt s c.currentTime).ytaRef1.OffEdge c.currentTime ∧
      (guardAt s c.currentTime).ytaRef2.OffEdge c.currentTime)

/-- A successful `setdrratio`, if guarded at a time that is on no edge. -/
def RatioStep (s s' : Tables) : Prop :=
  ∃ c ratio accType sent, setdrratio c s ratio accType = .ok (s', sent) ∧
    (accType = 1 → (guardAt s c.currentTime).dupRef1.OffEdge c.currentTime ∧
      (guardAt s c.currentTime).dupRef2.OffEdge c.currentTime)

def PriceGuarded (s : Tables) : Prop :=
  ∃ g p, s.gparams = some g ∧ s.paramguard = some p ∧ Guards p.ytaRef1 p.ytaRef2 g.ytaPrice

def RatioGuarded (s : Tables) : Prop :=
  ∃ g p, s.gparams = some g ∧ s.paramguard = some p ∧ Guards p.dupRef1 p.dupRef2 g.dupRemoveRatio

theorem guarded_spans (h : guarded isGuarded r1 r2 ct old value = .ok out) :
    (out.2.1.delta = r1.delta ∧ out.2.1.timespan = r1.timespan) ∧
      out.2.2.delta = r2.delta ∧ out.2.2.timespan = r2.timespan := by
  have hrenew : ∀ r : Reference, (r.renew ct value).delta = r.delta ∧
      (r.renew ct value).timespan = r.timespan := by
    intro r
    unfold Reference.renew
    split <;> exact ⟨rfl, rfl⟩
  cases isGuarded with
  | false =>
    cases h
    exact ⟨⟨rfl, rfl⟩, rfl, rfl⟩
  | true =>
    simp only [guarded, if_true, ok_iff] at h
    obtain ⟨accepted, _, rfl⟩ := h
    cases accepted with
    | true => exact ⟨hrenew r1, hrenew r2⟩
    | false => exact ⟨⟨rfl, rfl⟩, rfl, rfl⟩

theorem Reference.eta {r' : Reference} (hd : r.delta = r'.delta) (ht : r.timespan = r'.timespan) :
    (⟨r.value, r.time, r'.delta, r'.timespan⟩ : Reference) = r := by
  rw [← hd, ← ht]

variable {fp : Doubles} {c : Ctx} {s s' : Tables} {price : UInt64} {accType : UInt8}
  {sent : List Sent}

theorem setytaprice_ok (h : setytaprice fp c s price accType = .ok (s', sent)) :
    price ≠ 0 ∧ ∃ out, guarded (accType == 100) (guardAt s c.currentTime).ytaRef1
        (guardAt s c.currentTime).ytaRef2 c.currentTime (s.gparams.getD {}).ytaPrice price =
          .ok out ∧
      ∃ g p, s'.gparams = some g ∧ s'.paramguard = some p ∧ g.ytaPrice = out.1 ∧
        p.ytaRef1 = out.2.1 ∧ p.ytaRef2 = out.2.2 := by
  simp only [setytaprice, calcDepositRate, ok_iff] at h
  obtain ⟨_, _, hpos, ⟨ytaPrice, r1, r2⟩, hout, _, rfl, rfl⟩ := h
  obtain ⟨⟨hd1, ht1⟩, hd2, ht2⟩ := guarded_spans hout
  refine ⟨UInt64.pos_iff_ne_zero.mp hpos, _, hout, _, _, rfl, rfl, rfl, ?_, ?_⟩
  · exact Reference.eta hd1 ht1
  · exact Reference.eta hd2 ht2

variable {ratio : UInt64}

theorem setdrratio_ok (h : setdrratio c s ratio accType = .ok (s', sent)) :
    ratio ≠ 0 ∧ Scalable ratio ∧ ∃ out, guarded (accType == 1)
        (guardAt s c.currentTime).dupRef1 (guardAt s c.currentTime).dupRef2 c.currentTime
        (s.gparams.getD {}).dupRemoveRatio ratio = .ok out ∧
      ∃ g p, s'.gparams = some g ∧ s'.paramguard = some p ∧ g.dupRemoveRatio = out.1 ∧
        p.dupRef1 = out.2.1 ∧ p.dupRef2 = out.2.2 := by
  simp only [setdrratio, ok_iff] at h
  obtain ⟨_, _, ⟨hpos, hle⟩, ⟨dupRemoveRatio, r1, r2⟩, hout, rfl, rfl⟩ := h
  obtain ⟨⟨hd1, ht1⟩, hd2, ht2⟩ := guarded_spans hout
  have hscalable : Scalable ratio := by
    have hle' : ratio.toNat ≤ 10000 := UInt64.le_iff_toNat_le.mp hle
    unfold Scalable
    omega
  refine ⟨UInt64.pos_iff_ne_zero.mp hpos, hscalable, _, hout, _, _, rfl, rfl, rfl, ?_, ?_⟩
  · exact Reference.eta hd1 ht1
  · exact Reference.eta hd2 ht2

theorem PriceGuarded.start (hacc : accType ≠ 100) (hprice : Scalable price)
    (h : setytaprice fp c s price accType = .ok (s', sent)) : PriceGuarded s' := by
  obtain ⟨hpos, out, hout, g, p, hg, hp, hvalue, href1, href2⟩ := setytaprice_ok h
  rw [beq_false_of_ne hacc] at hout
  refine ⟨g, p, hg, hp, ?_⟩
  rw [hvalue, href1, href2]
  exact guarded_unguarded hpos hprice hout

theorem PriceGuarded.step (hs : PriceGuarded s) (h : PriceStep fp s s') : PriceGuarded s' := by
  obtain ⟨g0, p0, hg0, hp0, hguards⟩ := hs
  obtain ⟨c, price, accType, sent, hcall, hprice, hedge⟩ := h
  obtain ⟨hpos, out, hout, g, p, hg, hp, hvalue, href1, href2⟩ := setytaprice_ok hcall
  simp only [guardAt, hg0, hp0, Option.getD_some] at hout hedge
  refine ⟨g, p, hg, hp, ?_⟩
  rw [hvalue, href1, href2]
  refine hguards.step hpos hprice ?_ hout
  intro hacc
  exact hedge (eq_of_beq hacc)

theorem RatioGuarded.start (hacc : accType ≠ 1) (h : setdrratio c s ratio accType = .ok (s', sent))
    : RatioGuarded s' := by
  obtain ⟨hpos, hscalable, out, hout, g, p, hg, hp, hvalue, href1, href2⟩ := setdrratio_ok h
  rw [beq_false_of_ne hacc] at hout
  refine ⟨g, p, hg, hp, ?_⟩
  rw [hvalue, href1, href2]
  exact guarded_unguarded hpos hscalable hout

theorem RatioGuarded.step (hs : RatioGuarded s) (h : RatioStep s s') : RatioGuarded s' := by
  obtain ⟨g0, p0, hg0, hp0, hguards⟩ := hs
  obtain ⟨c, ratio, accType, sent, hcall, hedge⟩ := h
  obtain ⟨hpos, hscalable, out, hout, g, p, hg, hp, hvalue, href1, href2⟩ := setdrratio_ok hcall
  simp only [guardAt, hg0, hp0, Option.getD_some] at hout hedge
  refine ⟨g, p, hg, hp, ?_⟩
  rw [hvalue, href1, href2]
  refine hguards.step hpos hscalable ?_ hout
  intro hacc
  exact hedge (eq_of_beq hacc)

/-- After an unguarded call, along every run of further calls that meet the
    conditions, the price and the ratio are within the bands of their stored
    references. -/
theorem guards_hold_over_runs (fp : Doubles) :
    (∀ c s₀ s₁ s price accType sent, accType ≠ 100 → Scalable price →
      setytaprice fp c s₀ price accType = .ok (s₁, sent) → Run.Steps (PriceStep fp) s₁ s →
      PriceLaw s) ∧
    ∀ c s₀ s₁ s ratio accType sent, accType ≠ 1 →
      setdrratio c s₀ ratio accType = .ok (s₁, sent) → Run.Steps RatioStep s₁ s →
      RatioLaw s := by
  constructor
  · intro c s₀ s₁ s price accType sent hacc hprice hcall hrun
    have hstart := PriceGuarded.start hacc hprice hcall
    obtain ⟨g, p, hg, hp, hguards⟩ :=
      Run.invariant (P := PriceGuarded) (fun _ _ ht hstep => ht.step hstep) hstart hrun
    exact ⟨g, p, hg, hp, hguards.band1, hguards.band2⟩
  · intro c s₀ s₁ s ratio accType sent hacc hcall hrun
    have hstart := RatioGuarded.start hacc hcall
    obtain ⟨g, p, hg, hp, hguards⟩ :=
      Run.invariant (P := RatioGuarded) (fun _ _ ht hstep => ht.step hstep) hstart hrun
    exact ⟨g, p, hg, hp, hguards.band1, hguards.band2⟩

/-- An unguarded price of 8000 at the time 0 and a guarded one at `ct`. -/
def priceRun (ct price : UInt64) : Checked (Outcome × Outcome) := do
  let r₁ ← setytaprice .whole (.permissive 0) .empty 8000 0
  let r ← setytaprice .whole (.permissive ct) r₁.1 price 100
  pure (r₁, r)

/-- An unguarded ratio of 5000 at the time 0 and a guarded one at `ct`. -/
def ratioRun (ct ratio : UInt64) : Checked (Outcome × Outcome) := do
  let r₁ ← setdrratio (.permissive 0) .empty 5000 0
  let r ← setdrratio (.permissive ct) r₁.1 ratio 1
  pure (r₁, r)

theorem priceRun_ok {r : Outcome × Outcome} (h : priceRun ct price = .ok r) :
    setytaprice .whole (.permissive 0) .empty 8000 0 = .ok r.1 ∧
      setytaprice .whole (.permissive ct) r.1.1 price 100 = .ok r.2 := by
  simp only [priceRun, ok_iff] at h
  obtain ⟨r₁, hfirst, r2, hsecond, rfl⟩ := h
  exact ⟨hfirst, hsecond⟩

theorem ratioRun_ok {r : Outcome × Outcome} (h : ratioRun ct ratio = .ok r) :
    setdrratio (.permissive 0) .empty 5000 0 = .ok r.1 ∧
      setdrratio (.permissive ct) r.1.1 ratio 1 = .ok r.2 := by
  simp only [ratioRun, ok_iff] at h
  obtain ⟨r₁, hfirst, r2, hsecond, rfl⟩ := h
  exact ⟨hfirst, hsecond⟩

def readPrice (r : Outcome × Outcome) : Option HddPriceGuard × Option UInt64 :=
  (r.1.1.paramguard, r.2.1.gparams.map HddGlobalParam.ytaPrice)

def readRatio (r : Outcome × Outcome) : Option HddPriceGuard × Option UInt64 :=
  (r.1.1.paramguard, r.2.1.gparams.map HddGlobalParam.dupRemoveRatio)

/-- A price ten percent higher and a ratio four percent higher, a minute later. -/
theorem guards_hold_over_runs_sample :
    (∃ r, priceRun 60000000 8800 = .ok r ∧ PriceStep .whole r.1.1 r.2.1 ∧
      r.2.1.gparams.map HddGlobalParam.ytaPrice = some 8800 ∧ PriceLaw r.2.1) ∧
    ∃ r, ratioRun 60000000 5200 = .ok r ∧ RatioStep r.1.1 r.2.1 ∧
      r.2.1.gparams.map HddGlobalParam.dupRemoveRatio = some 5200 ∧ RatioLaw r.2.1 := by
  constructor
  · obtain ⟨r, hok, hread⟩ := exists_of_map_eq_ok (x := priceRun 60000000 8800) (f := readPrice)
      (b := (some { HddPriceGuard.initial 0 with }, some 8800)) (by decide +kernel)
    obtain ⟨hguard, hprice⟩ := Prod.mk.inj hread
    obtain ⟨hfirst, hsecond⟩ := priceRun_ok hok
    have hstep : PriceStep .whole r.1.1 r.2.1 := by
      refine ⟨_, _, _, r.2.2, hsecond, by unfold Scalable; decide, fun _ => ?_⟩
      rw [guardAt, hguard]
      constructor <;> · unfold Reference.OffEdge; decide
    refine ⟨r, hok, hstep, hprice, ?_⟩
    exact (guards_hold_over_runs .whole).1 _ _ _ _ _ _ r.1.2 (by decide)
      (by unfold Scalable; decide) hfirst (.single hstep)
  · obtain ⟨r, hok, hread⟩ := exists_of_map_eq_ok (x := ratioRun 60000000 5200) (f := readRatio)
      (b := (some { HddPriceGuard.initial 0 with
        lastDupRemoveGuardRatio1 := 5000, lastDupRemoveGuardRatio2 := 5000 }, some 5200))
      (by decide +kernel)
    obtain ⟨hguard, hratio⟩ := Prod.mk.inj hread
    obtain ⟨hfirst, hsecond⟩ := ratioRun_ok hok
    have hstep : RatioStep r.1.1 r.2.1 := by
      refine ⟨_, _, _, r.2.2, hsecond, fun _ => ?_⟩
      rw [guardAt, hguard]
      constructor <;> · unfold Reference.OffEdge; decide
    refine ⟨r, hok, hstep, hratio, ?_⟩
    exact (guards_hold_over_runs .whole).2 _ _ _ _ _ _ r.1.2 (by decide) hfirst (.single hstep)

/-- Exactly eight minutes later a price 37 percent higher passes, and so does, a
    second later, a price whose difference times a hundred wraps around.  Neither
    becomes the guard price. -/
theorem guards_let_prices_through :
    (∃ r g p, priceRun 480000000 11000 = .ok r ∧ r.2.1.gparams = some g ∧
      r.2.1.paramguard = some p ∧ g.ytaPrice = 11000 ∧ p.ytaRef1.value = 8000 ∧
      ¬ p.ytaRef1.InBand g.ytaPrice) ∧
    ∃ r g p, priceRun 1000000 184467440737103517 = .ok r ∧ r.2.1.gparams = some g ∧
      r.2.1.paramguard = some p ∧ g.ytaPrice = 184467440737103517 ∧ p.ytaRef1.value = 8000 ∧
      ¬ p.ytaRef1.InBand g.ytaPrice := by
  have hthrough : ∀ ct price : UInt64,
      (priceRun ct price).map (fun r => (r.2.1.gparams.map HddGlobalParam.ytaPrice,
        r.2.1.paramguard)) = .ok (some price, some (HddPriceGuard.initial 0)) →
      ¬ (HddPriceGuard.initial 0).ytaRef1.InBand price →
      ∃ r g p, priceRun ct price = .ok r ∧ r.2.1.gparams = some g ∧ r.2.1.paramguard = some p ∧
        g.ytaPrice = price ∧ p.ytaRef1.value = 8000 ∧ ¬ p.ytaRef1.InBand g.ytaPrice := by
    intro ct price hrun hband
    obtain ⟨r, hok, hread⟩ := exists_of_map_eq_ok hrun
    obtain ⟨hprice, hguard⟩ := Prod.mk.inj hread
    obtain ⟨g, hg, hvalue⟩ := Option.map_eq_some_iff.mp hprice
    refine ⟨r, g, _, hok, hg, hguard, hvalue, rfl, ?_⟩
    rw [hvalue]
    exact hband
  constructor
  · refine hthrough _ _ (by decide +kernel) ?_
    unfold Reference.InBand
    decide
  · refine hthrough _ _ (by decide +kernel) ?_
    unfold Reference.InBand
    decide

end YottaChain.HddPool
