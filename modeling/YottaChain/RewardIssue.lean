/-
  **The tokens issued for storage rewards.**

  `startnewm` issues the tokens of the first reward day and every later day is
  started by the first `onreward` that comes after `next_day_time`.  The amount of
  a day is the difference between the curve `reward_issue` at that day and all that
  has been issued, and is skipped unless it is positive and at most that of the
  first day.

  A run is followed together with its clock and with the issue actions it has
  sent.  Only four fields of `newmparam` take part, the `Schedule`; `nextDay_ok`
  says what a call does to them.  Nothing is assumed of the curve but its upper
  bound, and the days are counted in 32 bits, as in the source.
-/
import YottaChain.HddPoolRun

namespace YottaChain.HddPool

open Checked FixedWidth List

/-! ## 1. Issue actions and the schedule -/

def issues (sent : List Sent) : List Int64 :=
  sent.filterMap fun x =>
    match x.act with
    | .issue _ quantity _ => some quantity.amount
    | _ => none

theorem issues_append (sent sent' : List Sent) : issues (sent ++ sent') = issues sent ++ issues sent' :=
  filterMap_append

/-- The part of `newmparam` that decides when and how much is issued. -/
structure Schedule where
  isStarted : Bool
  startTime : UInt64
  nextDayTime : UInt64
  totalIssue : Int64

def NewMParam.schedule (p : NewMParam) : Schedule :=
  ⟨p.isStarted, p.startTime, p.nextDayTime, p.totalIssue⟩

/-- The issue of one day: nothing, or what the curve is ahead of the total. -/
inductive DayIssue (fp : Doubles) (total : Int64) : Int64 → List Int64 → Prop
  | skip : DayIssue fp total total []
  | issue (day : UInt32) (hpos : total < fp.rewardIssue day)
      (hle : fp.rewardIssue day - total ≤ 4812942883) :
      DayIssue fp total (fp.rewardIssue day) [fp.rewardIssue day - total]

def dayAfter (now next : UInt64) : UInt64 :=
  if next + microsecondsInOneDay ≤ now then now + microsecondsInOneDay
  else next + microsecondsInOneDay

section Calls

variable {fp : Doubles} {c : Ctx} {v : Views} {s s' : Tables} {p p' : NewMParam}
  {sent : List Sent} {bret isDestory : Bool}

theorem destroyFund_ok {curIssue : Int64}
    (h : destroyFund fp v p isDestory curIssue = .ok (p', sent)) :
    p'.schedule = p.schedule ∧ issues sent = [] := by
  unfold destroyFund at h
  split at h
  · simp only [bind_eq_ok] at h
    obtain ⟨balance, _, h⟩ := h
    generalize (if 1000000000 < balance.amount then balance.amount - 1000000000 else 0) = real at h
    split at h
    · simp only [ok_iff] at h
      obtain ⟨quant, _, rfl, rfl⟩ := h
      exact ⟨rfl, rfl⟩
    · cases h
      exact ⟨rfl, rfl⟩
  · cases h
    exact ⟨rfl, rfl⟩

theorem issueDay_ok (h : issueDay fp v p isDestory = .ok (p', sent, bret)) :
    ∃ total, p'.schedule = { p.schedule with totalIssue := total } ∧
      DayIssue fp p.totalIssue total (issues sent) := by
  unfold issueDay at h
  dsimp only at h
  split_ifs at h with hcheck
  · simp only [ok_iff] at h
    obtain ⟨⟨p1, burnt⟩, hburn, quant, hquant, _, _, rfl, rfl, rfl⟩ := h
    obtain ⟨hsame, hnone⟩ := destroyFund_ok hburn
    have hamount := (Asset.make_ok hquant).1
    refine ⟨fp.rewardIssue p.rewardDay, ?_, ?_⟩
    · rw [← hsame]
      rfl
    · rw [issues_append, hnone]
      show DayIssue fp p.totalIssue _ [quant.amount]
      rw [hamount]
      exact .issue p.rewardDay hcheck.1 hcheck.2
  · cases h
    exact ⟨p.totalIssue, rfl, .skip⟩

theorem nextMonth_schedule (p : NewMParam) (month : UInt32) :
    (nextMonth p month).schedule = p.schedule := by
  unfold nextMonth
  split <;> rfl

/-- Before the next day nothing happens; at its start the day after is fixed and
    at most one amount is issued. -/
theorem nextDay_ok {space : UInt64} (h : nextDay fp c v p space = .ok (p', sent, bret)) :
    (c.currentTime < p.nextDayTime ∧ p'.schedule = p.schedule ∧ issues sent = []) ∨
      (p.nextDayTime ≤ c.currentTime ∧ ∃ total,
        p'.schedule = { p.schedule with
          nextDayTime := dayAfter c.currentTime p.nextDayTime
          totalIssue := total } ∧
        DayIssue fp p.totalIssue total (issues sent)) := by
  unfold nextDay at h
  split_ifs at h with hday
  · simp only [ok_iff] at h
    obtain ⟨⟨p1, sent1, bret1⟩, hissue, rfl, rfl, rfl⟩ := h
    obtain ⟨total, hschedule, hamount⟩ := issueDay_ok hissue
    have hmonth : ∀ q month, NewMParam.schedule { nextMonth q month with
        taskSpace := (nextMonth q month).taskSpace + (nextMonth q month).lastDayIncSpace } =
        q.schedule := fun q month => nextMonth_schedule q month
    rw [hmonth] at hschedule
    have htotal : (nextMonth { p with rewardDay := p.rewardDay + 1 }
        ((p.rewardDay + 1 - 1) / daysInOneMonth + 1)).totalIssue = p.totalIssue :=
      congrArg Schedule.totalIssue (hmonth { p with rewardDay := p.rewardDay + 1 } _)
    have hnext : p1.nextDayTime = p.nextDayTime := congrArg Schedule.nextDayTime hschedule
    refine .inr ⟨hday, total, ?_, htotal ▸ hamount⟩
    rw [← hnext]
    have hfields : ∀ next, NewMParam.schedule { p1 with nextDayTime := next } =
        { p1.schedule with nextDayTime := next } := fun _ => rfl
    show NewMParam.schedule { p1 with nextDayTime := dayAfter c.currentTime p1.nextDayTime } = _
    rw [hfields, hschedule]
    rfl
  · cases h
    exact .inl ⟨UInt64.not_le.mp hday, rfl, rfl⟩

theorem startnewm_ok (h : startnewm fp c s = .ok (s', sent)) :
    s.counterstat.isSome ∧ s'.counterstat = s.counterstat ∧
      (s.newmparam.getD {}).isStarted = false ∧
      ∃ p, s'.newmparam = some p ∧ p.schedule =
        ⟨true, c.currentTime, c.currentTime + microsecondsInOneDay, fp.rewardIssue 1⟩ ∧
      issues sent = [fp.rewardIssue 1] ∧ InWindow (fp.rewardIssue 1) := by
  simp only [startnewm, bind_eq_ok] at h
  obtain ⟨_, _, h⟩ := h
  rcases hspace : s.counterstat with _ | space
  · rw [hspace] at h
    cases h
  · simp only [hspace, ok_iff] at h
    obtain ⟨hfresh, quant, hquant, _, _, rfl, rfl⟩ := h
    obtain ⟨hamount, hwindow⟩ := Asset.make_ok hquant
    refine ⟨rfl, rfl, hfresh, _, rfl, rfl, ?_, hamount ▸ hwindow⟩
    show [quant.amount] = _
    rw [hamount]

theorem rewardlog_issues {d : Draw} {type : UInt8} {reward : Int64}
    (h : rewardlog d type reward isDestory = .ok sent) : issues sent = [] := by
  unfold rewardlog at h
  split at h
  · cases h
  · split at h
    · cases h
      rfl
    · simp only [ok_iff] at h
      obtain ⟨quant, _, rfl⟩ := h
      rfl
  · cases h
    rfl

variable {slot : UInt32}

theorem onreward_issues (h : onreward fp c v s slot = .ok (s', sent)) :
    ∃ sent1 plan, updateNewmodelParams fp c v s slot = .ok (s', sent1, plan) ∧
      issues sent = issues sent1 := by
  simp only [onreward, bind_eq_ok] at h
  obtain ⟨_, _, ⟨s1, sent1, plan⟩, hupdate, h⟩ := h
  rcases plan with _ | plan
  · cases h
    exact ⟨_, none, hupdate, rfl⟩
  · dsimp only at h
    split at h
    · cases h
      exact ⟨_, some plan, hupdate, rfl⟩
    · simp only [ok_iff] at h
      obtain ⟨paid, hpaid, rfl, rfl⟩ := h
      refine ⟨sent1, some plan, hupdate, ?_⟩
      have hnone : issues paid = [] := by
        split at hpaid <;> exact rewardlog_issues hpaid
      rw [issues_append, hnone, append_nil]

variable {plan : Option RewardPlan}

theorem updateNewmodelParams_idle (h : updateNewmodelParams fp c v s slot = .ok (s', sent, plan))
    (hidle : ∀ p, s.newmparam = some p → p.isStarted = false) :
    s'.newmparam.map NewMParam.schedule = s.newmparam.map NewMParam.schedule ∧
      issues sent = [] := by
  unfold updateNewmodelParams at h
  rcases hp : s.newmparam with _ | p
  · rw [hp] at h
    cases h
    rw [hp]
    exact ⟨rfl, rfl⟩
  · simp only [hp, if_pos (hidle p hp)] at h
    cases h
    exact ⟨rfl, rfl⟩

/-- A call after the start does what `nextDay` does. -/
theorem updateNewmodelParams_started (h : updateNewmodelParams fp c v s slot = .ok (s', sent, plan))
    (hp : s.newmparam = some p) (hstarted : p.isStarted = true) (hcount : s.counterstat.isSome) :
    s'.counterstat = s.counterstat ∧ ∃ p1 p' space bret, s'.newmparam = some p' ∧
      p'.schedule = p1.schedule ∧
      nextDay fp c v { p with lastRewardSlot := slot } space = .ok (p1, sent, bret) := by
  unfold updateNewmodelParams at h
  obtain ⟨space, hspace⟩ := Option.isSome_iff_exists.mp hcount
  have hrun : ¬ p.isStarted = false := by simp [hstarted]
  simp only [hp, if_neg hrun, hspace, ok_iff] at h
  obtain ⟨⟨p1, sent1, bret⟩, hday, _, _, rfl, rfl, _⟩ := h
  exact ⟨hspace.symm, p1, _, space, bret, rfl, rfl, hday⟩

end Calls

/-! ## 2. Runs with a clock and a record of the issues -/

/-- The tables with the slot of the last call, the number of successful starts
    and the amounts issued, in order. -/
structure Issuance where
  tables : Tables
  now : UInt32
  starts : ℕ
  issued : List Int64

/-- One call at a slot that is not before the last one.  In between the rest of
    the contract may change what it likes except the schedule, which only these two
    calls write, and the existence of the counter, which no action removes. -/
inductive IssueStep (fp : Doubles) : Issuance → Issuance → Prop
  | startnewm {r s' sent} (c : Ctx) (slot : UInt32) (hclock : c.currentTime = blockTime slot)
      (hlater : r.now ≤ slot) (h : startnewm fp c r.tables = .ok (s', sent)) :
      IssueStep fp r ⟨s', slot, r.starts + 1, r.issued ++ issues sent⟩
  | onreward {r s' sent} (c : Ctx) (v : Views) (slot : UInt32)
      (hclock : c.currentTime = blockTime slot) (hlater : r.now ≤ slot) (arg : UInt32)
      (h : onreward fp c v r.tables arg = .ok (s', sent)) :
      IssueStep fp r ⟨s', slot, r.starts, r.issued ++ issues sent⟩
  | elsewhere {r} (s' : Tables)
      (hparam : s'.newmparam.map NewMParam.schedule = r.tables.newmparam.map NewMParam.schedule)
      (hcount : r.tables.counterstat.isSome → s'.counterstat.isSome) :
      IssueStep fp r { r with tables := s' }

def totalIssue (s : Tables) : ℤ := (s.newmparam.getD {}).totalIssue.toInt

def issuedSum (l : List Int64) : ℤ := (l.map Int64.toInt).sum

theorem issuedSum_append (l l' : List Int64) : issuedSum (l ++ l') = issuedSum l + issuedSum l' := by
  rw [issuedSum, map_append, sum_append, issuedSum, issuedSum]

def day : ℕ := 86400000000

/-! ## 3. The law of a started schedule -/

/-- What holds of a started schedule at the slot `now` after the amounts `l`. -/
structure OnSchedule (q : Schedule) (now : UInt32) (l : List Int64) : Prop where
  started : q.isStarted = true
  nonempty : l ≠ []
  sum : q.totalIssue.toInt = issuedSum l
  low : -(2 ^ 62 - 1) ≤ q.totalIssue.toInt
  high : q.totalIssue.toInt ≤ 20000000000000
  later : ∀ x ∈ l.tail, 0 < x.toInt ∧ x.toInt ≤ 4812942883
  begun : q.startTime.toNat ≤ (blockTime now).toNat
  ahead : (blockTime now).toNat < q.nextDayTime.toNat
  spaced : q.startTime.toNat + l.length * day ≤ q.nextDayTime.toNat
  count : (l.length - 1) * day ≤ (blockTime now).toNat - q.startTime.toNat

theorem blockTime_mono {a b : UInt32} (h : a ≤ b) : (blockTime a).toNat ≤ (blockTime b).toNat := by
  have hle : a.toNat ≤ b.toNat := h
  rw [toNat_blockTime, toNat_blockTime]
  omega

theorem toNat_addDay {t : UInt64} (slot : UInt32) (h : t.toNat ≤ (blockTime slot).toNat) :
    (t + microsecondsInOneDay).toNat = t.toNat + day := by
  have hslot := slot.toNat_lt
  rw [toNat_blockTime] at h
  apply toNat_add_of_lt
  show t.toNat + 86400000000 < 2 ^ 64
  omega

variable {slot : UInt32}

/-- The day after begins at least a day later and is ahead of the clock. -/
theorem dayAfter_bounds {next : UInt64} (h : next.toNat ≤ (blockTime slot).toNat) :
    next.toNat + day ≤ (dayAfter (blockTime slot) next).toNat ∧
      (blockTime slot).toNat < (dayAfter (blockTime slot) next).toNat := by
  have hnow := toNat_addDay slot (le_refl (blockTime slot).toNat)
  have hnext := toNat_addDay slot h
  have hday : 0 < day := by decide
  unfold dayAfter
  split_ifs with hlate
  · rw [hnow]
    omega
  · rw [UInt64.le_iff_toNat_le, hnext] at hlate
    rw [hnext]
    omega

variable {fp : Doubles}

theorem onSchedule_start (hF : ∀ day, (fp.rewardIssue day).toInt ≤ 20000000000000)
    (hwindow : InWindow (fp.rewardIssue 1)) :
    OnSchedule ⟨true, blockTime slot, blockTime slot + microsecondsInOneDay, fp.rewardIssue 1⟩ slot
      [fp.rewardIssue 1] := by
  have hday := toNat_addDay slot (le_refl (blockTime slot).toNat)
  have hpos : 0 < day := by decide
  constructor
  · rfl
  · simp
  · simp [issuedSum]
  · exact hwindow.1
  · exact hF 1
  · simp
  · exact le_refl _
  · rw [hday]
    omega
  · rw [hday, length_singleton, one_mul]
  · simp

variable {q : Schedule} {l : List Int64}

/-- A later call that issues nothing and starts no day. -/
theorem OnSchedule.wait {now : UInt32} (h : OnSchedule q now l) (hlater : now ≤ slot)
    (hearly : blockTime slot < q.nextDayTime) : OnSchedule q slot l := by
  have hmono := blockTime_mono hlater
  have hbegun := h.begun
  have hcount := h.count
  refine ⟨h.started, h.nonempty, h.sum, h.low, h.high, h.later, ?_, ?_, h.spaced, ?_⟩
  · omega
  · exact UInt64.lt_iff_toNat_lt.mp hearly
  · omega

/-- The start of a day, with or without an issue, stays on schedule. -/
theorem OnSchedule.turn {now : UInt32} {amounts : List Int64} {total : Int64}
    (h : OnSchedule q now l) (hF : ∀ day, (fp.rewardIssue day).toInt ≤ 20000000000000)
    (hlater : now ≤ slot) (hdue : q.nextDayTime ≤ blockTime slot)
    (hday : DayIssue fp q.totalIssue total amounts) :
    OnSchedule { q with nextDayTime := dayAfter (blockTime slot) q.nextDayTime
                        totalIssue := total } slot (l ++ amounts) := by
  have hmono := blockTime_mono hlater
  have hdue' : q.nextDayTime.toNat ≤ (blockTime slot).toNat := hdue
  obtain ⟨hlong, hahead⟩ := dayAfter_bounds hdue'
  have hbegun := h.begun
  have hspaced := h.spaced
  have hcount := h.count
  have hnonempty : 0 < l.length := length_pos_iff.mpr h.nonempty
  cases hday with
  | skip =>
    rw [append_nil]
    refine ⟨h.started, h.nonempty, h.sum, h.low, h.high, h.later, ?_, ?_, ?_, ?_⟩
    · dsimp only
      omega
    · dsimp only
      exact hahead
    · dsimp only
      omega
    · dsimp only
      omega
  | issue d hpos hle =>
    have hlow := h.low
    have hhigh := hF d
    have hdiff : (fp.rewardIssue d - q.totalIssue).toInt =
        (fp.rewardIssue d).toInt - q.totalIssue.toInt := by
      have hbound := (toInt_bounds (fp.rewardIssue d)).1
      have hlt := Int64.lt_iff_toInt_lt.mp hpos
      exact toInt_sub_of_bounds (by omega) (by omega)
    have hlt := Int64.lt_iff_toInt_lt.mp hpos
    have hmax : (fp.rewardIssue d - q.totalIssue).toInt ≤ 4812942883 := Int64.le_iff_toInt_le.mp hle
    have hlen : (l ++ [fp.rewardIssue d - q.totalIssue]).length = l.length + 1 := by simp
    have hmul : (l.length + 1) * day = l.length * day + day := Nat.succ_mul _ _
    refine ⟨h.started, by simp, ?_, ?_, hhigh, ?_, ?_, ?_, ?_, ?_⟩
    · rw [issuedSum_append, ← h.sum]
      simp [issuedSum, hdiff]
    · show -(2 ^ 62 - 1) ≤ (fp.rewardIssue d).toInt
      omega
    · intro x hx
      rw [tail_append_of_ne_nil h.nonempty] at hx
      rcases mem_append.mp hx with hx | hx
      · exact h.later x hx
      · rw [mem_singleton.mp hx]
        exact ⟨by omega, hmax⟩
    · dsimp only
      omega
    · dsimp only
      exact hahead
    · rw [hlen, hmul]
      dsimp only
      omega
    · rw [hlen, Nat.add_sub_cancel]
      dsimp only
      omega

/-! ## 4. Runs -/

inductive Issuing (r : Issuance) : Prop
  | fresh (hparam : r.tables.newmparam = none) (hstarts : r.starts = 0) (hissued : r.issued = [])
  | started (p : NewMParam) (hparam : r.tables.newmparam = some p)
      (hcount : r.tables.counterstat.isSome) (hstarts : r.starts = 1)
      (h : OnSchedule p.schedule r.now r.issued)

variable {r : Issuance}

theorem Issuing.onreward {c : Ctx} {v : Views} {s' : Tables} {sent : List Sent} {arg : UInt32}
    (hr : Issuing r) (hF : ∀ day, (fp.rewardIssue day).toInt ≤ 20000000000000)
    (hclock : c.currentTime = blockTime slot) (hlater : r.now ≤ slot)
    (h : onreward fp c v r.tables arg = .ok (s', sent)) :
    Issuing ⟨s', slot, r.starts, r.issued ++ issues sent⟩ := by
  obtain ⟨sent1, plan, hupdate, hsame⟩ := onreward_issues h
  rw [hsame]
  cases hr with
  | fresh hparam hstarts hissued =>
    obtain ⟨hschedule, hnone⟩ := updateNewmodelParams_idle hupdate (by
      intro p hp
      rw [hparam] at hp
      cases hp)
    rw [hparam, Option.map_none, Option.map_eq_none_iff] at hschedule
    refine .fresh hschedule hstarts ?_
    show r.issued ++ issues sent1 = []
    rw [hissued, hnone]
    rfl
  | started p hparam hcount hstarts hon =>
    obtain ⟨hcounter, p1, p', space, bret, hp', hschedule, hday⟩ :=
      updateNewmodelParams_started hupdate hparam hon.started hcount
    have hcount' : s'.counterstat.isSome := by rwa [hcounter]
    refine .started p' hp' hcount' hstarts ?_
    rw [hschedule]
    rcases nextDay_ok hday with ⟨hearly, hkept, hnone⟩ | ⟨hdue, total, hturn, hissue⟩
    · rw [hkept]
      show OnSchedule p.schedule slot (r.issued ++ issues sent1)
      rw [hnone, append_nil]
      exact hon.wait hlater (hclock ▸ hearly)
    · rw [hturn, hclock]
      exact hon.turn hF hlater (hclock ▸ hdue) hissue

theorem Issuing.step {r' : Issuance} (hr : Issuing r)
    (hF : ∀ day, (fp.rewardIssue day).toInt ≤ 20000000000000) (h : IssueStep fp r r') :
    Issuing r' := by
  cases h with
  | startnewm _ _ hclock _ h =>
    obtain ⟨hcount, hcounter, hfresh, p, hp, hschedule, hissue, hwindow⟩ := startnewm_ok h
    cases hr with
    | fresh _ hstarts hissued =>
      refine .started p hp (hcounter ▸ hcount) (congrArg (· + 1) hstarts) ?_
      rw [hschedule, hissued, hissue, hclock]
      exact onSchedule_start hF hwindow
    | started p0 hparam _ _ hon =>
      -- a second start is refused
      rw [hparam, Option.getD_some, show p0.isStarted = true from hon.started] at hfresh
      cases hfresh
  | onreward _ _ _ hclock hlater _ h => exact hr.onreward hF hclock hlater h
  | elsewhere _ hparam hcount =>
    cases hr with
    | fresh hp hstarts hissued =>
      rw [hp, Option.map_none, Option.map_eq_none_iff] at hparam
      exact .fresh hparam hstarts hissued
    | started _ hp hcounter hstarts hon =>
      rw [hp, Option.map_some, Option.map_eq_some_iff] at hparam
      obtain ⟨p', hp', hschedule⟩ := hparam
      exact .started p' hp' (hcount hcounter) hstarts (hschedule ▸ hon)

/-- Along every run the total on record is the sum of the amounts issued and at
    most the limit of the curve, every amount after the first is positive and at
    most that of the first day, and there is at most one start.  Once started,
    the next day is ahead of the last call, and there has been at most one issue
    for each full day, and the first. -/
theorem issue_bounded {fp : Doubles}
    (hF : ∀ day, (fp.rewardIssue day).toInt ≤ 20000000000000) {s₀ : Tables}
    (hfresh : s₀.newmparam = none) {slot : UInt32} {r : Issuance}
    (hrun : Run.Steps (IssueStep fp) ⟨s₀, slot, 0, []⟩ r) :
    totalIssue r.tables = issuedSum r.issued ∧ totalIssue r.tables ≤ 20000000000000 ∧
      (∀ x ∈ r.issued.tail, 0 < x.toInt ∧ x.toInt ≤ 4812942883) ∧ r.starts ≤ 1 ∧
      (r.starts = 0 → r.issued = []) ∧
      (∀ p, r.tables.newmparam = some p → p.isStarted = true ∧
        (blockTime r.now).toNat < p.nextDayTime.toNat ∧
        r.issued.length ≤ 1 + ((blockTime r.now).toNat - p.startTime.toNat) / day) := by
  have hissuing : Issuing r :=
    Run.invariant (P := Issuing) (fun _ _ hr h => hr.step hF h) (.fresh hfresh rfl rfl) hrun
  cases hissuing with
  | fresh hparam hstarts hissued =>
    rw [totalIssue, hparam, hissued, hstarts]
    refine ⟨rfl, by decide, by simp, by omega, by simp, ?_⟩
    intro p hp
    cases hp
  | started p hparam _ hstarts hon =>
    have htotal : totalIssue r.tables = p.totalIssue.toInt := by
      rw [totalIssue, hparam, Option.getD_some]
    rw [htotal, hstarts]
    refine ⟨hon.sum, hon.high, hon.later, by omega, by omega, ?_⟩
    intro p' hp'
    rw [hparam] at hp'
    cases hp'
    refine ⟨hon.started, hon.ahead, ?_⟩
    have hcount := (Nat.le_div_iff_mul_le (by decide)).mpr hon.count
    have hlen : r.issued.length - 1 ≤ ((blockTime r.now).toNat - p.startTime.toNat) / day := hcount
    omega

def cappedCurve : Doubles :=
  { Doubles.whole with
    rewardIssue := fun day => Int64.ofNat (min (day.toNat * 4812942883) 20000000000000) }

theorem cappedCurve_le (day : UInt32) : (cappedCurve.rewardIssue day).toInt ≤ 20000000000000 := by
  have hcapped : min (day.toNat * 4812942883) 20000000000000 ≤ 20000000000000 := min_le_right _ _
  have hcurve : (cappedCurve.rewardIssue day).toInt =
      ((min (day.toNat * 4812942883) 20000000000000 : ℕ) : ℤ) :=
    Int64.toInt_ofNat_of_lt (lt_of_le_of_lt hcapped (by decide))
  rw [hcurve]
  exact Int.ofNat_le.mpr hcapped

theorem issue_bounded_sample :
    ∃ r, Run.Steps (IssueStep cappedCurve)
        ⟨{ Tables.empty with counterstat := some 0 }, 0, 0, []⟩ r ∧
      r.issued = [4812942883, 4812942883] ∧ totalIssue r.tables = issuedSum r.issued := by
  let s₀ : Tables := { Tables.empty with counterstat := some 0 }
  let c : UInt32 → Ctx := fun slot => .permissive (blockTime slot)
  let v : Views := { Views.empty with
    token := ⟨∅, (∅ : Table (Name × UInt64) Asset).put (N "fund.sys", symbolName coreSymbol)
      ⟨5, coreSymbol⟩⟩ }
  obtain ⟨⟨⟨s₁, sent₁⟩, s₂, sent₂⟩, hcalls, hview⟩ := Checked.exists_of_map_eq_ok
    (x := do
      let r₁ ← startnewm cappedCurve (c 7) s₀
      let r₂ ← onreward cappedCurve (c 172807) v r₁.1 1
      pure (r₁, r₂))
    (f := fun r => (issues r.1.2, issues r.2.2)) (b := ([4812942883], [4812942883]))
    (by decide +kernel)
  simp only [ok_iff] at hcalls
  obtain ⟨r₁, hstart, r₂, hreward, rfl, rfl⟩ := hcalls
  obtain ⟨hissue₁, hissue₂⟩ := Prod.mk.inj hview
  have hlater : (7 : UInt32) ≤ 172807 := by decide
  have hrun : Run.Steps (IssueStep cappedCurve) ⟨s₀, 0, 0, []⟩
      ⟨s₂, 172807, 1, [] ++ issues sent₁ ++ issues sent₂⟩ :=
    (Relation.ReflTransGen.single (.startnewm (c 7) 7 rfl (by decide) hstart)).tail
      (.onreward (c 172807) v 172807 rfl hlater 1 hreward)
  refine ⟨_, hrun, ?_, (issue_bounded cappedCurve_le rfl hrun).1⟩
  show [] ++ issues sent₁ ++ issues sent₂ = _
  rw [show issues sent₁ = _ from hissue₁, show issues sent₂ = _ from hissue₂]
  rfl

end YottaChain.HddPool
