/-
  **The actions of `hddlock`.**

  The administrator registers rules and the accounts that may lock tokens of
  others; a lock transfer books a locked quantity for the receiver and sends it
  the part that is to be paid at once, which may be nothing.  A rule is a list of
  time points with the percentage released at each of them.
-/
import YottaChain.LedgerTables

namespace YottaChain.HddLock

open Checked

/-- All tables of the contract: those that others read, and the accounts that may
    lock. -/
structure State where
  tables : Tables
  accbig : Table Name Text

abbrev Outcome : Type := State × List Sent

def State.empty : State := ⟨⟨∅, fun _ => [], ∅⟩, ∅⟩

def admin : Name := N "lockadminusr"

def addaccbig (c : Ctx) (s : State) (user : Name) (desc : Text) : Checked Outcome := do
  c.requireAuth admin
  ensure (s.accbig.find user = none) "user already registered as big account"
  let rows ← s.accbig.emplace user desc
  pure ({ s with accbig := rows }, [])

def rmvaccbig (c : Ctx) (s : State) (user : Name) : Checked Outcome := do
  c.requireAuth admin
  pure ({ s with accbig := s.accbig.erase user }, [])

def addrule (c : Ctx) (s : State) (lockruleid : UInt64) (times : List UInt64)
    (percentage : List UInt8) : Checked Outcome := do
  c.requireAuth admin
  ensure (2 ≤ times.length) "invalidate size of times array"
  ensure (times.length = percentage.length) "times and percentage in different size."
  ensure (s.tables.lockrule.find lockruleid = none) "the id already existed in rule table"
  ensure (percentage.all (· ≤ 100)) "invalidate lock percentage"
  let rules ← s.tables.lockrule.emplace lockruleid ⟨times, percentage⟩
  pure ({ s with tables := { s.tables with lockrule := rules } }, [])

def bookLock (lockruleid : UInt64) (quantity : Asset) : List AccLock → Checked (List AccLock)
  | [] => .ok [⟨quantity, lockruleid⟩]
  | row :: rest =>
      if lockruleid < row.lockruleid then .ok (⟨quantity, lockruleid⟩ :: row :: rest)
      else if lockruleid = row.lockruleid then do
        let sum ← row.quantity.add quantity
        pure ({ row with quantity := sum } :: rest)
      else do
        let rest ← bookLock lockruleid quantity rest
        pure (row :: rest)

def locktransfer (c : Ctx) (s : State) (lockruleid : UInt64) (sender receiver : Name)
    (quantity amount : Asset) (memo : Text) : Checked Outcome := do
  c.requireAuth sender
  ensure (quantity.symbol = coreSymbol) "only core symbole support this lock transsfer"
  ensure (amount.symbol = coreSymbol) "only core symbole support this lock transsfer"
  ensure (0 < quantity.amount) "must locktransfer positive quantity"
  ensure (0 ≤ amount.amount) "can not locktransfer negative amount"
  ensure ((s.accbig.find sender).isSome) "from can not locktransfer"
  ensure ((s.tables.lockrule.find lockruleid).isSome) "lockruleid not existed in rule table"
  ensure (amount.amount ≤ quantity.amount) "overdrawn quantity"
  let rows ← bookLock lockruleid quantity (s.tables.acclock receiver)
  pure ({ s with tables := { s.tables with
      acclock := fun u => if u = receiver then rows else s.tables.acclock u } },
    if 0 < amount.amount then [⟨sender, .transfer sender receiver amount memo⟩] else [])

def frozenuser (c : Ctx) (s : State) (user : Name) (time : UInt64) : Checked Outcome := do
  c.requireAuth admin
  pure ({ s with tables := { s.tables with accfrozen := s.tables.accfrozen.put user time } }, [])

inductive Action where
  | addaccbig (user : Name) (desc : Text)
  | rmvaccbig (user : Name)
  | addrule (lockruleid : UInt64) (times : List UInt64) (percentage : List UInt8)
  | locktransfer (lockruleid : UInt64) (sender receiver : Name) (quantity amount : Asset)
      (memo : Text)
  | frozenuser (user : Name) (time : UInt64)

def apply (c : Ctx) (s : State) : Action → Checked Outcome
  | .addaccbig user desc => addaccbig c s user desc
  | .rmvaccbig user => rmvaccbig c s user
  | .addrule lockruleid times percentage => addrule c s lockruleid times percentage
  | .locktransfer lockruleid sender receiver quantity amount memo =>
      locktransfer c s lockruleid sender receiver quantity amount memo
  | .frozenuser user time => frozenuser c s user time

def Step (s s' : State) : Prop := ∃ a c sent, apply c s a = .ok (s', sent)

def runActions (c : Ctx) : State → List Action → Checked State
  | s, [] => .ok s
  | s, a :: rest => do
      let r ← apply c s a
      runActions c r.1 rest

theorem runActions_steps {c : Ctx} {actions : List Action} {s s' : State}
    (h : runActions c s actions = .ok s') : Run.Steps Step s s' := by
  induction actions generalizing s with
  | nil =>
    cases h
    exact .refl
  | cons a _ ih =>
    simp only [runActions, bind_eq_ok] at h
    obtain ⟨⟨s1, sent⟩, hcall, hrest⟩ := h
    exact .head ⟨a, c, sent, hcall⟩ (ih hrest)

end YottaChain.HddLock
