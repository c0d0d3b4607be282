/-
  **Switching forks** (`controller_impl::maybe_switch_forks`, `pop_block`).

  The controller has applied a chain of blocks: there is an undo session of the database
  and a row of `reversible_blocks` for each of them.  When another block is the best one,
  the blocks down to the common ancestor are popped and those of the other branch are
  applied; when one of them fails, all is taken back and it is removed.

  What the application of a block does is left open (`Execution`).  It may depend on the
  time and on anything else that is not in the database: the calls are numbered, and the
  number is an argument of it.
-/
import YottaChain.ForkTree
import YottaChain.UndoSessions

namespace YottaChain.Forks

open Imperative List

/-! ## 1. The controller -/

structure Ref where
  id : BlockId
  previous : BlockId
deriving DecidableEq

def BlockState.ref (b : BlockState) : Ref := ⟨b.id, b.previous⟩

inductive BlockStatus where
  | irreversible
  | validated
  | complete
  | incomplete
deriving DecidableEq

structure ChainState (δ : Type) [UndoSessions δ] where
  head : Ref
  db : UndoSessions.Db δ
  /-- The rows of `reversible_blocks`, newest first. -/
  reversible : List BlockId

structure Controller (δ : Type) [UndoSessions δ] where
  forkDb : ForkDb
  chain : ChainState δ
  /-- How often `apply_block` has been called. -/
  attempts : Nat

abbrev Execution (δ : Type) : Type := Nat → BlockStatus → BlockId → δ → Except String δ

namespace ChainState

variable {δ : Type} [UndoSessions δ]

def push (s : ChainState δ) (id : BlockId) (d : δ) : ChainState δ :=
  { s with db := s.db.session.put d, reversible := id :: s.reversible }

def extend (s : ChainState δ) (b : Ref) (d : δ) : ChainState δ := { s.push b.id d with head := b }

def pop (s : ChainState δ) (prev : Ref) : ChainState δ where
  head := prev
  db := s.db.undo
  reversible := s.reversible.eraseP fun id => decide (id.num = s.head.id.num)

theorem pop_extend (s : ChainState δ) (b : Ref) (d : δ) : (s.extend b d).pop s.head = s := by
  simp [pop, extend, push]

end ChainState

abbrev ControllerM (δ α : Type) [UndoSessions δ] : Type := EStateM Failure (Controller δ) α

/-- `catch (const fc::exception&)`. -/
def catchThrown {σ α : Type} (x : EStateM Failure σ α) (handler : String → EStateM Failure σ α) :
    EStateM Failure σ α :=
  tryCatch x fun
    | .thrown message => handler message
    | .undefined => throw .undefined

section Catch

variable {σ α : Type} {x : EStateM Failure σ α} {handler : String → EStateM Failure σ α} {s : σ}
  {Q : α → σ → Prop} {E : Failure → σ → Prop}

theorem wp_catchThrown_iff :
    Wp (catchThrown x handler) s Q E ↔ Wp x s Q fun e s' =>
      match e with
      | .thrown message => Wp (handler message) s' Q E
      | .undefined => E .undefined s' := by
  rw [catchThrown, wp_tryCatch]
  refine ⟨fun h => h.mono (fun _ _ hQ => hQ) ?_, fun h => h.mono (fun _ _ hQ => hQ) ?_⟩
  · rintro (message | _) s' hE
    · exact hE
    · exact hE
  · rintro (message | _) s' hE
    · exact hE
    · exact hE

theorem wp_catchThrown
    (h : Wp x s Q fun e s' => ∃ message, e = .thrown message ∧ Wp (handler message) s' Q E) :
    Wp (catchThrown x handler) s Q E := by
  refine wp_catchThrown_iff.mpr (h.mono (fun _ _ hQ => hQ) ?_)
  rintro _ s' ⟨message, rfl, hhandler⟩
  exact hhandler

end Catch

section Model

variable {δ α : Type} [UndoSessions δ] (execute : Execution δ)

def onForkDb (x : ForkM α) : ControllerM δ α :=
  zoom Controller.forkDb (fun db c => { c with forkDb := db }) x

def setHead (b : BlockState) : ControllerM δ Unit :=
  modify fun c => { c with chain := { c.chain with head := b.ref } }

def applyBlock (b : BlockState) (status : BlockStatus) : ControllerM δ Unit := do
  let c ← get
  modify fun c => { c with attempts := c.attempts + 1 }
  if c.chain.head.id = b.previous then
    match execute c.attempts status b.id c.chain.db.current with
    | .error message => throw (.thrown message)
    | .ok d => modify fun c => { c with chain := c.chain.push b.id d }
  else throw (.thrown "Block ID does not match")

def popBlock : ControllerM δ Unit := do
  let c ← get
  match c.forkDb.getBlock c.chain.head.previous with
  | none => throw (.thrown "attempt to pop beyond last irreversible block")
  | some prev => modify fun c => { c with chain := c.chain.pop prev.ref }

def popAll : List BlockState → ControllerM δ Unit
  | [] => pure ()
  | b :: branch => do
      onForkDb (ForkDb.markInCurrentChain b false)
      popBlock
      popAll branch

def reapplyAll : List BlockState → ControllerM δ Unit
  | [] => pure ()
  | b :: branch => do
      applyBlock execute b .validated
      setHead b
      onForkDb (ForkDb.markInCurrentChain b true)
      reapplyAll branch

def requireHead (id : BlockId) (message : String) : ControllerM δ Unit := do
  let c ← get
  if c.chain.head.id = id then pure () else throw (.thrown message)

def applyNext (b : BlockState) : ControllerM δ Unit := do
  applyBlock execute b (if b.validated then .validated else .complete)
  setHead b
  onForkDb (ForkDb.markInCurrentChain b true)
  onForkDb (modify fun db => db.setValidated b.id)

/-- The new branch fails at `b`: it is removed, and the controller goes back to the old branch. -/
def switchBack (second : List BlockState) (bottom : BlockId) (applied : List BlockState)
    (b : BlockState) (message : String) : ControllerM δ Unit := do
  onForkDb (ForkDb.setValidity b false)
  popAll applied
  requireHead bottom "loss of sync between fork_db and chainbase during fork switch reversal"
  reapplyAll execute second.reverse
  throw (.thrown message)

/-- Apply the blocks of the new branch.  `applied` are those that are applied already, newest
    first, and `second` is the branch that has been popped. -/
def applyAll (second : List BlockState) (bottom : BlockId) :
    List BlockState → List BlockState → ControllerM δ Unit
  | _, [] => pure ()
  | applied, b :: branch => do
      let except ← catchThrown (do
        applyNext execute b
        pure none) fun message => pure (some message)
      match except with
      | none => applyAll second bottom (b :: applied) branch
      | some message => switchBack execute second bottom applied b message

def maybeSwitchForks (s : BlockStatus) : ControllerM δ Unit := do
  let c ← get
  match c.forkDb.head.bind c.forkDb.getBlock with
  | none => throw .undefined
  | some newHead =>
      if newHead.previous = c.chain.head.id then
        catchThrown (do
          applyBlock execute newHead s
          onForkDb (ForkDb.markInCurrentChain newHead true)
          onForkDb (ForkDb.setValidity newHead true)
          setHead newHead) fun message => do
            onForkDb (ForkDb.setValidity newHead false)
            throw (.thrown message)
      else if newHead.id ≠ c.chain.head.id then
        match c.forkDb.fetchBranchFrom newHead.id c.chain.head.id with
        | none => throw .undefined
        | some (first, second) =>
            match second.getLast? with
            | none => throw .undefined
            | some last => do
                popAll second
                requireHead last.previous
                  "loss of sync between fork_db and chainbase during fork switch"
                applyAll execute second last.previous [] first.reverse
      else pure ()

end Model

/-! ## 2. Branches -/

section Branches

variable {base : BlockId} {db : ForkDb}

theorem blockNum_eq (b : BlockState) : b.blockNum = b.previous.num + 1 := b.numbered

/-- A stored block that is reached from `base` over stored blocks. -/
structure Linked (db : ForkDb) (base : BlockId) (b : BlockState) : Prop where
  mem : b ∈ db.index
  below : links.Below db.index base b.id

variable {a b c : BlockState}

/-- The steps down find their block: of two linked blocks, the higher one has its parent stored,
    and so has either of two blocks of one height with different parents. -/
theorem Linked.parent (hids : (db.index.map links.key).Nodup) (hb : Linked db base b)
    (hc : Linked db base c) (hle : c.blockNum ≤ b.blockNum)
    (hdiff : c.blockNum = b.blockNum → b.previous ≠ c.previous) :
    ∃ p, Linked db base p ∧ db.getBlock b.previous = some p ∧ p.id = b.previous ∧
      b.blockNum = p.blockNum + 1 := by
  have hbnum := blockNum_eq b
  have hcnum := blockNum_eq c
  have hheight : base.num ≤ c.blockNum := hc.below.height_le
  have hne : b.id ≠ base := by
    intro heq
    have hbheight : b.blockNum = base.num := congrArg BlockId.num heq
    have hcid : c.id = base := hc.below.eq_of_height_le (show c.blockNum ≤ base.num by omega)
    obtain rfl := inj_on_of_nodup_map hids hb.mem hc.mem (heq.trans hcid.symm)
    exact hdiff rfl rfl
  have hbelow : links.Below db.index base b.previous := hb.below.parent_of_mem hids hb.mem hne
  have hstored : ∃ p ∈ db.index, p.id = b.previous := by
    generalize hprevious : b.previous = k at hbelow
    rw [hprevious] at hbnum
    cases hbelow with
    | refl =>
      -- the parent is `base`, which is stored if `c` is it
      rcases Nat.lt_or_eq_of_le hle with hlt | heq
      · exact ⟨c, hc.mem, hc.below.eq_of_height_le (show c.blockNum ≤ base.num by omega)⟩
      · have hcne : c.id ≠ base := fun hid => by
          have hcheight : c.blockNum = base.num := congrArg BlockId.num hid
          omega
        have hcbelow : links.Below db.index base c.previous :=
          hc.below.parent_of_mem hids hc.mem hcne
        have hcprevious : c.previous = base := hcbelow.eq_of_height_le (by
          show c.previous.num ≤ base.num
          omega)
        exact absurd (hprevious.trans hcprevious.symm) (hdiff heq)
    | @step p _ hmem => exact ⟨p, hmem, rfl⟩
  obtain ⟨p, hp, hid⟩ := hstored
  refine ⟨p, ⟨hp, hid ▸ hbelow⟩, (getBlock_eq_some hids).mpr ⟨hp, hid⟩, hid, ?_⟩
  rw [hbnum, ← hid]
  rfl

variable {fuel : Nat}

theorem descendTo_spec (hids : (db.index.map links.key).Nodup) (hb : Linked db base b)
    (hc : Linked db base c) (hfuel : b.blockNum < fuel) :
    ∃ branch last, db.descendTo c.blockNum fuel b = some (branch, last) ∧ Linked db base last ∧
      links.Path db.index last.id b.id branch ∧ (∀ a ∈ branch, c.blockNum < a.blockNum) ∧
      last.blockNum = min b.blockNum c.blockNum := by
  induction fuel generalizing b with
  | zero => cases hfuel
  | succ _ ih =>
    unfold ForkDb.descendTo
    split_ifs with hlt
    · obtain ⟨p, hp, hget, hid, hnum⟩ := hb.parent hids hc (Nat.le_of_lt hlt)
        fun heq => absurd heq (Nat.ne_of_lt hlt)
      obtain ⟨branch, last, hrest, hlast, hpath, habove, hmin⟩ := ih hp (by omega)
      rw [hget]
      refine ⟨b :: branch, last, ?_, hlast, .cons hb.mem ?_, fun a ha => ?_, by omega⟩
      · simp [hrest]
      · rw [show links.parent b = p.id from hid.symm]
        exact hpath
      · rcases mem_cons.mp ha with rfl | ha
        · exact hlt
        · exact habove a ha
    · exact ⟨[], b, rfl, hb, .nil, fun a ha => absurd ha not_mem_nil, by omega⟩

/-- Two paths that end at the same block, and share at most the blocks that are built on it. -/
structure Branches (index : List BlockState) (first second bottom : BlockId)
    (branches : List BlockState × List BlockState) : Prop where
  first : links.Path index bottom first branches.1
  second : links.Path index bottom second branches.2
  nonempty : branches.2 ≠ []
  shared : ∀ a ∈ branches.1, ∀ b ∈ branches.2, a.id = b.id → a.previous = bottom

/-- Paths from two blocks of one height that are apart stay apart when each is extended by a
    block. -/
theorem apart_cons (hne : a.id ≠ b.id) (hnum : a.blockNum = b.blockNum) {F S : List BlockState}
    (hF : ∀ x ∈ F, x.blockNum < a.blockNum) (hS : ∀ y ∈ S, y.blockNum < b.blockNum)
    (hapart : ∀ x ∈ F, ∀ y ∈ S, x.id ≠ y.id) : ∀ x ∈ a :: F, ∀ y ∈ b :: S, x.id ≠ y.id := by
  intro x hx y hy heq
  have hheight : x.blockNum = y.blockNum := congrArg BlockId.num heq
  rcases mem_cons.mp hx with rfl | hx
  · rcases mem_cons.mp hy with rfl | hy
    · exact hne heq
    · have hlt := hS y hy
      omega
  · rcases mem_cons.mp hy with rfl | hy
    · have hlt := hF x hx
      omega
    · exact hapart x hx y hy heq

/-- Two blocks of one height: the branches share nothing, unless they end at once. -/
theorem descendBoth_spec (hids : (db.index.map links.key).Nodup) (ha : Linked db base a)
    (hb : Linked db base b) (hnum : a.blockNum = b.blockNum) (hfuel : a.blockNum < fuel) :
    ∃ branches bottom, db.descendBoth fuel a b = some branches ∧
      links.Path db.index bottom a.id branches.1 ∧ links.Path db.index bottom b.id branches.2 ∧
      branches.1 ≠ [] ∧ branches.2 ≠ [] ∧
      ((∀ x ∈ branches.1, ∀ y ∈ branches.2, x.id ≠ y.id) ∨ branches = ([a], [b])) := by
  induction fuel generalizing a b with
  | zero => cases hfuel
  | succ _ ih =>
    unfold ForkDb.descendBoth
    split_ifs with hne
    · obtain ⟨p, hp, hpget, hpid, hpnum⟩ := ha.parent hids hb (Nat.le_of_eq hnum.symm) fun _ => hne
      obtain ⟨q, hq, hqget, hqid, hqnum⟩ := hb.parent hids ha (Nat.le_of_eq hnum) fun _ => hne.symm
      obtain ⟨branches, bottom, hrest, hfirst, hsecond, _, _, hshared⟩ :=
        ih hp hq (by omega) (by omega)
      have hapart : ∀ x ∈ branches.1, ∀ y ∈ branches.2, x.id ≠ y.id := by
        rcases hshared with hapart | hends
        · exact hapart
        · intro x hx y hy
          rw [hends] at hx hy
          rw [mem_singleton.mp hx, mem_singleton.mp hy, hpid, hqid]
          exact hne
      refine ⟨(a :: branches.1, b :: branches.2), bottom, ?_, .cons ha.mem ?_, .cons hb.mem ?_,
        cons_ne_nil _ _, cons_ne_nil _ _, .inl (apart_cons ?_ hnum ?_ ?_ hapart)⟩
      · rw [hpget, hqget]
        simp [hrest]
      · rw [show links.parent a = p.id from hpid.symm]
        exact hfirst
      · rw [show links.parent b = q.id from hqid.symm]
        exact hsecond
      · intro heq
        have hsame : a = b := inj_on_of_nodup_map hids ha.mem hb.mem heq
        exact hne (congrArg BlockState.previous hsame)
      · intro x hx
        have hle : x.blockNum ≤ p.blockNum := (hfirst.below_of_mem hx).1.height_le
        omega
      · intro y hy
        have hle : y.blockNum ≤ q.blockNum := (hsecond.below_of_mem hy).1.height_le
        omega
    · have hprevious : a.previous = b.previous := not_not.mp hne
      refine ⟨([a], [b]), a.previous, rfl, .cons ha.mem .nil, .cons hb.mem ?_,
        cons_ne_nil _ _, cons_ne_nil _ _, .inr rfl⟩
      rw [hprevious]
      exact .nil

/-- **`fetch_branch_from`** of two stored blocks that are linked to a common one: a block in both
    branches is the last of both, and is one of the two blocks itself. -/
theorem fetchBranchFrom_spec (hids : (db.index.map links.key).Nodup) (ha : Linked db base a)
    (hb : Linked db base b) :
    ∃ branches bottom, db.fetchBranchFrom a.id b.id = some branches ∧ branches.1 ≠ [] ∧
      Branches db.index a.id b.id bottom branches ∧
      ∀ x ∈ branches.1, ∀ y ∈ branches.2, x.id = y.id → x = a ∨ x = b := by
  obtain ⟨above, a', hdown, ha', hpath, habove, hmin⟩ :=
    descendTo_spec hids ha hb (Nat.lt_succ_self a.blockNum)
  obtain ⟨above', b', hdown', hb', hpath', habove', hmin'⟩ :=
    descendTo_spec hids hb ha' (Nat.lt_succ_self b.blockNum)
  have hnum : a'.blockNum = b'.blockNum := by omega
  obtain ⟨branches, bottom, hboth, hfirst, hsecond, hne, hne', hshared⟩ :=
    descendBoth_spec hids ha' hb' hnum (Nat.lt_succ_self a'.blockNum)
  -- what is in both branches is below the steps that level the heights
  have hends : ∀ x ∈ above ++ branches.1, ∀ y ∈ above' ++ branches.2, x.id = y.id →
      x = a' ∧ y = b' ∧ branches.1 = [a'] := by
    intro x hx y hy heq
    have hheight : x.blockNum = y.blockNum := congrArg BlockId.num heq
    have hyle : y.blockNum ≤ b.blockNum := ((hpath'.append hsecond).below_of_mem hy).1.height_le
    rcases mem_append.mp hx with hx | hx
    · have hlt := habove x hx
      omega
    · have hle : x.blockNum ≤ a'.blockNum := (hfirst.below_of_mem hx).1.height_le
      rcases mem_append.mp hy with hy | hy
      · have hlt := habove' y hy
        omega
      · rcases hshared with hapart | hends
        · exact absurd heq (hapart x hx y hy)
        · rw [hends] at hx hy
          exact ⟨mem_singleton.mp hx, mem_singleton.mp hy, congrArg Prod.fst hends⟩
  refine ⟨(above ++ branches.1, above' ++ branches.2), bottom, ?_,
    append_ne_nil_of_right_ne_nil _ hne, ?_, ?_⟩
  · unfold ForkDb.fetchBranchFrom
    rw [(getBlock_eq_some hids).mpr ⟨ha.mem, rfl⟩, (getBlock_eq_some hids).mpr ⟨hb.mem, rfl⟩]
    simp [hdown, hdown', hboth]
  · constructor
    case first => exact hpath.append hfirst
    case second => exact hpath'.append hsecond
    case nonempty => exact append_ne_nil_of_right_ne_nil _ hne'
    case shared =>
      intro x hx y hy heq
      obtain ⟨rfl, _, hsingle⟩ := hends x hx y hy heq
      rw [hsingle] at hfirst
      exact hfirst.parent_getLast rfl
  · intro x hx y hy heq
    obtain ⟨rfl, rfl, _⟩ := hends x hx y hy heq
    rcases Nat.le_total a.blockNum b.blockNum with hle | hle
    · left
      refine inj_on_of_nodup_map hids ha'.mem ha.mem
        (hpath.below_top.eq_of_height_le ?_).symm
      show a.blockNum ≤ x.blockNum
      omega
    · right
      refine inj_on_of_nodup_map hids ha'.mem hb.mem
        (heq.trans (hpath'.below_top.eq_of_height_le ?_).symm)
      show b.blockNum ≤ y.blockNum
      omega

/-- `fetch_branch_from` of two stored blocks that have a common ancestor, all blocks after which
    are stored: the two branches start with the blocks and go from block to parent, their last
    blocks have the same previous one, and a block in both is the last of both.  The last blocks
    are the same if and only if one of the two blocks descends from the other. -/
theorem fetch_branch_from_two_sides (hids : (db.index.map links.key).Nodup) {x y : BlockState}
    (hx : x ∈ db.index) (hy : y ∈ db.index) (hxbase : links.Below db.index base x.id)
    (hybase : links.Below db.index base y.id) :
    ∃ F S, db.fetchBranchFrom x.id y.id = some (F, S) ∧ F.head? = some x ∧ S.head? = some y ∧
      F.IsChain (fun a b => b.id = a.previous) ∧ S.IsChain (fun a b => b.id = a.previous) ∧
      (∃ a b, F.getLast? = some a ∧ S.getLast? = some b ∧ a.previous = b.previous) ∧
      (∀ c ∈ F, c ∈ S → F.getLast? = some c ∧ S.getLast? = some c) ∧
      (F.getLast? = S.getLast? ↔
        links.Below db.index x.id y.id ∨ links.Below db.index y.id x.id) := by
  obtain ⟨⟨F, S⟩, bottom, hfetch, hF, hbranches, hone⟩ :=
    fetchBranchFrom_spec hids ⟨hx, hxbase⟩ ⟨hy, hybase⟩
  have hS := hbranches.nonempty
  have hfirst : links.Path db.index bottom x.id F := hbranches.first
  have hsecond : links.Path db.index bottom y.id S := hbranches.second
  have hxF : F.head? = some x := hfirst.head?_eq hids hx hF
  have hyS : S.head? = some y := hsecond.head?_eq hids hy hS
  have hshared : ∀ c ∈ F, c ∈ S → F.getLast? = some c ∧ S.getLast? = some c := by
    intro c hcF hcS
    have hprevious : c.previous = bottom := hbranches.shared c hcF c hcS rfl
    exact ⟨hfirst.getLast?_of_parent hids hcF hprevious,
      hsecond.getLast?_of_parent hids hcS hprevious⟩
  have hlow : bottom.num < x.blockNum ∧ bottom.num < y.blockNum :=
    ⟨hfirst.height_lt hF, hsecond.height_lt hS⟩
  refine ⟨F, S, hfetch, hxF, hyS, hfirst.isChain, hsecond.isChain, ?_, hshared, ?_, ?_⟩
  · obtain ⟨a, ha⟩ := Option.isSome_iff_exists.mp (getLast?_isSome.mpr hF)
    obtain ⟨b, hb⟩ := Option.isSome_iff_exists.mp (getLast?_isSome.mpr hS)
    exact ⟨a, b, ha, hb, (hfirst.parent_getLast ha).trans (hsecond.parent_getLast hb).symm⟩
  · intro hlast
    obtain ⟨a, ha⟩ := Option.isSome_iff_exists.mp (getLast?_isSome.mpr hF)
    have haF : a ∈ F := mem_of_getLast? ha
    have haS : a ∈ S := mem_of_getLast? (hlast ▸ ha)
    rcases hone a haF a haS rfl with rfl | rfl
    · exact .inl (hsecond.below_of_mem haS).1
    · exact .inr (hfirst.below_of_mem haF).1
  · rintro (hdown | hdown)
    · obtain ⟨a, ha, hid⟩ := hsecond.exists_of_below hids hdown hlow.1
      have hax : a = x := inj_on_of_nodup_map hids (hsecond.mem_nodes ha) hx hid
      obtain ⟨hlastF, hlastS⟩ := hshared x (mem_of_mem_head? hxF) (hax ▸ ha)
      rw [hlastF, hlastS]
    · obtain ⟨a, ha, hid⟩ := hfirst.exists_of_below hids hdown hlow.2
      have hay : a = y := inj_on_of_nodup_map hids (hfirst.mem_nodes ha) hy hid
      obtain ⟨hlastF, hlastS⟩ := hshared y (hay ▸ ha) (mem_of_mem_head? hyS)
      rw [hlastF, hlastS]

def forkBlock (num hash previous : Nat) : BlockState :=
  ⟨⟨num + 1, hash⟩, ⟨num, previous⟩, 0, 0, true, false, true, 0, Nat.succ_eq_add_one num⟩

/-- A branch of four blocks and one of two, on a root that is not stored. -/
def forkedDb : ForkDb where
  index := [forkBlock 1 1 0, forkBlock 1 2 0, forkBlock 2 1 1, forkBlock 2 2 2, forkBlock 3 1 1,
    forkBlock 4 1 1]
  head := none
  inserted := 6

/-- From either side: the higher branch is followed down first, then both. -/
theorem fetch_branch_from_two_sides_sample :
    (∃ F S, forkedDb.fetchBranchFrom ⟨5, 1⟩ ⟨3, 2⟩ = some (F, S) ∧ F.length = 4 ∧ S.length = 2 ∧
      ∃ a b, F.getLast? = some a ∧ S.getLast? = some b ∧ a.previous = b.previous) ∧
    ∃ F S, forkedDb.fetchBranchFrom ⟨3, 2⟩ ⟨5, 1⟩ = some (F, S) ∧ F.length = 2 ∧ S.length = 4 ∧
      F.getLast? ≠ S.getLast? := by
  have hids : (forkedDb.index.map links.key).Nodup := by decide
  have hbase : ∀ b ∈ forkedDb.index, links.Below forkedDb.index ⟨1, 0⟩ b.id := by
    intro b hb
    rw [links.below_iff_reaches hids (Nat.le_refl _)]
    revert b
    decide
  have hx : forkBlock 4 1 1 ∈ forkedDb.index := by decide
  have hy : forkBlock 2 2 2 ∈ forkedDb.index := by decide
  obtain ⟨F, S, hfetch, _, _, _, _, hlast, _⟩ :=
    fetch_branch_from_two_sides hids hx hy (hbase _ hx) (hbase _ hy)
  obtain ⟨F', S', hfetch', _, _, _, _, _, _, hapart⟩ :=
    fetch_branch_from_two_sides hids hy hx (hbase _ hy) (hbase _ hx)
  have hlengths : (forkedDb.fetchBranchFrom ⟨5, 1⟩ ⟨3, 2⟩).map (fun p => (p.1.length, p.2.length)) =
      some (4, 2) := by decide
  have hlengths' : (forkedDb.fetchBranchFrom ⟨3, 2⟩ ⟨5, 1⟩).map
      (fun p => (p.1.length, p.2.length)) = some (2, 4) := by decide
  rw [show forkedDb.fetchBranchFrom ⟨5, 1⟩ ⟨3, 2⟩ = _ from hfetch] at hlengths
  rw [show forkedDb.fetchBranchFrom ⟨3, 2⟩ ⟨5, 1⟩ = _ from hfetch'] at hlengths'
  obtain ⟨hF, hS⟩ := Prod.mk.inj (Option.some.inj hlengths)
  obtain ⟨hF', hS'⟩ := Prod.mk.inj (Option.some.inj hlengths')
  refine ⟨⟨F, S, hfetch, hF, hS, hlast⟩, F', S', hfetch', hF', hS', fun hsame => ?_⟩
  have hbelow := hapart.mp hsame
  rw [links.below_iff_reaches hids (Nat.le_refl _),
    links.below_iff_reaches hids (Nat.le_refl _)] at hbelow
  exact absurd hbelow (by decide)

/-- The specification of `fetch_branch_from` in a rooted tree. -/
theorem Tree.fetchBranchFrom_spec (h : Tree base db.index) (ha : a ∈ db.index) (hb : b ∈ db.index) :
    ∃ branches bottom, db.fetchBranchFrom a.id b.id = some branches ∧
      Branches db.index a.id b.id bottom branches := by
  obtain ⟨branches, bottom, hfetch, _, hbranches, _⟩ :=
    Forks.fetchBranchFrom_spec h.ids ⟨ha, h.rooted.below ha⟩ ⟨hb, h.rooted.below hb⟩
  exact ⟨branches, bottom, hfetch, hbranches⟩

end Branches

/-! ## 3. Applied chains -/

/-- The state `s` comes from `root` by the application of the blocks, newest first.  Each of them
    has been executed in one of the first `now` calls. -/
inductive Applied {δ : Type} [UndoSessions δ] (execute : Execution δ) (now : Nat)
    (root : ChainState δ) : List Ref → ChainState δ → Prop where
  | start : Applied execute now root [] root
  | block {refs : List Ref} {s : ChainState δ} {b : Ref} {n : Nat} {status : BlockStatus} {d : δ} :
      Applied execute now root refs s → b.previous = s.head.id → n < now →
      execute n status b.id s.db.current = .ok d → Applied execute now root (b :: refs) (s.extend b d)

namespace Applied

variable {δ : Type} [UndoSessions δ] {execute : Execution δ} {now now' : Nat}
  {root middle s : ChainState δ} {refs refs' : List Ref} {b : Ref}

theorem mono (h : Applied execute now root refs s) (hle : now ≤ now') :
    Applied execute now' root refs s := by
  induction h with
  | start => exact .start
  | block _ hprevious hn hok ih => exact .block ih hprevious (Nat.lt_of_lt_of_le hn hle) hok

/-- What the last block has done. -/
theorem cons_inv (h : Applied execute now root (b :: refs) s) : ∃ middle n status d,
    Applied execute now root refs middle ∧ b.previous = middle.head.id ∧ n < now ∧
      execute n status b.id middle.db.current = .ok d ∧ s = middle.extend b d := by
  cases h with
  | block hrest hprevious hn hok => exact ⟨_, _, _, _, hrest, hprevious, hn, hok, rfl⟩

theorem append (h : Applied execute now middle refs s) (h' : Applied execute now root refs' middle) :
    Applied execute now root (refs ++ refs') s := by
  induction h with
  | start => exact h'
  | block _ hprevious hn hok ih => exact .block ih hprevious hn hok

theorem of_append (h : Applied execute now root (refs ++ refs') s) : ∃ middle,
    Applied execute now root refs' middle ∧ Applied execute now middle refs s := by
  induction refs generalizing s with
  | nil => exact ⟨s, h, .start⟩
  | cons _ _ ih =>
    obtain ⟨s1, n, status, d, hrest, hprevious, hn, hok, rfl⟩ := h.cons_inv
    obtain ⟨middle, hroot, hmiddle⟩ := ih hrest
    exact ⟨middle, hroot, .block hmiddle hprevious hn hok⟩

variable {path : List BlockState}

/-- The head is the top of the path that has been applied. -/
theorem head_id {index : List BlockState} {top : BlockId}
    (h : Applied execute now root (path.map BlockState.ref) s)
    (hpath : links.Path index root.head.id top path) : s.head.id = top := by
  cases hpath with
  | nil =>
    cases h
    rfl
  | cons _ _ =>
    obtain ⟨_, _, _, _, _, _, _, _, rfl⟩ := h.cons_inv
    rfl

theorem exists_head (h : Applied execute now root (path.map BlockState.ref) s)
    (stored : BlockState → Prop) (hroot : ∃ r, stored r ∧ r.ref = root.head)
    (hpath : ∀ a ∈ path, stored a) : ∃ r, stored r ∧ r.ref = s.head := by
  cases path with
  | nil =>
    cases h
    exact hroot
  | cons a =>
    obtain ⟨_, _, _, _, _, _, _, _, rfl⟩ := h.cons_inv
    exact ⟨a, hpath a mem_cons_self, rfl⟩

end Applied

/-! ## 4. Marks -/

/-- The index has the blocks of `stored`, flags aside, and those on the way to `tip` are marked. -/
structure Marked (blocks : List BlockState) (stored : BlockState → Prop) (tip : BlockId)
    (index : List BlockState) : Prop where
  ids : (index.map links.key).Nodup
  sorted : Sorted index
  known : ∀ b ∈ index, ∃ a, stored a ∧ SameBlock b a
  present : ∀ a, stored a → ∃ b ∈ index, SameBlock b a
  marks : ∀ b ∈ index, b.inCurrentChain = true ↔ links.Below blocks b.id tip

namespace Marked

variable {blocks : List BlockState} {stored : BlockState → Prop} {tip tip' : BlockId} {db : ForkDb}

theorem getBlock (h : Marked blocks stored tip db.index) {a : BlockState} (ha : stored a) :
    ∃ b, db.getBlock a.id = some b ∧ SameBlock b a := by
  obtain ⟨b, hb, hsame⟩ := h.present a ha
  exact ⟨b, (getBlock_eq_some h.ids).mpr ⟨hb, hsame.id⟩, hsame⟩

theorem reflagged (h : Marked blocks stored tip db.index) {id : BlockId}
    {f : BlockState → BlockState} {index' : List BlockState}
    (hr : Reflagged db.index id f index') (hf : ∀ b, SameBlock (f b) b)
    (hmarks : ∀ b ∈ db.index, (if b.id = id then f b else b).inCurrentChain = true ↔
      links.Below blocks b.id tip') : Marked blocks stored tip' index' where
  ids := hr.ids hf h.ids
  sorted := hr.sorted
  known := by
    intro b hb
    obtain ⟨a, ha, hsame⟩ := hr.to hf b hb
    obtain ⟨a', ha', hsame'⟩ := h.known a ha
    exact ⟨a', ha', hsame.trans hsame'⟩
  present := by
    intro a ha
    obtain ⟨b, hb, hsame⟩ := h.present a ha
    obtain ⟨b', hb', hsame'⟩ := hr.from hf b hb
    exact ⟨b', hb', hsame'.trans hsame⟩
  marks := by
    intro b hb
    obtain ⟨a, ha, rfl⟩ := mem_map.mp (hr.perm.mem_iff.mp hb)
    rw [(sameBlock_ite hf a).id]
    exact hmarks a ha

variable {t : BlockState}

/-- **`mark_in_current_chain`** of a stored block, when the mark is what the new tip asks for. -/
theorem wp_mark (h : Marked blocks stored tip db.index) (ht : stored t) {inCurrentChain : Bool}
    (htip : inCurrentChain = true ↔ links.Below blocks t.id tip')
    (hothers : ∀ id, id ≠ t.id → (links.Below blocks id tip ↔ links.Below blocks id tip')) :
    Wp (ForkDb.markInCurrentChain t inCurrentChain) db
      (fun _ db' => db'.head = db.head ∧ Marked blocks stored tip' db'.index)
      (fun _ _ => False) := by
  obtain ⟨b, hget, hsame⟩ := h.getBlock ht
  obtain ⟨hb, hid⟩ := (getBlock_eq_some h.ids).mp hget
  unfold ForkDb.markInCurrentChain
  simp only [wp_bind, wp_get, hget, wp_ite, wp_pure, wp_modify]
  constructor
  · intro hflag
    refine ⟨trivial, { h with marks := fun c hc => ?_ }⟩
    by_cases hct : c.id = t.id
    · obtain rfl : c = b := inj_on_of_nodup_map h.ids hc hb (hct.trans hid.symm)
      rw [hflag, hct]
      exact htip
    · exact (h.marks c hc).trans (hothers c.id hct)
  · intro _
    have hr : Reflagged db.index t.id _ (db.remark t.id inCurrentChain).index :=
      reflagged_remark h.ids h.sorted inCurrentChain
    refine ⟨remark_head _ _ _, h.reflagged hr (fun _ => ⟨rfl, rfl, rfl, rfl⟩) fun c hc => ?_⟩
    split_ifs with hct
    · show inCurrentChain = true ↔ _
      rw [hct]
      exact htip
    · exact (h.marks c hc).trans (hothers c.id hct)

theorem wp_unmark (hids : (blocks.map links.key).Nodup) (hmem : t ∈ blocks)
    (h : Marked blocks stored t.id db.index) (ht : stored t) :
    Wp (ForkDb.markInCurrentChain t false) db
      (fun _ db' => db'.head = db.head ∧ Marked blocks stored t.previous db'.index)
      (fun _ _ => False) := by
  refine h.wp_mark ht ?_ fun id hne => ⟨fun hbelow => ?_, fun hbelow => ?_⟩
  · refine ⟨fun hfalse => absurd hfalse Bool.false_ne_true, fun hbelow => ?_⟩
    have hle : t.id.num ≤ t.previous.num := hbelow.height_le
    rw [t.numbered] at hle
    exact absurd hle (Nat.not_succ_le_self _)
  · exact hbelow.parent_of_mem (L := links) hids hmem (Ne.symm hne)
  · exact Links.Below.step (L := links) hbelow hmem

theorem wp_mark_next (hids : (blocks.map links.key).Nodup) (hmem : t ∈ blocks)
    (h : Marked blocks stored t.previous db.index) (ht : stored t) :
    Wp (ForkDb.markInCurrentChain t true) db
      (fun _ db' => db'.head = db.head ∧ Marked blocks stored t.id db'.index)
      (fun _ _ => False) := by
  refine h.wp_mark ht ⟨fun _ => .refl, fun _ => rfl⟩ fun id hne => ⟨fun hbelow => ?_, fun hbelow => ?_⟩
  · exact Links.Below.step (L := links) hbelow hmem
  · exact hbelow.parent_of_mem (L := links) hids hmem (Ne.symm hne)

theorem setValidated (h : Marked blocks stored tip db.index) (id : BlockId) :
    Marked blocks stored tip (db.setValidated id).index := by
  refine h.reflagged (reflagged_setValidated h.sorted) (fun _ => ⟨rfl, rfl, rfl, rfl⟩) fun b hb => ?_
  split
  · exact h.marks b hb
  · exact h.marks b hb

/-- **`set_validity(b, false)`** of a block from which the tip is not reached. -/
theorem wp_invalid (h : Marked blocks (fun b => b ∈ blocks) tip db.index) {f : BlockState}
    (htip : ∃ t ∈ blocks, t.id = tip) (hnot : ¬ links.Below blocks f.id tip) :
    Wp (ForkDb.setValidity f false) db (fun _ db' =>
      Marked blocks (fun b => b ∈ blocks ∧ ¬ links.Below blocks f.id b.id) tip db'.index)
      (fun _ _ => False) := by
  have hbelow : ∀ id, links.Below db.index f.id id ↔ links.Below blocks f.id id := by
    refine fun id => ⟨fun hid => hid.of_forall fun b hb => ?_, fun hid => hid.of_forall fun a ha => ?_⟩
    · obtain ⟨a, ha, hsame⟩ := h.known b hb
      exact ⟨a, ha, hsame.id.symm, hsame.previous.symm⟩
    · obtain ⟨b, hb, hsame⟩ := h.present a ha
      exact ⟨b, hb, hsame.id, hsame.previous⟩
  have hleaves : Leaves db.index f.id := by
    obtain ⟨t, ht, rfl⟩ := htip
    obtain ⟨b, hb, hsame⟩ := h.present t ht
    refine ⟨b, hb, fun hb => hnot ((hbelow _).mp ?_)⟩
    rw [← hsame.id]
    exact hb
  refine (wp_remove h.ids hleaves).returns (fun _ db' => ?_)
  rintro ⟨hindex, _⟩
  have hsub : db'.index.Sublist db.index := hindex ▸ links.remove_sublist h.ids _
  have hmem : ∀ b, b ∈ db'.index ↔ b ∈ db.index ∧ ¬ links.Below blocks f.id b.id := by
    intro b
    rw [hindex, ← hbelow]
    exact links.mem_remove h.ids
  constructor
  case ids => exact h.ids.sublist (hsub.map _)
  case sorted => exact h.sorted.sublist hsub
  case known =>
    intro b hb
    obtain ⟨hb, hkept⟩ := (hmem b).mp hb
    obtain ⟨a, ha, hsame⟩ := h.known b hb
    exact ⟨a, ⟨ha, hsame.id ▸ hkept⟩, hsame⟩
  case present =>
    rintro a ⟨ha, hkept⟩
    obtain ⟨b, hb, hsame⟩ := h.present a ha
    exact ⟨b, (hmem b).mpr ⟨hb, hsame.id ▸ hkept⟩, hsame⟩
  case marks => exact fun b hb => h.marks b ((hmem b).mp hb).1

end Marked

end YottaChain.Forks
