/-
  **A fork switch is all or nothing.**

  Each loop of `maybe_switch_forks` is described by what it does to the applied chain and
  to the marks: popping takes back what the blocks had done, re-applying them brings it
  back, and applying the new branch either succeeds or ends where the switch began.
-/
import YottaChain.ForkRuns
import YottaChain.ForkSwitch

namespace YottaChain.Forks

open Imperative List

/-! ## 1. The loops -/

section Loops

variable {δ : Type} [UndoSessions δ] {execute : Execution δ} {c : Controller δ}
  {blocks : List BlockState}
  {stored : BlockState → Prop} {b : BlockState} {status : BlockStatus}

theorem wp_applyBlock (h : b.previous = c.chain.head.id) :
    Wp (applyBlock execute b status) c
      (fun _ c' => ∃ d, execute c.attempts status b.id c.chain.db.current = .ok d ∧
        c' = { c with chain := c.chain.push b.id d, attempts := c.attempts + 1 })
      (fun e c' => ∃ message, e = .thrown message ∧
        execute c.attempts status b.id c.chain.db.current = .error message ∧
        c' = { c with attempts := c.attempts + 1 }) := by
  unfold applyBlock
  simp only [wp_bind, wp_get, wp_modify, if_pos h.symm]
  cases execute c.attempts status b.id c.chain.db.current with
  | error message => exact ⟨message, rfl, rfl, rfl⟩
  | ok d => exact ⟨d, rfl, rfl⟩

variable {now : Nat} {branch : List BlockState} {tip : BlockId}

/-- **Popping** the blocks that have been applied since `s`. -/
theorem wp_popAll (hids : (blocks.map links.key).Nodup) {s : ChainState δ}
    (happlied : Applied execute now s (branch.map BlockState.ref) c.chain)
    (hpath : links.Path blocks s.head.id tip branch) (hbranch : ∀ a ∈ branch, stored a)
    (hbottom : ∃ r, stored r ∧ r.ref = s.head) (hmarked : Marked blocks stored tip c.forkDb.index) :
    Wp (popAll branch) c
      (fun _ c' => c'.chain = s ∧ c'.attempts = c.attempts ∧ c'.forkDb.head = c.forkDb.head ∧
        Marked blocks stored s.head.id c'.forkDb.index) (fun _ _ => False) := by
  induction branch generalizing c tip with
  | nil =>
    cases hpath
    generalize hchain : c.chain = s' at happlied
    cases happlied
    exact ⟨hchain, rfl, rfl, hmarked⟩
  | cons t branch ih =>
    cases hpath with
    | cons ht hrest =>
      obtain ⟨middle, _, _, d, hmiddle, hprevious, _, _, hchain⟩ := happlied.cons_inv
      have hstays : ∀ a ∈ branch, stored a := fun a ha => hbranch a (mem_cons_of_mem _ ha)
      obtain ⟨r, hr, href⟩ := hmiddle.exists_head stored hbottom hstays
      unfold popAll
      simp only [wp_bind, onForkDb, wp_zoom]
      refine (hmarked.wp_unmark hids ht (hbranch t mem_cons_self)).returns ?_
      rintro _ db' ⟨hhead, hmarked'⟩
      obtain ⟨prev, hget, hsame⟩ := hmarked'.getBlock hr
      have hprev : prev.ref = middle.head := by
        rw [← href, BlockState.ref, hsame.id, hsame.previous]
        rfl
      have hid : c.chain.head.previous = r.id := by
        rw [hchain]
        exact hprevious.trans (congrArg Ref.id href.symm)
      unfold popBlock
      simp only [wp_bind, wp_get, hid, hget, wp_modify]
      have hpop : c.chain.pop prev.ref = middle := by
        rw [hchain, hprev]
        exact middle.pop_extend _ _
      refine (ih (c := { c with forkDb := db', chain := c.chain.pop prev.ref }) ?_ hrest hstays
        hmarked').returns ?_
      · show Applied execute now s _ (c.chain.pop prev.ref)
        rw [hpop]
        exact hmiddle
      · rintro _ c' ⟨hdone, hattempts, hhead', hmarked''⟩
        exact ⟨hdone, hattempts, hhead'.trans hhead, hmarked''⟩

def Repeatable (execute : Execution δ) : Prop :=
  ∀ n m status status' id d d', n < m → execute n status id d = .ok d' →
    execute m status' id d = .ok d'

/-- **Re-applying** the blocks that had been applied since `s` gives what they had given. -/
theorem wp_reapplyAll (hagain : Repeatable execute) (hids : (blocks.map links.key).Nodup)
    {s : ChainState δ} (happlied : Applied execute now c.chain (branch.map BlockState.ref) s)
    (hnow : now ≤ c.attempts) (hpath : links.Path blocks c.chain.head.id tip branch)
    (hbranch : ∀ a ∈ branch, stored a)
    (hmarked : Marked blocks stored c.chain.head.id c.forkDb.index) :
    Wp (reapplyAll execute branch.reverse) c
      (fun _ c' => c'.chain = s ∧ c.attempts ≤ c'.attempts ∧
        Marked blocks stored tip c'.forkDb.index) (fun _ _ => False) := by
  induction branch using List.reverseRecOn generalizing c with
  | nil =>
    cases hpath
    cases happlied
    exact ⟨rfl, Nat.le_refl _, hmarked⟩
  | append_singleton _ b ih =>
    rw [map_append] at happlied
    obtain ⟨middle, hfirst, hrest⟩ := happlied.of_append
    obtain ⟨start, n, status, d, hstart, hprevious, hn, hok, hmiddle⟩ := Applied.cons_inv hfirst
    cases hstart
    obtain ⟨top, hup, hdown⟩ := hpath.of_append
    cases hdown with
    | cons hb =>
      have hagain' := hagain n c.attempts status .validated b.id _ _ (Nat.lt_of_lt_of_le hn hnow) hok
      have hstored : stored b := hbranch b (mem_append_right _ (mem_singleton_self b))
      rw [reverse_append, reverse_singleton, singleton_append]
      unfold reapplyAll
      simp only [wp_bind]
      refine (wp_applyBlock hprevious).mono ?_ ?_
      · rintro _ c1 ⟨d', hok', rfl⟩
        obtain rfl : d = d' := Except.ok.inj (hagain'.symm.trans hok')
        simp only [setHead, wp_modify, onForkDb, wp_zoom]
        have hmarked' : Marked blocks stored b.previous c.forkDb.index := by
          rw [show b.previous = c.chain.head.id from hprevious]
          exact hmarked
        refine (hmarked'.wp_mark_next hids hb hstored).returns ?_
        rintro _ db' ⟨_, hnext⟩
        have hchain : { c.chain.push b.id d with head := b.ref } = middle := hmiddle.symm
        refine (ih (c := ⟨db', { c.chain.push b.id d with head := b.ref }, c.attempts + 1⟩)
          ?_ ?_ ?_ ?_ ?_).returns ?_
        · rw [hchain]
          exact hrest
        · exact Nat.le_succ_of_le hnow
        · exact hup
        · exact fun a ha => hbranch a (mem_append_left _ ha)
        · exact hnext
        · rintro _ c' ⟨hdone, hattempts, hmarked''⟩
          exact ⟨hdone, Nat.le_of_succ_le hattempts, hmarked''⟩
      · rintro _ _ ⟨message, _, herror, _⟩
        cases herror.symm.trans hagain'

def FailedIn (execute : Execution δ) (first last : Nat) (b : BlockState) (message : String) : Prop :=
  ∃ n status d, first ≤ n ∧ n < last ∧ execute n status b.id d = .error message

/-- After a switch: the applied chain, the head and the marks are the path to the new head. -/
structure Switched (execute : Execution δ) (blocks : List BlockState) (root : ChainState δ)
    (newHead : BlockId) (c' : Controller δ) : Prop where
  head : c'.chain.head.id = newHead
  applied : ∃ path, links.Path blocks root.head.id newHead path ∧
    Applied execute c'.attempts root (path.map BlockState.ref) c'.chain
  marked : Marked blocks (fun b => b ∈ blocks) newHead c'.forkDb.index

/-- After a failed switch: the applied chain and the head are the old ones, the block that failed
    is gone with its descendants and nothing else, and the others are marked as before. -/
structure Reverted (execute : Execution δ) (blocks : List BlockState) (first : Nat)
    (old : ChainState δ) (newHead : BlockId) (message : String) (c' : Controller δ) : Prop where
  chain : c'.chain = old
  failed : ∃ failed ∈ blocks, FailedIn execute first c'.attempts failed message ∧
    links.Below blocks failed.id newHead ∧
    Marked blocks (fun b => b ∈ blocks ∧ ¬ links.Below blocks failed.id b.id) old.head.id
      c'.forkDb.index

variable {message : String}

theorem Reverted.mono {first first' : Nat} {old : ChainState δ} {newHead : BlockId}
    (h : Reverted execute blocks first old newHead message c) (hle : first' ≤ first) :
    Reverted execute blocks first' old newHead message c := by
  obtain ⟨failed, hmem, ⟨n, status, d, hfirst, hlast, herror⟩, hbelow, hmarked⟩ := h.failed
  exact ⟨h.chain, failed, hmem, ⟨n, status, d, Nat.le_trans hle hfirst, hlast, herror⟩, hbelow,
    hmarked⟩

/-- **One block of the new branch.** -/
theorem wp_applyNext (hids : (blocks.map links.key).Nodup) (hb : b ∈ blocks)
    (hprevious : b.previous = c.chain.head.id)
    (hmarked : Marked blocks (fun b => b ∈ blocks) c.chain.head.id c.forkDb.index) :
    Wp (applyNext execute b) c
      (fun _ c' => (∃ status d, execute c.attempts status b.id c.chain.db.current = .ok d ∧
          c'.chain = c.chain.extend b.ref d) ∧ c'.attempts = c.attempts + 1 ∧
        c'.forkDb.head = c.forkDb.head ∧ Marked blocks (fun b => b ∈ blocks) b.id c'.forkDb.index)
      (fun e c' => ∃ message, e = .thrown message ∧
        (∃ status, execute c.attempts status b.id c.chain.db.current = .error message) ∧
        c' = { c with attempts := c.attempts + 1 }) := by
  unfold applyNext
  simp only [wp_bind]
  refine (wp_applyBlock hprevious).mono ?_ ?_
  · rintro _ _ ⟨d, hok, rfl⟩
    simp only [setHead, wp_modify, onForkDb, wp_zoom]
    rw [← hprevious] at hmarked
    refine (hmarked.wp_mark_next hids hb hb).returns ?_
    rintro _ db' ⟨hhead, hnext⟩
    exact ⟨⟨_, d, hok, rfl⟩, trivial, hhead, hnext.setValidated b.id⟩
  · rintro _ _ ⟨message, rfl, herror, rfl⟩
    exact ⟨message, rfl, ⟨_, herror⟩, rfl⟩

/-- In the middle of a switch: `second` are the blocks that have been popped, down to `s`, and
    `applied` those of the new branch that are applied on top of it. -/
structure Halfway (execute : Execution δ) (blocks : List BlockState) (now : Nat)
    (old s : ChainState δ) (oldHead : BlockId) (second applied : List BlockState)
    (c : Controller δ) : Prop where
  oldApplied : Applied execute now s (second.map BlockState.ref) old
  now_le : now ≤ c.attempts
  oldPath : links.Path blocks s.head.id oldHead second
  bottom : ∃ r, r ∈ blocks ∧ r.ref = s.head
  newApplied : Applied execute c.attempts s (applied.map BlockState.ref) c.chain
  newPath : links.Path blocks s.head.id c.chain.head.id applied
  marked : Marked blocks (fun b => b ∈ blocks) c.chain.head.id c.forkDb.index

namespace Halfway

variable {old s : ChainState δ} {oldHead newHead : BlockId} {second applied : List BlockState}

theorem next {c' : Controller δ} {d : δ} (h : Halfway execute blocks now old s oldHead second applied c)
    (hb : b ∈ blocks) (hprevious : b.previous = c.chain.head.id)
    (hok : execute c.attempts status b.id c.chain.db.current = .ok d)
    (hchain : c'.chain = c.chain.extend b.ref d) (hattempts : c'.attempts = c.attempts + 1)
    (hmarked : Marked blocks (fun b => b ∈ blocks) b.id c'.forkDb.index) :
    Halfway execute blocks now old s oldHead second (b :: applied) c' := by
  have hid : c'.chain.head.id = b.id := by
    rw [hchain]
    rfl
  refine ⟨h.oldApplied, ?_, h.oldPath, h.bottom, ?_, ?_, ?_⟩
  · rw [hattempts]
    exact Nat.le_succ_of_le h.now_le
  · rw [hchain, hattempts]
    exact .block (h.newApplied.mono (Nat.le_succ _)) hprevious (Nat.lt_succ_self _) hok
  · rw [hid]
    refine .cons hb ?_
    rw [show links.parent b = c.chain.head.id from hprevious]
    exact h.newPath
  · rw [hid]
    exact hmarked

section

variable (hagain : Repeatable execute) (hids : (blocks.map links.key).Nodup)
  (h : Halfway execute blocks now old s oldHead second applied c)

include hagain hids h

/-- A block of the new branch that fails is not on the way to the old head: it would have been
    applied in the same state before. -/
theorem not_below (hb : b ∈ blocks) (hprevious : b.previous = c.chain.head.id)
    (hshared : ∀ y ∈ second, b.id = y.id → b.previous = s.head.id)
    (herror : execute c.attempts status b.id c.chain.db.current = .error message) :
    ¬ links.Below blocks b.id oldHead := by
  intro hbelow
  obtain ⟨hold, hnow, hsecond, _, happlied, hpath, _⟩ := h
  have hlt : s.head.id.num < b.id.num := by
    rw [b.numbered, hprevious]
    exact Nat.lt_succ_of_le hpath.below_top.height_le
  obtain ⟨y, hy, hkey⟩ := hsecond.exists_of_below hids hbelow hlt
  have hyb : y = b := inj_on_of_nodup_map hids (hsecond.mem_nodes hy) hb hkey
  subst hyb
  have hbottom := hshared y hy rfl
  -- nothing is applied yet, and `y` is the lowest block of the old branch
  have hnil : applied = [] := hpath.eq_nil (Nat.le_of_eq (by rw [← hprevious, hbottom]))
  subst hnil
  obtain ⟨newer, older, rfl⟩ := append_of_mem hy
  obtain ⟨top, _, hdown⟩ := hsecond.of_append
  cases hdown with
  | cons _ holder =>
    have hnil : older = [] := holder.eq_nil (Nat.le_of_eq (by
      rw [show links.parent y = s.head.id from hbottom]))
    subst hnil
    rw [map_append] at hold
    obtain ⟨middle, hfirst, _⟩ := hold.of_append
    obtain ⟨start, n, status', d, hstart, _, hn, hok, _⟩ := Applied.cons_inv hfirst
    cases hstart
    generalize hchain : c.chain = chain at happlied herror
    cases happlied
    have hok' := hagain n c.attempts status' status _ _ _ (Nat.lt_of_lt_of_le hn hnow) hok
    cases herror.symm.trans hok'

/-- **Going back**: the failed block is removed with its descendants, which are neither in the
    part that is popped nor in the old branch. -/
theorem wp_switchBack (hb : b ∈ blocks) (hprevious : b.previous = c.chain.head.id)
    (hshared : ∀ y ∈ second, b.id = y.id → b.previous = s.head.id)
    (herror : execute c.attempts status b.id c.chain.db.current = .error message)
    (hnew : links.Below blocks b.id newHead) {Q : Unit → Controller δ → Prop} :
    Wp (switchBack execute second s.head.id applied b message) { c with attempts := c.attempts + 1 }
      Q (fun e c' => ∃ message, e = .thrown message ∧
        Reverted execute blocks c.attempts old newHead message c') := by
  have hhigher : ∀ x : BlockId, x.num ≤ c.chain.head.id.num → ¬ links.Below blocks b.id x := by
    intro x hx hbelow
    have hle : b.id.num ≤ x.num := hbelow.height_le
    rw [b.numbered, hprevious] at hle
    omega
  have hnot := h.not_below hagain hids hb hprevious hshared herror
  obtain ⟨t, ht, htref⟩ := h.newApplied.exists_head (fun b => b ∈ blocks) h.bottom
    fun a ha => h.newPath.mem_nodes ha
  unfold switchBack
  simp only [wp_bind, onForkDb, wp_zoom]
  refine (h.marked.wp_invalid ⟨t, ht, congrArg Ref.id htref⟩ (hhigher _ (Nat.le_refl _))).returns ?_
  intro _ db' hmarked'
  refine (wp_popAll (c := ⟨db', c.chain, c.attempts + 1⟩) hids h.newApplied h.newPath
    (fun a ha => ⟨h.newPath.mem_nodes ha, hhigher _ (h.newPath.below_of_mem ha).1.height_le⟩) ?_
    hmarked').returns ?_
  · obtain ⟨r, hr, href⟩ := h.bottom
    refine ⟨r, ⟨hr, hhigher _ ?_⟩, href⟩
    rw [show r.id = s.head.id from congrArg Ref.id href]
    exact h.newPath.below_top.height_le
  · rintro _ c2 ⟨hchain, hattempts, _, hmarked2⟩
    simp only [requireHead, wp_bind, wp_get, hchain, if_true, wp_pure]
    have hstays : ∀ y ∈ second, y ∈ blocks ∧ ¬ links.Below blocks b.id y.id := by
      refine fun y hy => ⟨h.oldPath.mem_nodes hy, fun hbelow => hnot ?_⟩
      exact hbelow.trans (h.oldPath.below_of_mem hy).1
    have hlater : now ≤ c2.attempts := by
      rw [hattempts]
      exact Nat.le_succ_of_le h.now_le
    refine (wp_reapplyAll hagain hids (hchain ▸ h.oldApplied) hlater (hchain ▸ h.oldPath) hstays
      (hchain ▸ hmarked2)).returns ?_
    rintro _ c' ⟨hdone, hlater, hmarked3⟩
    rw [hattempts] at hlater
    refine ⟨message, rfl, hdone, b, hb, ?_, hnew, h.oldApplied.head_id h.oldPath ▸ hmarked3⟩
    exact ⟨c.attempts, status, c.chain.db.current, Nat.le_refl _, hlater, herror⟩

/-- **Applying the new branch**, with the old one to go back to. -/
theorem wp_applyAll (hbranch : links.Path blocks c.chain.head.id newHead branch.reverse)
    (hshared : ∀ x ∈ branch, ∀ y ∈ second, x.id = y.id → x.previous = s.head.id) :
    Wp (applyAll execute second s.head.id applied branch) c
      (fun _ c' => c'.forkDb.head = c.forkDb.head ∧ c.attempts ≤ c'.attempts ∧
        Switched execute blocks s newHead c')
      (fun e c' => ∃ message, e = .thrown message ∧
        Reverted execute blocks c.attempts old newHead message c') := by
  induction branch generalizing c applied with
  | nil =>
    generalize hhead : c.chain.head.id = head at hbranch
    cases hbranch
    exact ⟨rfl, Nat.le_refl _, hhead, ⟨applied, hhead ▸ h.newPath, h.newApplied⟩, hhead ▸ h.marked⟩
  | cons b _ ih =>
    rw [reverse_cons] at hbranch
    obtain ⟨top, hup, hdown⟩ := hbranch.of_append
    have hprevious : b.previous = c.chain.head.id := by
      generalize c.chain.head.id = head at hdown
      cases hdown with
      | cons _ hnil =>
        generalize hparent : links.parent b = p at hnil
        cases hnil
        exact hparent
    cases hdown with
    | cons hb _ =>
      unfold applyAll
      rw [wp_bind]
      refine wp_catchThrown ?_
      rw [wp_bind]
      refine (wp_applyNext hids hb hprevious h.marked).mono ?_ ?_
      · rintro _ c1 ⟨⟨status, d, hok, hchain⟩, hattempts, hhead, hmarked1⟩
        rw [wp_pure]
        have hid : c1.chain.head.id = b.id := congrArg (fun s => s.head.id) hchain
        refine (ih (h.next hb hprevious hok hchain hattempts hmarked1) (hid ▸ hup)
          fun x hx => hshared x (mem_cons_of_mem _ hx)).mono ?_ ?_
        · rintro _ c' ⟨hhead', hlater, hswitched⟩
          exact ⟨hhead'.trans hhead, Nat.le_of_succ_le (hattempts.symm.trans_le hlater), hswitched⟩
        · rintro _ c' ⟨message, rfl, hreverted⟩
          exact ⟨message, rfl, hreverted.mono (hattempts ▸ Nat.le_succ _)⟩
      · rintro _ _ ⟨message, rfl, ⟨status, herror⟩, rfl⟩
        refine ⟨message, rfl, ?_⟩
        rw [wp_pure]
        exact h.wp_switchBack hagain hids hb hprevious (hshared b mem_cons_self) herror
          hup.below_top

end

end Halfway

end Loops

/-! ## 2. The switch -/

section Switch

variable {δ : Type} [UndoSessions δ] {execute : Execution δ} {base : BlockId}
  {root : ChainState δ} {path : List BlockState} {newHead : BlockState} {c : Controller δ}

def toPop (c : Controller δ) (newHead : BlockState) : List BlockState :=
  if newHead.previous = c.chain.head.id ∨ newHead.id = c.chain.head.id then []
  else ((c.forkDb.fetchBranchFrom newHead.id c.chain.head.id).map Prod.snd).getD []

/-- Before a switch: the blocks of `path` have been applied and can be undone, `newHead` is the
    best block, and the stored blocks of the chain are the marked ones. -/
structure Settled (execute : Execution δ) (base : BlockId) (root : ChainState δ)
    (path : List BlockState) (newHead : BlockState) (c : Controller δ) : Prop where
  tree : Tree base c.forkDb.index
  best : c.forkDb.head = some newHead.id
  newHead_mem : newHead ∈ c.forkDb.index
  root_mem : ∃ r, r ∈ c.forkDb.index ∧ r.ref = root.head
  isPath : links.Path c.forkDb.index root.head.id c.chain.head.id path
  applied : Applied execute c.attempts root (path.map BlockState.ref) c.chain
  marks : ∀ b ∈ c.forkDb.index,
    b.inCurrentChain = true ↔ links.Below c.forkDb.index b.id c.chain.head.id
  undoable : (toPop c newHead).length ≤ path.length

section

variable (h : Settled execute base root path newHead c)

include h

theorem Settled.marked :
    Marked c.forkDb.index (fun b => b ∈ c.forkDb.index) c.chain.head.id c.forkDb.index :=
  ⟨h.tree.ids, h.tree.sorted, fun b hb => ⟨b, hb, .refl b⟩, fun a ha => ⟨a, ha, .refl a⟩, h.marks⟩

theorem Settled.exists_head : ∃ r, r ∈ c.forkDb.index ∧ r.ref = c.chain.head :=
  h.applied.exists_head (fun b => b ∈ c.forkDb.index) h.root_mem
    fun _ ha => h.isPath.mem_nodes ha

/-- The new head is built on the old one: it becomes the head, or is marked as not valid. -/
theorem Settled.wp_extend (s : BlockStatus) (hprevious : newHead.previous = c.chain.head.id) :
    Wp (catchThrown (do
        applyBlock execute newHead s
        onForkDb (ForkDb.markInCurrentChain newHead true)
        onForkDb (ForkDb.setValidity newHead true)
        setHead newHead) fun message => do
          onForkDb (ForkDb.setValidity newHead false)
          throw (.thrown message)) c
      (fun _ c' => c'.forkDb.head = c.forkDb.head ∧
        Switched execute c.forkDb.index root newHead.id c')
      (fun e c' => ∃ message, e = .thrown message ∧
        Reverted execute c.forkDb.index c.attempts c.chain newHead.id message c') := by
  have hmarked := h.marked
  refine wp_catchThrown ?_
  simp only [wp_bind]
  refine (wp_applyBlock hprevious).mono ?_ ?_
  · rintro _ _ ⟨d, hok, rfl⟩
    simp only [onForkDb, wp_zoom]
    rw [← hprevious] at hmarked
    refine (hmarked.wp_mark_next h.tree.ids h.newHead_mem h.newHead_mem).returns ?_
    rintro _ db' ⟨hhead, hnext⟩
    refine ⟨hhead, rfl, ⟨newHead :: path, .cons h.newHead_mem ?_, ?_⟩, hnext.setValidated newHead.id⟩
    · rw [show links.parent newHead = c.chain.head.id from hprevious]
      exact h.isPath
    · exact .block (h.applied.mono (Nat.le_succ _)) hprevious (Nat.lt_succ_self _) hok
  · rintro _ _ ⟨message, rfl, herror, rfl⟩
    refine ⟨message, rfl, ?_⟩
    simp only [onForkDb, wp_zoom, wp_throw]
    obtain ⟨r, hr, href⟩ := h.exists_head
    have hnot : ¬ links.Below c.forkDb.index newHead.id c.chain.head.id := by
      intro hbelow
      have hle : newHead.id.num ≤ c.chain.head.id.num := hbelow.height_le
      rw [newHead.numbered, hprevious] at hle
      exact absurd hle (Nat.not_succ_le_self _)
    refine (hmarked.wp_invalid ⟨r, hr, congrArg Ref.id href⟩ hnot).returns ?_
    intro _ db' hmarked'
    exact ⟨message, rfl, rfl, newHead, h.newHead_mem,
      ⟨c.attempts, s, c.chain.db.current, Nat.le_refl _, Nat.lt_succ_self _, herror⟩, .refl, hmarked'⟩

end

/-- **A fork switch is all or nothing.**  If it returns, the applied chain, the head and the marks
    are the path to the head of the fork database.  If it throws, they are what they were, and of
    the stored blocks the one that failed is gone with its descendants.  It does nothing else. -/
theorem fork_switch_all_or_nothing (hagain : Repeatable execute)
    (h : Settled execute base root path newHead c) (s : BlockStatus) :
    Wp (maybeSwitchForks execute s) c
      (fun _ c' => c'.forkDb.head = c.forkDb.head ∧
        Switched execute c.forkDb.index root newHead.id c')
      (fun e c' => ∃ message, e = .thrown message ∧
        Reverted execute c.forkDb.index c.attempts c.chain newHead.id message c') := by
  have hbest : c.forkDb.head.bind c.forkDb.getBlock = some newHead := by
    rw [h.best]
    exact (getBlock_eq_some h.tree.ids).mpr ⟨h.newHead_mem, rfl⟩
  unfold maybeSwitchForks
  simp only [wp_bind, wp_get, hbest]
  split
  · rename_i hprevious
    exact h.wp_extend s hprevious
  · rename_i hprevious
    split
    · rename_i hother
      obtain ⟨r, hr, href⟩ := h.exists_head
      have hid : r.id = c.chain.head.id := congrArg Ref.id href
      obtain ⟨⟨first, second⟩, bottom, hfetch, hbranches⟩ :=
        h.tree.fetchBranchFrom_spec h.newHead_mem hr
      rw [hid] at hfetch hbranches
      have hundoable := h.undoable
      rw [toPop, if_neg (not_or.mpr ⟨hprevious, hother⟩), hfetch] at hundoable
      obtain ⟨rest, hrest, hdown⟩ := hbranches.second.exists_append h.tree.ids h.isPath hundoable
      have happlied := h.applied
      rw [hrest, map_append] at happlied
      obtain ⟨middle, hmiddle, hsecond⟩ := happlied.of_append
      have hbottom : middle.head.id = bottom := hmiddle.head_id hdown
      rw [← hbottom] at hdown
      have hfirstPath := hbranches.first
      have hsecondPath := hbranches.second
      rw [← hbottom] at hfirstPath hsecondPath
      have hbase : ∃ r, r ∈ c.forkDb.index ∧ r.ref = middle.head :=
        hmiddle.exists_head (fun b => b ∈ c.forkDb.index) h.root_mem
          fun _ ha => hdown.mem_nodes ha
      cases hlast : second.getLast? with
      | none => exact absurd (getLast?_eq_none_iff.mp hlast) hbranches.nonempty
      | some last =>
        have hprevious' : last.previous = middle.head.id := hsecondPath.parent_getLast hlast
        simp only [hfetch, hlast, wp_bind]
        refine (wp_popAll h.tree.ids hsecond hsecondPath (fun _ ha => hsecondPath.mem_nodes ha) hbase
          h.marked).returns ?_
        rintro _ c₁ ⟨hchain, hattempts, hhead, hmarked⟩
        simp only [requireHead, wp_bind, wp_get, hchain, hprevious', if_true, wp_pure]
        have hnewPath : links.Path c.forkDb.index c₁.chain.head.id newHead.id first.reverse.reverse := by
          rw [hchain, reverse_reverse]
          exact hfirstPath
        have hshared : ∀ x ∈ first.reverse, ∀ y ∈ second, x.id = y.id →
            x.previous = middle.head.id := by
          intro x hx y hy heq
          rw [hbottom]
          exact hbranches.shared x (mem_reverse.mp hx) y hy heq
        have hhalf : Halfway execute c.forkDb.index c.attempts c.chain middle c.chain.head.id second
            [] c₁ :=
          ⟨hsecond, Nat.le_of_eq hattempts.symm, hsecondPath, hbase, hchain ▸ .start, hchain ▸ .nil,
            hchain ▸ hmarked⟩
        refine (hhalf.wp_applyAll hagain h.tree.ids hnewPath hshared).mono ?_ ?_
        · rintro _ c' ⟨hhead', hlater, hswitched⟩
          obtain ⟨branch, hbranch, happlied'⟩ := hswitched.applied
          refine ⟨hhead'.trans hhead, hswitched.head, ⟨branch ++ rest, hbranch.append hdown, ?_⟩,
            hswitched.marked⟩
          rw [map_append]
          exact happlied'.append (hmiddle.mono (hattempts ▸ hlater))
        · rintro _ c' ⟨message, rfl, hreverted⟩
          exact ⟨message, rfl, hattempts ▸ hreverted⟩
    · rename_i hsame
      have hid : c.chain.head.id = newHead.id := (not_not.mp hsame).symm
      refine ⟨rfl, hid, ⟨path, hid ▸ h.isPath, h.applied⟩, hid ▸ h.marked⟩

end Switch

def sampleExecution : Execution (List BlockId) := fun _ _ id log =>
  if id.hash = 9 then .error "bad block" else .ok (id :: log)

def sampleRoot : ChainState (List BlockId) := ⟨⟨⟨1, 0⟩, ⟨0, 0⟩⟩, UndoSessions.fresh [], []⟩

def sampleController : Controller (List BlockId) where
  forkDb := ⟨[{ sampleBlock 0 0 0 0 with inCurrentChain := true },
    { sampleBlock 1 1 0 0 with inCurrentChain := true }, sampleBlock 1 2 0 0, sampleBlock 2 9 2 0],
    some ⟨3, 9⟩, 4⟩
  chain := sampleRoot.extend ⟨⟨2, 1⟩, ⟨1, 0⟩⟩ [⟨2, 1⟩]
  attempts := 1

theorem sampleController_settled : Settled sampleExecution ⟨0, 0⟩ sampleRoot
    [{ sampleBlock 1 1 0 0 with inCurrentChain := true }] (sampleBlock 2 9 2 0)
    sampleController := by
  have hids : (sampleController.forkDb.index.map links.key).Nodup := by decide
  constructor
  case tree =>
    refine ⟨hids, ?_, ?_⟩
    · unfold Sorted
      decide
    · unfold Links.Rooted Links.Linked
      decide
  case best => rfl
  case newHead_mem => decide
  case root_mem => exact ⟨_, mem_cons_self, rfl⟩
  case isPath => exact .cons (mem_cons_of_mem _ mem_cons_self) .nil
  case applied =>
    have hok : sampleExecution 0 .complete ⟨2, 1⟩ [] = .ok [⟨2, 1⟩] := rfl
    exact .block .start rfl Nat.zero_lt_one hok
  case marks =>
    intro b hb
    rw [links.below_iff_reaches hids (Nat.le_refl _)]
    revert b
    decide
  case undoable => decide

theorem fork_switch_all_or_nothing_sample : ∃ c',
    maybeSwitchForks sampleExecution .complete sampleController = .error (.thrown "bad block") c' ∧
    Reverted sampleExecution sampleController.forkDb.index 1 sampleController.chain ⟨3, 9⟩
      "bad block" c' := by
  have hagain : Repeatable sampleExecution := fun _ _ _ _ _ _ _ _ hok => hok
  have hwp := fork_switch_all_or_nothing hagain sampleController_settled .complete
  have hended : failed (fun _ => ()) (maybeSwitchForks sampleExecution .complete sampleController) =
      some (.thrown "bad block", ()) := by decide +kernel
  obtain ⟨c', hrun, _⟩ := exists_of_failed hended
  obtain ⟨message, hmessage, hreverted⟩ := hwp.of_error hrun
  cases hmessage
  exact ⟨c', hrun, hreverted⟩

end YottaChain.Forks
