/-
  **Irreversible blocks and the choice of the head.**

  Every run of legal operations keeps the tree, the chain of emitted blocks and the head
  (`Sound`), as long as no iterator of `prune` is followed to a block that is gone.  A run
  of `add` calls alone can lead there: two forks of two blocks each, whose second blocks
  came in the other order than their first ones.
-/
import YottaChain.ForkTree

namespace YottaChain.Forks

open Imperative

/-! ## 1. Runs -/

variable {op : Op} {w : World}

theorem ends_of_wp {P : World → Prop}
    (h : Wp op.run w (fun _ w' => P w') (fun e w' => (∃ message, e = .thrown message) ∧ P w')) :
    ∃ w', op.Ends w w' := by
  cases hrun : op.run w with
  | ok _ w' => exact ⟨w', .inl hrun⟩
  | error _ w' =>
    obtain ⟨⟨message, rfl⟩, _⟩ := h.of_error hrun
    exact ⟨w', .inr ⟨message, hrun⟩⟩

variable {w' : World}

theorem Op.Ends.of_wp {P : World → Prop} (hends : op.Ends w w')
    (h : Wp op.run w (fun _ w' => P w') (fun e w' => (∃ message, e = .thrown message) ∧ P w')) :
    P w' := by
  rcases hends with hrun | ⟨message, hrun⟩
  · exact h.of_ok hrun
  · exact (h.of_error hrun).2

theorem steps_of_safe {allowed : World → Op → Prop}
    (hrun : Run.Steps (Step fun w op => allowed w op ∧ SafeOp w op) w w') :
    Run.Steps (Step allowed) w w' := by
  refine Relation.ReflTransGen.mono ?_ _ _ hrun
  rintro w1 w2 ⟨op, ⟨hallowed, _⟩, hends⟩
  exact ⟨op, hallowed, hends⟩

variable {root : BlockState}

theorem Sound.of_run (hroot : root.dposIrreversibleBlocknum ≤ root.blockNum)
    (hrun : Run.Steps (Step fun w op => Legal w op ∧ SafeOp w op) (started root) w) :
    ∃ base, Sound base w := by
  refine Run.invariant (P := fun w => ∃ base, Sound base w) ?_ ⟨_, .initial hroot⟩ hrun
  rintro w w' ⟨base, h⟩ ⟨op, ⟨hlegal, hsafe⟩, hends⟩
  exact hends.of_wp (h.wp_run hlegal hsafe)

/-! ## 2. Runs of `add` -/

def Descends (index : List BlockState) : Prop :=
  ∀ h ∈ declared index, ∀ head ∈ best index, links.Below index h.id head.id

/-- Blocks are added to stored blocks, the block that is declared irreversible is an ancestor of
    the best one, and the index is not emptied by a removal. -/
def LegalChoice (w : World) : Op → Prop
  | .add n _ => (∃ p ∈ w.1.index, p.id = n.previous) ∧ n.dposIrreversibleBlocknum ≤ n.blockNum ∧
      (w.1.getBlock n.id = none → Descends (w.1.insert n).index)
  | .remove id => Leaves w.1.index id
  | .setValidity h valid => valid = false → Leaves w.1.index h.id
  | .markInCurrentChain _ _ => True

variable {base : BlockId}

/-- The best block is above the declared one, so that it is left. -/
theorem Descends.survives {index : List BlockState} (hshape : Shape base index) (h : Descends index)
    :
    Survives index := by
  intro b hb
  obtain ⟨_, head, hbest, hlt⟩ := declared_spec hb
  have hmem := (best_spec hbest).1
  refine ⟨head, hmem, fun heq => ?_, fun s hs hbelow => ?_⟩
  · have hbound := hshape.bounded head hmem
    have hnum : head.blockNum = b.blockNum := congrArg BlockId.num heq
    omega
  · rw [siblings, List.mem_filter, decide_eq_true_eq] at hs
    exact hs.2.2 (hbelow.eq_of_height hshape.ids (h b hb head hbest) hs.2.1)

theorem LegalChoice.legal (hsound : Sound base w) (h : LegalChoice w op) : Legal w op := by
  cases op with
  | add =>
    obtain ⟨hparent, hbound, hdescends⟩ := h
    exact ⟨hparent, hbound, fun hfresh =>
      (hdescends hfresh).survives (hsound.shape.insert hparent hfresh hbound)⟩
  | remove | setValidity | markInCurrentChain => exact h

/-- What `LegalChoice` asks of an `add`, as a test. -/
def addable (w : World) (n : BlockState) : Bool :=
  let index := (w.1.insert n).index
  w.1.index.any (fun p => decide (p.id = n.previous)) &&
    decide (n.dposIrreversibleBlocknum ≤ n.blockNum) &&
    (declared index).all fun h => (best index).all fun head =>
      links.reaches index h.id index.length head.id

theorem addable_spec {n : BlockState} (h : addable w n = true) (skipValidatePrevious : Bool) :
    LegalChoice w (.add n skipValidatePrevious) := by
  simp only [addable, Bool.and_eq_true, List.any_eq_true, decide_eq_true_eq,
    Option.all_eq_true] at h
  obtain ⟨⟨hparent, hbound⟩, hdescends⟩ := h
  exact ⟨hparent, hbound, fun _ b hb head hhead =>
    Links.below_of_reaches (hdescends b hb head hhead)⟩

/-- In a run of these steps every step is legal. -/
theorem legal_of_choice (hroot : root.dposIrreversibleBlocknum ≤ root.blockNum)
    (hrun : Run.Steps (Step fun w op => LegalChoice w op ∧ SafeOp w op) (started root) w) :
    Run.Steps (Step fun w op => Legal w op ∧ SafeOp w op) (started root) w := by
  refine Run.invariant (P := fun w => Run.Steps (Step fun w op => Legal w op ∧ SafeOp w op)
    (started root) w) ?_ .refl hrun
  rintro w w' hlegal ⟨op, ⟨hchoice, hsafe⟩, hends⟩
  obtain ⟨base, hsound⟩ := Sound.of_run hroot hlegal
  exact hlegal.tail ⟨op, ⟨hchoice.legal hsound, hsafe⟩, hends⟩

def addAll : List BlockState → World → Option World
  | [], w => some w
  | n :: blocks, w =>
      if addable w n && decide (Safe (w.1.insert n).index) then
        match (Op.add n false).run w with
        | .ok _ w' => addAll blocks w'
        | .error _ _ => none
      else none

theorem steps_of_addAll {blocks : List BlockState} (h : addAll blocks w = some w') :
    Run.Steps (Step fun w op => LegalChoice w op ∧ SafeOp w op) w w' := by
  induction blocks generalizing w with
  | nil =>
    cases h
    exact .refl
  | cons n _ ih =>
    unfold addAll at h
    split at h
    · rename_i htest
      obtain ⟨haddable, hsafe⟩ := Bool.and_eq_true_iff.mp htest
      split at h
      · rename_i w1 hadd
        have hallowed : LegalChoice w (.add n false) ∧ SafeOp w (.add n false) :=
          ⟨addable_spec haddable false, fun _ => of_decide_eq_true hsafe⟩
        exact .head ⟨.add n false, hallowed, .inl hadd⟩ (ih h)
      · cases h
    · cases h

/-- The block `hash` on the block `parent` of the height before. -/
def sampleBlock (height hash parent dposIrreversibleBlocknum : Nat) : BlockState :=
  ⟨⟨height + 1, hash⟩, ⟨height, parent⟩, dposIrreversibleBlocknum, 0, false, false, true, 0, rfl⟩

/-- A first block; two blocks on it, of which the first goes on and makes itself irreversible.
    The second blocks of the two forks come in the order of `seconds`. -/
def sampleForks (seconds : List BlockState) : List BlockState :=
  [sampleBlock 1 1 0 0, sampleBlock 1 2 0 0] ++ seconds ++ [sampleBlock 3 1 1 2]

def sampleSeconds : List BlockState := [sampleBlock 2 1 1 0, sampleBlock 2 2 2 0]

def failed {σ α β : Type} (view : σ → β) : EStateM.Result Failure σ α → Option (Failure × β)
  | .ok _ _ => none
  | .error e s => some (e, view s)

theorem exists_of_failed {σ α β : Type} {view : σ → β} {r : EStateM.Result Failure σ α} {e : Failure}
    {v : β} (h : failed view r = some (e, v)) : ∃ s, r = .error e s ∧ view s = v := by
  cases r with
  | ok => cases h
  | error _ s =>
    cases h
    exact ⟨s, rfl, rfl⟩

/-- With the second blocks in the other order, `add` follows an iterator to a block that is
    gone. -/
theorem exists_dangling : ∃ w n w',
    Run.Steps (Step fun w op => LegalChoice w op ∧ SafeOp w op) (started (sampleBlock 0 0 0 0)) w ∧
    LegalChoice w (.add n false) ∧ (Op.add n false).run w = .error .undefined w' := by
  have hview : (addAll (sampleForks sampleSeconds.reverse) (started (sampleBlock 0 0 0 0))).map
      (fun w => (addable w (sampleBlock 4 1 1 3), failed (fun _ => ())
        ((Op.add (sampleBlock 4 1 1 3) false).run w))) = some (true, some (.undefined, ())) := by
    decide +kernel
  obtain ⟨w, hadd, htest⟩ := Option.map_eq_some_iff.mp hview
  obtain ⟨haddable, hended⟩ := Prod.mk.inj htest
  obtain ⟨w', hundefined, _⟩ := exists_of_failed hended
  exact ⟨w, sampleBlock 4 1 1 3, w', steps_of_addAll hadd, addable_spec haddable false, hundefined⟩

/-! ## 3. Irreversible blocks form one chain -/

/-- **Irreversible blocks form one chain.**  In every state that is reached by legal and safe
    operations: another such operation ends; `remove` deletes the block and its descendants and
    nothing else; a block without a stored parent is one of the lowest; the emitted blocks are
    consecutive and each is built on the one before; and every stored block descends from the
    last emitted one. -/
theorem irreversible_blocks_chain {root : BlockState}
    (hroot : root.dposIrreversibleBlocknum ≤ root.blockNum) {db : ForkDb}
    {emitted : List BlockState} (hrun : Run.Steps (Step fun w op => Legal w op ∧ SafeOp w op)
      (started root) (db, emitted)) :
    (∀ op, Legal (db, emitted) op → SafeOp (db, emitted) op → ∃ w', op.Ends (db, emitted) w') ∧
    (∀ id, Leaves db.index id → ∃ db', ForkDb.remove id db = .ok () db' ∧
      ∀ b, b ∈ db'.index ↔ b ∈ db.index ∧ ¬ links.Below db.index id b.id) ∧
    (∀ b ∈ db.index, (∃ p ∈ db.index, p.id = b.previous) ∨
      ∀ c ∈ db.index, b.blockNum ≤ c.blockNum) ∧
    (emitted.IsChain fun newer older =>
      newer.blockNum = older.blockNum + 1 ∧ newer.previous = older.id) ∧
    (∀ last ∈ emitted.head?, ∀ b ∈ db.index,
      b.id ≠ last.id ∧ links.Below db.index last.id b.id) := by
  obtain ⟨base, h⟩ := Sound.of_run hroot hrun
  refine ⟨fun op hlegal hsafe => ends_of_wp (h.wp_run hlegal hsafe), fun id hleaves => ?_,
    fun b hb => h.shape.rooted.lowest hb, ?_, fun last hlast b hb => ?_⟩
  · have hwp := wp_remove h.shape.ids hleaves
    cases hremove : ForkDb.remove id db with
    | ok _ db' =>
      refine ⟨db', rfl, fun b => ?_⟩
      rw [(hwp.of_ok hremove).1]
      exact links.mem_remove h.shape.ids
    | error => exact (hwp.of_error hremove).elim
  · refine h.chain.imp fun newer older hlink => ⟨?_, hlink⟩
    rw [BlockState.blockNum, newer.numbered, hlink]
    rfl
  · rw [← h.last last hlast]
    refine ⟨fun heq => ?_, h.shape.rooted.below hb⟩
    have hlt := h.shape.rooted.height_lt hb
    rw [show links.key b = base from heq] at hlt
    exact absurd hlt (Nat.lt_irrefl _)

theorem irreversible_blocks_chain_sample : ∃ db last first,
    Run.Steps (Step fun w op => Legal w op ∧ SafeOp w op) (started (sampleBlock 0 0 0 0))
      (db, [last, first]) ∧ last.blockNum = first.blockNum + 1 ∧ last.previous = first.id := by
  have hview : (addAll (sampleForks sampleSeconds ++ [sampleBlock 4 1 1 3])
      (started (sampleBlock 0 0 0 0))).map (fun w => w.2.length) = some 2 := by decide +kernel
  obtain ⟨⟨db, emitted⟩, hadd, hlength⟩ := Option.map_eq_some_iff.mp hview
  obtain ⟨last, first, rfl⟩ := List.length_eq_two.mp hlength
  have hrun := legal_of_choice (by decide) (steps_of_addAll hadd)
  obtain ⟨_, _, _, hchain, _⟩ := irreversible_blocks_chain (by decide) hrun
  exact ⟨db, last, first, hrun, (List.isChain_cons_cons.mp hchain).1⟩

/-- A legal `add` that neither returns nor throws. -/
theorem prune_follows_dangling_iterator : ∃ w n w',
    Run.Steps (Step Legal) (started (sampleBlock 0 0 0 0)) w ∧ Legal w (.add n false) ∧
    (Op.add n false).run w = .error .undefined w' := by
  obtain ⟨w, n, w', hrun, hchoice, hundefined⟩ := exists_dangling
  have hlegal := legal_of_choice (by decide) hrun
  obtain ⟨base, hsound⟩ := Sound.of_run (by decide) hlegal
  exact ⟨w, n, w', steps_of_safe hlegal, hchoice.legal hsound, hundefined⟩

/-! ## 4. The choice of the head -/

/-- **Fork choice.**  In every state that is reached by operations of which the additions declare
    only ancestors of the best block irreversible, and are safe: another such operation ends, and
    the head is a stored block than which no stored block is greater. -/
theorem fork_choice {root : BlockState} (hroot : root.dposIrreversibleBlocknum ≤ root.blockNum)
    {db : ForkDb} {emitted : List BlockState}
    (hrun : Run.Steps (Step fun w op => LegalChoice w op ∧ SafeOp w op) (started root)
      (db, emitted)) :
    (∀ op, LegalChoice (db, emitted) op → SafeOp (db, emitted) op →
      ∃ w', op.Ends (db, emitted) w') ∧
    ∃ head ∈ db.index, db.head = some head.id ∧ ∀ b ∈ db.index, b.libKey ≤ head.libKey := by
  obtain ⟨base, h⟩ := Sound.of_run hroot (legal_of_choice hroot hrun)
  exact ⟨fun op hchoice hsafe => ends_of_wp (h.wp_run (hchoice.legal h) hsafe), h.head⟩

theorem fork_choice_sample : ∃ db last emitted,
    Run.Steps (Step fun w op => LegalChoice w op ∧ SafeOp w op) (started (sampleBlock 0 0 0 0))
      (db, last :: emitted) ∧
    ∃ head ∈ db.index, db.head = some head.id ∧ ∀ b ∈ db.index, b.libKey ≤ head.libKey := by
  have hview : (addAll (sampleForks sampleSeconds) (started (sampleBlock 0 0 0 0))).map
      (fun w => w.2.length) = some 1 := by decide +kernel
  obtain ⟨⟨db, emitted⟩, hadd, hlength⟩ := Option.map_eq_some_iff.mp hview
  obtain ⟨last, rfl⟩ := List.length_eq_one_iff.mp hlength
  have hrun := steps_of_addAll hadd
  exact ⟨db, last, [], hrun, (fork_choice (by decide) hrun).2⟩

/-- An `add` after which there is no head to speak of. -/
theorem fork_choice_undefined : ∃ w n w',
    Run.Steps (Step LegalChoice) (started (sampleBlock 0 0 0 0)) w ∧
    LegalChoice w (.add n false) ∧ (Op.add n false).run w = .error .undefined w' := by
  obtain ⟨w, n, w', hrun, hchoice, hundefined⟩ := exists_dangling
  exact ⟨w, n, w', steps_of_safe hrun, hchoice, hundefined⟩

end YottaChain.Forks
