/-
  **The fork database over whole runs.**

  A run is a sequence of calls; the blocks for which the signal `irreversible` is emitted
  are kept.  Every legal call that prunes safely keeps the tree, the head and the chain
  of the emitted blocks (`Sound.wp_run`).
-/
import YottaChain.Checked
import YottaChain.ForkPruning

namespace YottaChain.Forks

open Imperative List

/-! ## 1. Runs -/

def record (b : BlockState) : EStateM Failure (List BlockState) Unit :=
  modify fun emitted => b :: emitted

abbrev World : Type := ForkDb × List BlockState

inductive Op where
  | add (n : BlockState) (skipValidatePrevious : Bool)
  | remove (id : BlockId)
  | setValidity (h : BlockState) (valid : Bool)
  | markInCurrentChain (h : BlockState) (inCurrentChain : Bool)

def Op.run : Op → SignalM (List BlockState) Unit
  | .add n skipValidatePrevious => do
      let _ ← ForkDb.add record n skipValidatePrevious
      pure ()
  | .remove id => ForkDb.onDb (ForkDb.remove id)
  | .setValidity h valid => ForkDb.onDb (ForkDb.setValidity h valid)
  | .markInCurrentChain h inCurrentChain => ForkDb.onDb (ForkDb.markInCurrentChain h inCurrentChain)

/-- After `set` of one block. -/
def started (root : BlockState) : World := (⟨[{ root with arrival := 0 }], some root.id, 1⟩, [])

example (root : BlockState) : ForkDb.set root ⟨[], none, 0⟩ = .ok () (started root).1 := rfl

def Op.Ends (op : Op) (w w' : World) : Prop :=
  op.run w = .ok () w' ∨ ∃ message, op.run w = .error (.thrown message) w'

def Step (allowed : World → Op → Prop) (w w' : World) : Prop := ∃ op, allowed w op ∧ op.Ends w w'

def Legal (w : World) : Op → Prop
  | .add n _ => (∃ p ∈ w.1.index, p.id = n.previous) ∧ n.dposIrreversibleBlocknum ≤ n.blockNum ∧
      (w.1.getBlock n.id = none → Survives (w.1.insert n).index)
  | .remove id => Leaves w.1.index id
  | .setValidity h valid => valid = false → Leaves w.1.index h.id
  | .markInCurrentChain _ _ => True

/-- The iterator of `prune` is not followed to a block that is gone. -/
def SafeOp (w : World) : Op → Prop
  | .add n _ => w.1.getBlock n.id = none → Safe (w.1.insert n).index
  | _ => True

/-! ## 2. Flags -/

section Reflag

variable {base id : BlockId} {index index' : List BlockState} {f : BlockState → BlockState}

section

variable (hr : Reflagged index id f index') (hf : ∀ b, SameBlock (f b) b)

include hr hf

theorem Reflagged.to : ∀ b ∈ index', ∃ a ∈ index, SameBlock b a := by
  intro b hb
  obtain ⟨a, ha, rfl⟩ := mem_map.mp (hr.perm.mem_iff.mp hb)
  exact ⟨a, ha, sameBlock_ite hf a⟩

theorem Reflagged.from : ∀ a ∈ index, ∃ b ∈ index', SameBlock b a := by
  intro a ha
  exact ⟨_, hr.perm.mem_iff.mpr (mem_map_of_mem ha), sameBlock_ite hf a⟩

theorem Reflagged.ids (hids : (index.map links.key).Nodup) : (index'.map links.key).Nodup := by
  have hkeys : (index.map fun b => if b.id = id then f b else b).map links.key =
      index.map links.key := by
    rw [map_map]
    exact map_congr_left fun a _ => (sameBlock_ite hf a).id
  rw [(hr.perm.map links.key).nodup_iff, hkeys]
  exact hids

end

theorem Shape.reflagged (h : Shape base index) (hr : Reflagged index id f index')
    (hf : ∀ b, SameBlock (f b) b) : Shape base index' where
  ids := hr.ids hf h.ids
  sorted := hr.sorted
  rooted := by
    refine h.rooted.of_forall (fun b hb => ?_) fun a ha => ?_
    · obtain ⟨a, ha, hsame⟩ := hr.to hf b hb
      exact ⟨a, ha, hsame.id, hsame.previous⟩
    · obtain ⟨b, hb, hsame⟩ := hr.from hf a ha
      exact ⟨b, hb, hsame.id⟩
  bounded := by
    intro b hb
    obtain ⟨a, ha, hsame⟩ := hr.to hf b hb
    rw [hsame.dpos, BlockState.blockNum, hsame.id]
    exact h.bounded a ha

theorem HeadOk.reflagged {db db' : ForkDb} (h : HeadOk db) (hr : Reflagged db.index id f db'.index)
    (hhead : db'.head = db.head) (hf : ∀ b, SameBlock (f b) b) : HeadOk db' := by
  obtain ⟨a, ha, hid, hmax⟩ := h
  obtain ⟨b, hb, hsame⟩ := hr.from hf a ha
  refine ⟨b, hb, hhead.trans (hsame.id ▸ hid), fun c hc => ?_⟩
  obtain ⟨d, hd, hsame'⟩ := hr.to hf c hc
  rw [hsame'.libKey, hsame.libKey]
  exact hmax d hd

end Reflag

/-! ## 3. Steps and runs -/

/-- The tree stands on the last emitted block, and the emitted blocks are a chain. -/
structure Sound (base : BlockId) (w : World) : Prop where
  shape : Shape base w.1.index
  head : HeadOk w.1
  chain : w.2.IsChain fun newer older => newer.previous = older.id
  last : ∀ e ∈ w.2.head?, base = e.id

section Steps

variable {base : BlockId} {w w' : World}

theorem Sound.initial {root : BlockState} (hroot : root.dposIrreversibleBlocknum ≤ root.blockNum) :
    Sound root.previous (started root) where
  shape := by
    refine ⟨⟨nodup_singleton _, pairwise_singleton _ _, fun a ha => ?_⟩, fun b hb => ?_⟩
    · rw [mem_singleton.mp ha]
      exact .inl rfl
    · rw [mem_singleton.mp hb]
      exact hroot
  head := ⟨_, mem_singleton_self _, rfl, fun c hc => (mem_singleton.mp hc) ▸ le_refl _⟩
  chain := .nil
  last := fun _ h => nomatch h

theorem Sound.withDb (h : Sound base w) {db : ForkDb} (hshape : Shape base db.index)
    (hhead : HeadOk db) : Sound base (db, w.2) :=
  ⟨hshape, hhead, h.chain, h.last⟩

theorem Sound.wp_remove (h : Sound base w) {id : BlockId} (hleaves : Leaves w.1.index id) :
    Wp (ForkDb.remove id) w.1 (fun _ db' => Sound base (db', w.2)) (fun _ _ => False) := by
  refine (Forks.wp_remove h.shape.ids hleaves).returns ?_
  rintro _ db' ⟨hindex, hhead⟩
  exact h.withDb (hindex ▸ h.shape.remove id) hhead.headOk

theorem Sound.wp_setValidity (h : Sound base w) {b : BlockState} {valid : Bool}
    (hleaves : valid = false → Leaves w.1.index b.id) :
    Wp (ForkDb.setValidity b valid) w.1 (fun _ db' => Sound base (db', w.2)) (fun _ _ => False) := by
  unfold ForkDb.setValidity
  cases valid with
  | false => exact h.wp_remove (hleaves rfl)
  | true =>
    have hr : Reflagged w.1.index b.id _ (w.1.setValidated b.id).index :=
      reflagged_setValidated h.shape.sorted
    have hf : ∀ b : BlockState, SameBlock { b with validated := true } b :=
      fun _ => ⟨rfl, rfl, rfl, rfl⟩
    exact h.withDb (h.shape.reflagged hr hf) (h.head.reflagged hr rfl hf)

theorem remark_head (db : ForkDb) (id : BlockId) (inCurrentChain : Bool) :
    (db.remark id inCurrentChain).head = db.head := by
  unfold ForkDb.remark
  split
  · rfl
  · rfl

theorem Sound.wp_markInCurrentChain (h : Sound base w) (b : BlockState) (inCurrentChain : Bool) :
    Wp (ForkDb.markInCurrentChain b inCurrentChain) w.1 (fun _ db' => Sound base (db', w.2))
      (fun e db' => (∃ message, e = .thrown message) ∧ Sound base (db', w.2)) := by
  unfold ForkDb.markInCurrentChain
  simp only [wp_bind, wp_get]
  cases w.1.getBlock b.id with
  | none =>
    simp only [wp_ite, wp_pure, wp_throw]
    exact ⟨fun _ => h, fun _ => ⟨⟨_, rfl⟩, h⟩⟩
  | some =>
    simp only [wp_ite, wp_pure, wp_modify]
    refine ⟨fun _ => h, fun _ => ?_⟩
    have hr : Reflagged w.1.index b.id _ (w.1.remark b.id inCurrentChain).index :=
      reflagged_remark h.shape.ids h.shape.sorted inCurrentChain
    have hf : ∀ b : BlockState, SameBlock { b with inCurrentChain := inCurrentChain } b :=
      fun _ => ⟨rfl, rfl, rfl, rfl⟩
    exact h.withDb (h.shape.reflagged hr hf) (h.head.reflagged hr (remark_head _ _ _) hf)

theorem Sound.wp_add (h : Sound base w) {n : BlockState} {skipValidatePrevious : Bool}
    (hlegal : Legal w (.add n skipValidatePrevious))
    (hsafe : SafeOp w (.add n skipValidatePrevious)) :
    Wp (ForkDb.add record n skipValidatePrevious) w (fun _ w' => ∃ base', Sound base' w')
      (fun e w' => (∃ message, e = .thrown message) ∧ ∃ base', Sound base' w') := by
  obtain ⟨hparent, hbound, hsurvives⟩ := hlegal
  refine (Forks.wp_add (R := fun b emitted => emitted = b :: w.2)
    (E := fun e w' => (∃ message, e = .thrown message) ∧ ∃ base', Sound base' w')
    h.shape hparent hbound hsurvives hsafe (fun b _ => ?_)
    fun _ => ⟨⟨_, rfl⟩, base, h⟩).mono ?_ fun _ _ hE => hE
  · exact rfl
  rintro _ ⟨db', emitted⟩ ⟨hhead, _, ⟨_, hshape, rfl⟩ | ⟨b, _, hprevious, hshape, rfl⟩⟩
  · exact ⟨base, h.withDb hshape hhead.headOk⟩
  · refine ⟨b.id, hshape, hhead.headOk, ?_, fun e he => ?_⟩
    · refine isChain_cons.mpr ⟨fun e he => ?_, h.chain⟩
      exact hprevious.trans (h.last e he)
    · cases he
      rfl

/-- **One operation.** -/
theorem Sound.wp_run (h : Sound base w) {op : Op} (hlegal : Legal w op) (hsafe : SafeOp w op) :
    Wp op.run w (fun _ w' => ∃ base', Sound base' w')
      (fun e w' => (∃ message, e = .thrown message) ∧ ∃ base', Sound base' w') := by
  cases op with
  | add =>
    simp only [Op.run, wp_bind, wp_pure]
    exact h.wp_add hlegal hsafe
  | remove =>
    simp only [Op.run, ForkDb.onDb, wp_zoom]
    exact (h.wp_remove hlegal).returns (fun _ _ h' => ⟨base, h'⟩)
  | setValidity =>
    simp only [Op.run, ForkDb.onDb, wp_zoom]
    exact (h.wp_setValidity hlegal).returns (fun _ _ h' => ⟨base, h'⟩)
  | markInCurrentChain b inCurrentChain =>
    simp only [Op.run, ForkDb.onDb, wp_zoom]
    refine (h.wp_markInCurrentChain b inCurrentChain).mono (fun _ _ h' => ⟨base, h'⟩) ?_
    rintro e db' ⟨hthrown, h'⟩
    exact ⟨hthrown, base, h'⟩

end Steps

end YottaChain.Forks
