/-
  **BFT finality in the fork database** (`fork_database.cpp`).

  A block that enough producers have confirmed is final, and so is what is built on it.
  `set_bft_irreversible` writes its number into the blocks above it, layer by layer, and goes
  on only from blocks that it has changed.  No block is missed, because a block never has a
  smaller number than the block it is built on (`BftLaw`); a new block takes the number over.
-/
import YottaChain.Checked
import YottaChain.ForkDatabase

namespace YottaChain.Forks

open Imperative List

/-! ## 1. Confirmations -/

def BlockState.lags (num : Nat) (layer : List BlockId) (b : BlockState) : Bool :=
  b.previous ∈ layer ∧ b.bftIrreversibleBlocknum < num

def BlockState.raise (num : Nat) (b : BlockState) : BlockState :=
  { b with bftIrreversibleBlocknum := num }

/-- The container after the lambda `update`; a block has one previous one, so the order of the
    layer does not matter. -/
def updateLayer (num : Nat) (layer : List BlockId) (index : List BlockState) : List BlockState :=
  index.map fun b => if b.lags num layer then b.raise num else b

/-- What `update` returns. -/
def updatedIds (num : Nat) (layer : List BlockId) (index : List BlockState) : List BlockId :=
  (index.filter fun b => b.lags num layer).map BlockState.id

def updateAll (num : Nat) : Nat → List BlockId → List BlockState → Option (List BlockState)
  | _, [], index => some index
  | 0, _ :: _, _ => none
  | fuel + 1, id :: layer, index =>
      updateAll num fuel (updatedIds num (id :: layer) index) (updateLayer num (id :: layer) index)

namespace ForkDb

def setBftIrreversible (id : BlockId) : ForkM Unit := do
  let db ← get
  match db.getBlock id with
  | none => throw .undefined
  | some b =>
      let index := db.index.map fun c => if c.id = id then c.raise b.blockNum else c
      match updateAll b.blockNum (index.length + 1) [id] index with
      | none => throw .undefined
      | some index => modify fun db => { db with index := index }

/-- `add` of a confirmation; whether the block has enough of them then is `quorum`. -/
def addConfirmation (id : BlockId) (quorum : Bool) : ForkM Unit := do
  let db ← get
  match db.getBlock id with
  | none => throw (.thrown "unable to find block id ${id}")
  | some b =>
      if b.bftIrreversibleBlocknum < b.blockNum ∧ quorum then setBftIrreversible id else pure ()

end ForkDb

/-! ## 2. The law -/

/-- A block whose previous one is not stored is built on one of the lowest level or below. -/
structure BftLaw (index : List BlockState) : Prop where
  ids : (index.map links.key).Nodup
  sorted : Sorted index
  linked : ∀ b ∈ index, (∃ p ∈ index, p.id = b.previous) ∨ ∀ c ∈ index, b.previous.num ≤ c.blockNum
  rises : ∀ b ∈ index, ∀ p ∈ index, p.id = b.previous →
    p.bftIrreversibleBlocknum ≤ b.bftIrreversibleBlocknum
  within : ∀ b ∈ index, b.bftIrreversibleBlocknum ≤ b.blockNum

/-- A step of the database.  Handlers of the signal `irreversible` may do anything, and a call
    may end with an exception. -/
inductive BftStep (db db' : ForkDb) : Prop where
  | add {ω : Type} (irreversible : BlockState → EStateM Failure ω Unit) (n : BlockState)
      (skipValidatePrevious : Bool) (w w' : ω)
      (hparent : ∃ p ∈ db.index, p.id = n.previous ∧
        n.bftIrreversibleBlocknum = p.bftIrreversibleBlocknum)
      (hresult : (∃ r, ForkDb.add irreversible n skipValidatePrevious (db, w) = .ok r (db', w')) ∨
        ∃ e, ForkDb.add irreversible n skipValidatePrevious (db, w) = .error e (db', w'))
  | confirm (id : BlockId) (quorum : Bool)
      (hresult : ForkDb.addConfirmation id quorum db = .ok () db' ∨
        ∃ e, ForkDb.addConfirmation id quorum db = .error e db')

section Law

variable {index : List BlockState} {db : ForkDb} {ω : Type} {s : ForkDb × ω}
  {irreversible : BlockState → EStateM Failure ω Unit} {n : BlockState}

theorem BftLaw.insert (h : BftLaw db.index) (hnew : ∀ b ∈ db.index, b.id ≠ n.id)
    (hparent : ∃ p ∈ db.index, p.id = n.previous ∧
      n.bftIrreversibleBlocknum = p.bftIrreversibleBlocknum) : BftLaw (db.insert n).index := by
  obtain ⟨q, hq, hid, hbft⟩ := hparent
  have hnum : n.blockNum = q.blockNum + 1 := by
    rw [BlockState.blockNum, n.numbered, ← hid, BlockState.blockNum]
  have hmem : ∀ {b}, b ∈ (db.insert n).index →
      b = { n with arrival := db.inserted } ∨ b ∈ db.index := mem_insertByNum.mp
  have hold : ∀ {b}, b ∈ db.index → b ∈ (db.insert n).index :=
    fun hb => mem_insertByNum.mpr (.inr hb)
  refine ⟨?_, sorted_insertByNum h.sorted, fun b hb => ?_, fun b hb p hp hlink => ?_, fun b hb => ?_⟩
  · refine ((insertByNum_perm _ db.index).map links.key).nodup_iff.mpr
      (nodup_cons.mpr ⟨fun hin => ?_, h.ids⟩)
    obtain ⟨b, hb, hkey⟩ := mem_map.mp hin
    exact hnew b hb hkey
  · rcases hmem hb with rfl | hb
    · exact .inl ⟨q, hold hq, hid⟩
    · rcases h.linked b hb with ⟨p, hp, hlink⟩ | hlow
      · exact .inl ⟨p, hold hp, hlink⟩
      · refine .inr fun c hc => ?_
        rcases hmem hc with rfl | hc
        · exact (hlow q hq).trans (hnum ▸ Nat.le_succ _)
        · exact hlow c hc
  · rcases hmem hb with rfl | hb
    · rcases hmem hp with rfl | hp
      · have hself := congrArg BlockId.num hlink
        exact absurd n.numbered (by rw [hself]; exact (Nat.succ_ne_self _).symm)
      · rw [inj_on_of_nodup_map h.ids hp hq (hlink.trans hid.symm)]
        exact hbft.ge
    · rcases hmem hp with rfl | hp
      · -- nothing is built on the new block yet: its own previous one would be too low
        rcases h.linked b hb with ⟨p, hp, hsame⟩ | hlow
        · exact absurd (hsame.trans hlink.symm) (hnew p hp)
        · have hle := hlow q hq
          rw [← congrArg BlockId.num hlink] at hle
          exact absurd hle (by change ¬ n.blockNum ≤ _; omega)
      · exact h.rises b hb p hp hlink
  · rcases hmem hb with rfl | hb
    · change n.bftIrreversibleBlocknum ≤ n.blockNum
      have := h.within q hq
      omega
    · exact h.within b hb

theorem BftLaw.remove (h : BftLaw index) (id : BlockId) : BftLaw (links.remove id index) := by
  have hsub := links.remove_sublist h.ids id
  refine ⟨h.ids.sublist (hsub.map _), h.sorted.sublist hsub, fun b hb => ?_,
    fun b hb p hp => h.rises b (hsub.subset hb) p (hsub.subset hp),
    fun b hb => h.within b (hsub.subset hb)⟩
  obtain ⟨hb, hbelow⟩ := (links.mem_remove h.ids).mp hb
  rcases h.linked b hb with ⟨p, hp, hlink⟩ | hlow
  · refine .inl ⟨p, (links.mem_remove h.ids).mpr ⟨hp, fun hp' => hbelow (.step ?_ hb)⟩, hlink⟩
    change links.Below index id b.previous
    exact hlink ▸ hp'
  · exact .inr fun c hc => hlow c (hsub.subset hc)

theorem BftLaw.erase (h : BftLaw db.index) {id : BlockId}
    (hlowest : ∀ c ∈ db.index, id.num ≤ c.blockNum) : BftLaw (db.erase id).index := by
  have hsub : (db.erase id).index.Sublist db.index := filter_sublist
  refine ⟨h.ids.sublist (hsub.map _), h.sorted.sublist hsub, fun b hb => ?_,
    fun b hb p hp => h.rises b (hsub.subset hb) p (hsub.subset hp),
    fun b hb => h.within b (hsub.subset hb)⟩
  rcases h.linked b (hsub.subset hb) with ⟨p, hp, hlink⟩ | hlow
  · by_cases hpid : p.id = id
    · exact .inr fun c hc => hlink ▸ hpid ▸ hlowest c (hsub.subset hc)
    · exact .inl ⟨p, mem_filter.mpr ⟨hp, decide_eq_true hpid⟩, hlink⟩
  · exact .inr fun c hc => hlow c (hsub.subset hc)

abbrev Lawful {α : Type} (x : ForkM α) (db : ForkDb) : Prop :=
  Wp x db (fun _ db => BftLaw db.index) fun _ db => BftLaw db.index

abbrev LawfulSignal {α : Type} (x : SignalM ω α) (s : ForkDb × ω) : Prop :=
  Wp x s (fun _ s => BftLaw s.1.index) fun _ s => BftLaw s.1.index

theorem lawful_refreshHead (h : BftLaw db.index) : Lawful refreshHead db := by
  unfold refreshHead Lawful
  rw [wp_bind, wp_get]
  split <;> exact h

theorem lawful_sweep (num fuel : Nat) (itr : Option BlockId) (h : BftLaw db.index) :
    Lawful (ForkDb.sweep num fuel itr) db := by
  induction fuel generalizing itr db with
  | zero => exact h
  | succ fuel ih =>
    cases itr with
    | none => exact h
    | some itr =>
      unfold ForkDb.sweep Lawful
      rw [wp_bind, wp_get]
      split
      · exact h
      · rw [wp_ite]
        refine ⟨fun _ => ?_, fun _ => h⟩
        rw [wp_bind, ForkDb.remove, wp_bind, wp_modify]
        exact (lawful_refreshHead (h.remove _)).mono (fun _ _ h => ih _ h) fun _ _ h => h

theorem lawful_pruneLower {prune : BlockState → SignalM ω Unit}
    (hprune : ∀ b (s : ForkDb × ω), BftLaw s.1.index → LawfulSignal (prune b) s) (num fuel : Nat)
    (h : BftLaw s.1.index) :
    Wp (ForkDb.pruneLower prune num fuel) s
      (fun _ s => BftLaw s.1.index ∧ ∀ c ∈ s.1.index, num ≤ c.blockNum)
      fun _ s => BftLaw s.1.index := by
  induction fuel generalizing s with
  | zero => exact h
  | succ fuel ih =>
    unfold ForkDb.pruneLower
    rw [wp_bind, wp_get]
    split
    · next hnone =>
      rw [head?_eq_none_iff] at hnone
      refine ⟨h, fun c hc => ?_⟩
      rw [hnone] at hc
      cases hc
    · next b hhead =>
      rw [wp_ite]
      refine ⟨fun _ => ?_, fun hge => ⟨h, fun c hc => ?_⟩⟩
      · rw [wp_bind]
        exact (hprune b s h).mono (fun _ _ h => ih h) fun _ _ h => h
      · obtain ⟨rest, hindex⟩ := head?_eq_some_iff.mp hhead
        have hsorted := h.sorted
        rw [hindex] at hc hsorted
        rcases mem_cons.mp hc with rfl | hc
        · omega
        · have := rel_of_pairwise_cons hsorted hc
          omega

theorem lawful_prune (fuel : Nat) (h : BlockState) (hlaw : BftLaw s.1.index) :
    LawfulSignal (ForkDb.prune irreversible fuel h) s := by
  induction fuel generalizing h s with
  | zero => exact hlaw
  | succ fuel ih =>
    unfold ForkDb.prune LawfulSignal
    rw [wp_bind]
    refine (lawful_pruneLower (fun b s => ih b) h.blockNum (fuel + 1) hlaw).mono ?_ fun _ _ h => h
    rintro _ s ⟨hlaw, hlowest⟩
    have hsweep : ∀ s : ForkDb × ω, BftLaw s.1.index →
        LawfulSignal (do
          let db := (← get).1
          ForkDb.onDb (ForkDb.sweep h.blockNum (db.index.length + 1) (db.lowerBound h.blockNum))) s := by
      intro s hlaw
      unfold LawfulSignal ForkDb.onDb
      rw [wp_bind, wp_get, wp_zoom]
      exact lawful_sweep _ _ _ hlaw
    rw [wp_bind, wp_get]
    split
    · exact hsweep s hlaw
    · unfold ForkDb.onHandlers
      rw [wp_bind, wp_zoom]
      refine Wp.mono (Q := fun _ _ => True) (E := fun _ _ => True) ?_ (fun _ w _ => ?_) fun _ _ _ => hlaw
      · unfold Wp
        split <;> trivial
      · rw [wp_bind, ForkDb.onDb, wp_zoom, wp_modify]
        exact hsweep _ (hlaw.erase hlowest)

theorem lawful_add (irreversible : BlockState → EStateM Failure ω Unit) (s : ForkDb × ω)
    (h : BftLaw s.1.index) (hparent : ∃ p ∈ s.1.index, p.id = n.previous ∧
      n.bftIrreversibleBlocknum = p.bftIrreversibleBlocknum) (skipValidatePrevious : Bool) :
    LawfulSignal (ForkDb.add irreversible n skipValidatePrevious) s := by
  unfold ForkDb.add LawfulSignal
  rw [wp_bind, wp_get]
  simp only [wp_ite, wp_throw]
  refine ⟨fun _ => h, fun _ => ⟨fun _ => h, fun _ => ⟨fun _ => h, fun hnew => ?_⟩⟩⟩
  have hnew : ∀ b ∈ s.1.index, b.id ≠ n.id := getBlock_eq_none.mp (by simpa using hnew)
  rw [wp_bind, ForkDb.onDb, wp_zoom, wp_bind, wp_modify]
  refine (lawful_refreshHead (h.insert hnew hparent)).mono (fun _ db hlaw => ?_) fun _ _ h => h
  rw [wp_bind, wp_get]
  split
  · rw [wp_ite]
    refine ⟨fun _ => ?_, fun _ => hlaw⟩
    rw [wp_bind]
    exact lawful_prune _ _ hlaw
  · exact hlaw

end Law

/-! ## 3. The layers -/

/-- The number of `id` has been written into the blocks above it, and nothing else is changed. -/
def Spreads (id : BlockId) (index index' : List BlockState) : Prop :=
  ∃ f, index' = index.map f ∧ ∀ b ∈ index,
    (links.Below index id b.id → f b = b.raise (max b.bftIrreversibleBlocknum id.num)) ∧
    (¬ links.Below index id b.id → f b = b)

section Layers

variable {index : List BlockState} {id : BlockId} {num : Nat} {layer ids : List BlockId}

def raiseIn (num : Nat) (ids : List BlockId) (b : BlockState) : BlockState :=
  if b.id ∈ ids ∧ b.bftIrreversibleBlocknum < num then b.raise num else b

/-- What is known between two layers: the blocks raised so far are above `id`, and what is
    built on them and lags behind is built on the current layer. -/
structure Spreading (id : BlockId) (index : List BlockState) (layer ids : List BlockId) : Prop where
  start : id ∈ ids
  below : ∀ x ∈ ids, links.Below index id x
  current : ∀ x ∈ layer, x ∈ ids
  next : ∀ b ∈ index, b.previous ∈ ids → b.bftIrreversibleBlocknum < id.num →
    b.id ∈ ids ∨ b.previous ∈ layer

theorem raiseIn_id (b : BlockState) : (raiseIn num ids b).id = b.id ∧
    (raiseIn num ids b).previous = b.previous := by
  unfold raiseIn
  split <;> exact ⟨rfl, rfl⟩

theorem raiseIn_lags (b : BlockState) : (raiseIn num ids b).lags num layer = true ↔
    b.previous ∈ layer ∧ b.bftIrreversibleBlocknum < num ∧ b.id ∉ ids := by
  unfold raiseIn BlockState.lags
  by_cases hid : b.id ∈ ids <;> by_cases hlow : b.bftIrreversibleBlocknum < num <;>
    simp [hid, hlow, BlockState.raise]

theorem mem_updatedIds {x : BlockId} : x ∈ updatedIds num layer (index.map (raiseIn num ids)) ↔
    ∃ b ∈ index, b.id = x ∧ b.previous ∈ layer ∧ b.bftIrreversibleBlocknum < num ∧ b.id ∉ ids := by
  simp only [updatedIds, mem_map, mem_filter, exists_exists_and_eq_and, and_assoc]
  constructor
  · rintro ⟨b, hb, hlags, hx⟩
    exact ⟨b, hb, (raiseIn_id b).1 ▸ hx, (raiseIn_lags b).mp hlags⟩
  · rintro ⟨b, hb, hx, hlags⟩
    exact ⟨b, hb, (raiseIn_lags b).mpr hlags, (raiseIn_id b).1.trans hx⟩

theorem updateLayer_raiseIn (hids : (index.map links.key).Nodup) :
    updateLayer num layer (index.map (raiseIn num ids)) =
      index.map (raiseIn num (ids ++ updatedIds num layer (index.map (raiseIn num ids)))) := by
  rw [updateLayer, map_map]
  refine map_congr_left fun b hb => ?_
  have hmem : b.id ∈ updatedIds num layer (index.map (raiseIn num ids)) ↔
      b.previous ∈ layer ∧ b.bftIrreversibleBlocknum < num ∧ b.id ∉ ids := by
    rw [mem_updatedIds]
    refine ⟨?_, fun h => ⟨b, hb, rfl, h⟩⟩
    rintro ⟨c, hc, hid, h⟩
    exact inj_on_of_nodup_map hids hc hb hid ▸ h
  rw [Function.comp_apply]
  by_cases hlags : (raiseIn num ids b).lags num layer = true
  · have h := (raiseIn_lags b).mp hlags
    rw [if_pos hlags, raiseIn, if_neg (fun hin => h.2.2 hin.1), raiseIn,
      if_pos ⟨mem_append_right _ (hmem.mpr h), h.2.1⟩]
  · have hnot := fun hin => hlags ((raiseIn_lags b).mpr (hmem.mp hin))
    rw [if_neg hlags]
    exact if_congr (by rw [mem_append, or_iff_left hnot]) rfl rfl

theorem countP_updateLayer (num : Nat) (layer : List BlockId) (index : List BlockState) :
    (updateLayer num layer index).countP (·.bftIrreversibleBlocknum < num) +
      (updatedIds num layer index).length = index.countP (·.bftIrreversibleBlocknum < num) := by
  induction index with
  | nil => rfl
  | cons b index ih =>
    have hlow : b.lags num layer = true → b.bftIrreversibleBlocknum < num := by
      simp only [BlockState.lags, decide_eq_true_eq]
      exact And.right
    simp only [updateLayer, updatedIds, map_cons, countP_cons, filter_cons] at ih ⊢
    by_cases hlags : b.lags num layer = true
    · have hraised : (b.raise num).bftIrreversibleBlocknum = num := rfl
      simp only [hlags, if_true, hlow hlags, hraised, map_cons, length_cons, lt_irrefl,
        decide_true, decide_false, Bool.false_eq_true, if_false]
      omega
    · simp only [hlags, Bool.false_eq_true, if_false]
      omega

theorem Spreading.step (h : Spreading id index layer ids) :
    Spreading id index (updatedIds id.num layer (index.map (raiseIn id.num ids)))
      (ids ++ updatedIds id.num layer (index.map (raiseIn id.num ids))) where
  start := mem_append_left _ h.start
  below x hx := by
    rcases mem_append.mp hx with hx | hx
    · exact h.below x hx
    · obtain ⟨b, hb, rfl, hlayer, _⟩ := mem_updatedIds.mp hx
      exact .step (h.below _ (h.current _ hlayer)) hb
  current x hx := mem_append_right _ hx
  next b hb hprevious hlow := by
    rcases mem_append.mp hprevious with hin | hin
    · by_cases hid : b.id ∈ ids
      · exact .inl (mem_append_left _ hid)
      · have hlayer := (h.next b hb hin hlow).resolve_left hid
        exact .inl (mem_append_right _ (mem_updatedIds.mpr ⟨b, hb, rfl, hlayer, hlow, hid⟩))
    · exact .inr hin

/-- When no block is left to go on from, all above `id` have the number. -/
theorem Spreading.spreads (h : Spreading id index [] ids) (hlaw : BftLaw index) :
    Spreads id index (index.map (raiseIn id.num ids)) := by
  refine ⟨raiseIn id.num ids, rfl, fun b hb => ⟨fun hbelow => ?_, fun hbelow => ?_⟩⟩
  · have hreached : b.id ∈ ids ∨
        ∃ p ∈ index, p.id = b.id ∧ id.num ≤ p.bftIrreversibleBlocknum := by
      refine hbelow.mem_of_closed (S := fun x => x ∈ ids ∨
        ∃ p ∈ index, p.id = x ∧ id.num ≤ p.bftIrreversibleBlocknum) (.inl h.start) fun a ha hup => ?_
      rcases hup with hin | ⟨p, hp, hid, hnum⟩
      · rcases Nat.lt_or_ge a.bftIrreversibleBlocknum id.num with hlow | hhigh
        · exact (h.next a ha hin hlow).elim .inl fun hnil => absurd hnil not_mem_nil
        · exact .inr ⟨a, ha, rfl, hhigh⟩
      · exact .inr ⟨a, ha, rfl, hnum.trans (hlaw.rises a ha p hp hid)⟩
    rcases Nat.lt_or_ge b.bftIrreversibleBlocknum id.num with hlow | hhigh
    · rcases hreached with hin | ⟨p, hp, hid, hnum⟩
      · rw [raiseIn, if_pos ⟨hin, hlow⟩, Nat.max_eq_right hlow.le]
      · obtain rfl := inj_on_of_nodup_map hlaw.ids hp hb hid
        exact absurd hlow (Nat.not_lt.mpr hnum)
    · rw [raiseIn, if_neg (fun hin => Nat.not_lt.mpr hhigh hin.2), Nat.max_eq_left hhigh]
      rfl
  · exact if_neg fun hin => hbelow (h.below _ hin.1)

theorem updateAll_spreads (hlaw : BftLaw index) {fuel : Nat} (h : Spreading id index layer ids)
    (hfuel : layer = [] ∨ (index.map (raiseIn id.num ids)).countP
      (·.bftIrreversibleBlocknum < id.num) < fuel) :
    ∃ index', updateAll id.num fuel layer (index.map (raiseIn id.num ids)) = some index' ∧
      Spreads id index index' := by
  induction fuel generalizing layer ids with
  | zero =>
    rcases hfuel with rfl | hfuel
    · exact ⟨_, rfl, h.spreads hlaw⟩
    · exact absurd hfuel (Nat.not_lt_zero _)
  | succ fuel ih =>
    cases layer with
    | nil => exact ⟨_, rfl, h.spreads hlaw⟩
    | cons x layer =>
      rw [updateAll, updateLayer_raiseIn hlaw.ids]
      refine ih h.step ?_
      rw [← updateLayer_raiseIn hlaw.ids]
      have hcount := countP_updateLayer id.num (x :: layer) (index.map (raiseIn id.num ids))
      rcases eq_nil_or_concat (updatedIds id.num (x :: layer)
        (index.map (raiseIn id.num ids))) with hnil | ⟨l, y, hl⟩
      · exact .inl hnil
      · have hlen := congrArg List.length hl
        rw [length_concat] at hlen
        have hlt := hfuel.resolve_left (cons_ne_nil _ _)
        omega

theorem setBftIrreversible_ok {db : ForkDb} (hlaw : BftLaw db.index) {b : BlockState}
    (hb : db.getBlock id = some b) : ∃ index',
      ForkDb.setBftIrreversible id db = .ok () { db with index := index' } ∧
      Spreads id db.index index' := by
  obtain ⟨hmem, rfl⟩ := (getBlock_eq_some hlaw.ids).mp hb
  have hstart : (db.index.map fun c => if c.id = b.id then c.raise b.blockNum else c) =
      db.index.map (raiseIn b.id.num [b.id]) := by
    refine map_congr_left fun c hc => ?_
    by_cases hid : c.id = b.id
    · obtain rfl := inj_on_of_nodup_map hlaw.ids hc hmem hid
      have hwithin := hlaw.within c hc
      rw [if_pos rfl, raiseIn]
      split
      · rfl
      · next hnot =>
        have heq : c.bftIrreversibleBlocknum = c.blockNum :=
          hwithin.antisymm (Nat.not_lt.mp fun hlt => hnot ⟨mem_singleton_self _, hlt⟩)
        rw [← heq]
        rfl
    · rw [if_neg hid, raiseIn, if_neg fun hin => hid (mem_singleton.mp hin.1)]
  have hspreading : Spreading b.id db.index [b.id] [b.id] := by
    refine ⟨mem_singleton_self _, fun x hx => ?_, fun x hx => hx, fun c _ hin _ => .inr hin⟩
    rw [mem_singleton.mp hx]
    exact .refl
  obtain ⟨index', hall, hspreads⟩ := updateAll_spreads hlaw hspreading
    (.inr (Nat.lt_succ_of_le countP_le_length))
  rw [← hstart] at hall
  change updateAll b.blockNum (_ + 1) _ _ = _ at hall
  have hwp : Wp (ForkDb.setBftIrreversible b.id) db (fun _ s => s = { db with index := index' })
      fun _ _ => False := by
    unfold ForkDb.setBftIrreversible
    simp only [wp_bind, wp_get, hb]
    rw [hall]
    rfl
  obtain ⟨_, _, hok, rfl⟩ := hwp.exists_ok
  exact ⟨index', hok, hspreads⟩

theorem BftLaw.spread (hlaw : BftLaw index) {index' : List BlockState}
    (h : Spreads id index index') : BftLaw index' := by
  obtain ⟨f, rfl, hf⟩ := h
  have hsame : ∀ b ∈ index, (f b).id = b.id ∧ (f b).previous = b.previous ∧
      b.bftIrreversibleBlocknum ≤ (f b).bftIrreversibleBlocknum ∧
      (f b).bftIrreversibleBlocknum ≤ b.blockNum := by
    intro b hb
    by_cases hbelow : links.Below index id b.id
    · rw [(hf b hb).1 hbelow]
      exact ⟨rfl, rfl, le_max_left _ _, max_le (hlaw.within b hb) hbelow.height_le⟩
    · rw [(hf b hb).2 hbelow]
      exact ⟨rfl, rfl, le_rfl, hlaw.within b hb⟩
  have hnum : ∀ b ∈ index, (f b).blockNum = b.blockNum :=
    fun b hb => congrArg BlockId.num (hsame b hb).1
  refine ⟨?_, ?_, ?_, ?_, ?_⟩
  · have hkeys : (index.map f).map links.key = index.map links.key := by
      rw [map_map]
      exact map_congr_left fun b hb => (hsame b hb).1
    exact hkeys ▸ hlaw.ids
  · refine pairwise_map.mpr (hlaw.sorted.imp_of_mem fun ha hb hle => ?_)
    rwa [hnum _ ha, hnum _ hb]
  all_goals simp only [forall_mem_map]
  · intro b hb
    rw [(hsame b hb).2.1]
    rcases hlaw.linked b hb with ⟨p, hp, hlink⟩ | hlow
    · exact .inl ⟨f p, mem_map_of_mem hp, (hsame p hp).1.trans hlink⟩
    · exact .inr fun c hc => hnum c hc ▸ hlow c hc
  · intro b hb p hp hlink
    rw [(hsame p hp).1, (hsame b hb).2.1] at hlink
    have hle := hlaw.rises b hb p hp hlink
    by_cases hbelow : links.Below index id p.id
    · have hup : links.Below index id b.id := .step (hlink ▸ hbelow : links.Below index id b.previous) hb
      rw [(hf p hp).1 hbelow, (hf b hb).1 hup]
      exact max_le_max_right _ hle
    · rw [(hf p hp).2 hbelow]
      exact hle.trans (hsame b hb).2.2.1
  · intro b hb
    rw [hnum b hb]
    exact (hsame b hb).2.2.2

end Layers

theorem BftLaw.step {db db' : ForkDb} (h : BftLaw db.index) (hstep : BftStep db db') :
    BftLaw db'.index := by
  cases hstep with
  | add irreversible n skipValidatePrevious w w' hparent hresult =>
    have hadd := lawful_add irreversible (db, w) h hparent skipValidatePrevious
    rcases hresult with ⟨r, hok⟩ | ⟨e, herror⟩
    · exact hadd.of_ok hok
    · exact hadd.of_error herror
  | confirm id quorum hresult =>
    have hconfirm : Lawful (ForkDb.addConfirmation id quorum) db := by
      unfold ForkDb.addConfirmation Lawful
      rw [wp_bind, wp_get]
      split
      · exact h
      · next b hb =>
        rw [wp_ite]
        refine ⟨fun _ => ?_, fun _ => h⟩
        obtain ⟨index', hok, hspreads⟩ := setBftIrreversible_ok h hb
        exact (wp_iff_of_ok hok).mpr (h.spread hspreads)
    rcases hresult with hok | ⟨e, herror⟩
    · exact hconfirm.of_ok hok
    · exact hconfirm.of_error herror

/-- In every run from a database with at most one block, the number of a stored block is at
    least that of the block it is built on and at most its own; and to declare a stored block
    final ends, raises the numbers of the blocks above it and changes nothing else. -/
theorem bft_finality_spreads {start db : ForkDb} (hone : start.index.length ≤ 1)
    (hwithin : ∀ b ∈ start.index, b.bftIrreversibleBlocknum ≤ b.blockNum)
    (hrun : Run.Steps BftStep start db) :
    (∀ b ∈ db.index, b.bftIrreversibleBlocknum ≤ b.blockNum ∧
      ∀ p ∈ db.index, p.id = b.previous → p.bftIrreversibleBlocknum ≤ b.bftIrreversibleBlocknum) ∧
    ∀ id b, db.getBlock id = some b → ∃ index',
      ForkDb.setBftIrreversible id db = .ok () { db with index := index' } ∧
      Spreads id db.index index' := by
  have hstart : BftLaw start.index := by
    rcases hindex : start.index with _ | ⟨b, rest⟩
    · exact ⟨nodup_nil, .nil, by simp, by simp, by simp⟩
    · rw [hindex] at hone hwithin
      obtain rfl := length_eq_zero_iff.mp (Nat.le_zero.mp (Nat.le_of_succ_le_succ hone))
      have hnumbered := b.numbered
      refine ⟨nodup_singleton _, pairwise_singleton _ _, ?_, ?_, hwithin⟩
      all_goals simp only [forall_mem_singleton]
      · exact .inr (by rw [BlockState.blockNum, hnumbered]; exact Nat.le_succ _)
      · intro hself
        exact le_rfl
  have hlaw := Run.invariant (P := fun db : ForkDb => BftLaw db.index)
    (fun _ _ h hstep => h.step hstep) hstart hrun
  exact ⟨fun b hb => ⟨hlaw.within b hb, hlaw.rises b hb⟩,
    fun id b hb => setBftIrreversible_ok hlaw hb⟩

/-- A root with number 1 and a block on it; the root is confirmed. -/
theorem bft_finality_spreads_sample :
    let root : BlockState := ⟨⟨1, 0⟩, ⟨0, 0⟩, 0, 0, true, true, true, 0, rfl⟩
    let block : BlockState := ⟨⟨2, 0⟩, ⟨1, 0⟩, 0, 0, true, true, true, 1, rfl⟩
    let confirmed : ForkDb := ⟨[root.raise 1, block.raise 1], some ⟨2, 0⟩, 2⟩
    ∃ index', ForkDb.setBftIrreversible ⟨2, 0⟩ confirmed = .ok () { confirmed with index := index' } ∧
      Spreads ⟨2, 0⟩ confirmed.index index' := by
  intro root block confirmed
  have hadd : BftStep ⟨[root], some ⟨1, 0⟩, 1⟩ ⟨[root, block], some ⟨2, 0⟩, 2⟩ :=
    .add (fun _ => pure ()) block false () () ⟨root, mem_singleton_self _, rfl, rfl⟩
      (.inl ⟨block, rfl⟩)
  have hconfirm : BftStep ⟨[root, block], some ⟨2, 0⟩, 2⟩ confirmed :=
    .confirm ⟨1, 0⟩ true (.inl rfl)
  have hone : (⟨[root], some ⟨1, 0⟩, 1⟩ : ForkDb).index.length ≤ 1 := Nat.le_refl 1
  exact (bft_finality_spreads hone (by simp [root])
    ((Relation.ReflTransGen.single hadd).tail hconfirm)).2 ⟨2, 0⟩ (block.raise 1) rfl

end YottaChain.Forks
