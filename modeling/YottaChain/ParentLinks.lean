/-
  **Nodes that name their parents.**

  A forest is kept as a list of nodes; a node has a key and names the key of its parent,
  which is one level lower (`Links`).  `Below nodes k` are the keys that are reached from
  `k` by such links of stored nodes, `k` itself included, whether or not it is stored.

  `remove` deletes a key and all below it with a work list.  `Linked outside` says that
  the links of the nodes end at the keys of `outside`, and `Rooted base` that they end at
  one key: every node is then below `base` (`Rooted.below`), and the nodes without a
  stored parent are the lowest ones.
-/
import YottaChain.KeyedList

structure Links (α κ : Type) where
  key : α → κ
  parent : α → κ
  height : κ → Nat
  step : ∀ a, height (key a) = height (parent a) + 1

namespace Links

open List

variable {α κ : Type} {L : Links α κ} {nodes nodes' : List α} {k x : κ} {a : α}

/-! ## 1. Reachability -/

/-- The key `x` is `k` or is linked to it by nodes of the list. -/
inductive Below (L : Links α κ) (nodes : List α) (k : κ) : κ → Prop where
  | refl : Below L nodes k k
  | step {a : α} : Below L nodes k (L.parent a) → a ∈ nodes → Below L nodes k (L.key a)

namespace Below

theorem height_le (h : L.Below nodes k x) : L.height k ≤ L.height x := by
  induction h with
  | refl => exact Nat.le_refl _
  | step _ _ ih =>
    rw [L.step]
    exact Nat.le_succ_of_le ih

theorem eq_of_height_le (h : L.Below nodes k x) (hle : L.height x ≤ L.height k) : x = k := by
  cases h with
  | refl => rfl
  | step h =>
    rw [L.step] at hle
    exact absurd h.height_le (Nat.not_le_of_lt hle)

theorem of_forall (h : L.Below nodes k x)
    (hto : ∀ a ∈ nodes, ∃ b ∈ nodes', L.key b = L.key a ∧ L.parent b = L.parent a) :
    L.Below nodes' k x := by
  induction h with
  | refl => exact .refl
  | @step a hp ha ih =>
    obtain ⟨b, hb, hkey, hparent⟩ := hto a ha
    rw [← hkey]
    rw [← hparent] at ih
    exact ih.step hb

theorem trans {j : κ} (h : L.Below nodes j k) (hx : L.Below nodes k x) : L.Below nodes j x := by
  induction hx with
  | refl => exact h
  | step _ ha ih => exact ih.step ha

theorem mem_of_closed {S : κ → Prop} (hk : S k)
    (hclosed : ∀ a ∈ nodes, S (L.parent a) → S (L.key a)) (h : L.Below nodes k x) : S x := by
  induction h with
  | refl => exact hk
  | step _ ha ih => exact hclosed _ ha ih

theorem parent_of_mem (hkeys : (nodes.map L.key).Nodup) (ha : a ∈ nodes)
    (h : L.Below nodes k (L.key a)) (hne : L.key a ≠ k) : L.Below nodes k (L.parent a) := by
  generalize hx : L.key a = x at h
  cases h with
  | refl => exact absurd hx hne
  | step h hb =>
    rw [inj_on_of_nodup_map hkeys ha hb hx]
    exact h

/-- There is one key of each height above a node. -/
theorem eq_of_height (hkeys : (nodes.map L.key).Nodup) {j : κ} (hj : L.Below nodes j x)
    (hk : L.Below nodes k x) (hheight : L.height j = L.height k) : j = k := by
  induction hj with
  | refl => exact hk.eq_of_height_le (Nat.le_of_eq hheight)
  | @step a hp ha ih =>
    refine ih (hk.parent_of_mem hkeys ha fun heq => ?_)
    have hle := hp.height_le
    rw [hheight, ← heq, L.step] at hle
    exact absurd hle (Nat.not_succ_le_self _)

theorem exists_child (h : L.Below nodes k x) (hne : x ≠ k) :
    ∃ a ∈ nodes, L.parent a = k ∧ L.Below nodes (L.key a) x := by
  induction h with
  | refl => exact absurd rfl hne
  | @step a hp ha ih =>
    by_cases hpk : L.parent a = k
    · exact ⟨a, ha, hpk, .refl⟩
    · obtain ⟨c, hc, hck, hbelow⟩ := ih hpk
      exact ⟨c, hc, hck, hbelow.step ha⟩

end Below

/-- A search for `k` up the links, to a given depth. -/
def reaches [DecidableEq κ] (L : Links α κ) (nodes : List α) (k : κ) : Nat → κ → Bool
  | 0, x => decide (x = k)
  | depth + 1, x =>
      if x = k then true
      else
        match nodes.find? fun a => decide (L.key a = x) with
        | none => false
        | some a => L.reaches nodes k depth (L.parent a)

variable {depth : Nat}

theorem below_of_reaches [DecidableEq κ] (h : L.reaches nodes k depth x = true) :
    L.Below nodes k x := by
  induction depth generalizing x with
  | zero =>
    rw [of_decide_eq_true h]
    exact .refl
  | succ _ ih =>
    unfold reaches at h
    split_ifs at h with heq
    · exact heq ▸ .refl
    · split at h
      · cases h
      · rename_i a ha
        have hkey : L.key a = x := by simpa using find?_some ha
        rw [← hkey]
        exact (ih h).step (mem_of_find?_eq_some ha)

theorem reaches_of_below [DecidableEq κ] (hkeys : (nodes.map L.key).Nodup) (h : L.Below nodes k x)
    (hdepth : L.height x ≤ L.height k + depth) : L.reaches nodes k depth x = true := by
  induction depth generalizing x with
  | zero => exact decide_eq_true (h.eq_of_height_le hdepth)
  | succ _ ih =>
    unfold reaches
    cases h with
    | refl => rw [if_pos rfl]
    | @step a hp ha =>
      have hfind : nodes.find? (fun b => decide (L.key b = L.key a)) = some a :=
        (KeyedList.find_eq_some_iff hkeys).mpr ⟨ha, rfl⟩
      rw [hfind]
      split
      · rfl
      · rw [L.step] at hdepth
        exact ih hp (by omega)

theorem below_iff_reaches [DecidableEq κ] (hkeys : (nodes.map L.key).Nodup)
    (hdepth : L.height x ≤ depth) : L.Below nodes k x ↔ L.reaches nodes k depth x = true :=
  ⟨fun h => reaches_of_below hkeys h (Nat.le_trans hdepth (Nat.le_add_left _ _)), below_of_reaches⟩

/-! ## 2. Paths -/

/-- The nodes from a key down to, but without, the key `bottom`. -/
inductive Path (L : Links α κ) (nodes : List α) (bottom : κ) : κ → List α → Prop where
  | nil : Path L nodes bottom bottom []
  | cons {a : α} {path : List α} : a ∈ nodes → Path L nodes bottom (L.parent a) path →
      Path L nodes bottom (L.key a) (a :: path)

namespace Path

variable {bottom middle top : κ} {path path' : List α}

section

variable (h : L.Path nodes bottom top path)

include h

theorem below_top : L.Below nodes bottom top := by
  induction h with
  | nil => exact .refl
  | cons ha _ ih => exact ih.step ha

theorem mem_nodes (ha : a ∈ path) : a ∈ nodes := by
  induction h with
  | nil => cases ha
  | cons hb _ ih =>
    rcases mem_cons.mp ha with rfl | ha
    · exact hb
    · exact ih ha

theorem below_of_mem (ha : a ∈ path) :
    L.Below nodes (L.key a) top ∧ L.Below nodes bottom (L.parent a) := by
  induction h with
  | nil => cases ha
  | cons hb hpath ih =>
    rcases mem_cons.mp ha with rfl | ha
    · exact ⟨.refl, hpath.below_top⟩
    · obtain ⟨hup, hdown⟩ := ih ha
      exact ⟨hup.step hb, hdown⟩

theorem eq_nil (hle : L.height top ≤ L.height bottom) : path = [] := by
  cases h with
  | nil => rfl
  | cons _ hpath =>
    rw [L.step] at hle
    exact absurd hpath.below_top.height_le (Nat.not_le_of_lt hle)

end

theorem append (h : L.Path nodes middle top path) (h' : L.Path nodes bottom middle path') :
    L.Path nodes bottom top (path ++ path') := by
  induction h with
  | nil => exact h'
  | cons ha _ ih => exact .cons ha ih

theorem of_append (h : L.Path nodes bottom top (path ++ path')) :
    ∃ middle, L.Path nodes middle top path ∧ L.Path nodes bottom middle path' := by
  induction path generalizing top with
  | nil => exact ⟨top, .nil, h⟩
  | cons _ _ ih =>
    cases h with
    | cons ha hrest =>
      obtain ⟨middle, hpath, hpath'⟩ := ih hrest
      exact ⟨middle, .cons ha hpath, hpath'⟩

theorem parent_getLast (h : L.Path nodes bottom top path) (ha : path.getLast? = some a) :
    L.parent a = bottom := by
  induction h with
  | nil => cases ha
  | @cons b rest hb hpath ih =>
    cases rest with
    | nil =>
      cases ha
      generalize hparent : L.parent b = p at hpath
      cases hpath
      exact hparent
    | cons =>
      rw [getLast?_cons_cons] at ha
      exact ih ha

theorem height_lt (h : L.Path nodes bottom top path) (hne : path ≠ []) :
    L.height bottom < L.height top := by
  cases h with
  | nil => exact absurd rfl hne
  | cons _ hpath =>
    rw [L.step]
    exact Nat.lt_succ_of_le hpath.below_top.height_le

theorem head?_eq (hkeys : (nodes.map L.key).Nodup) (ha : a ∈ nodes)
    (h : L.Path nodes bottom (L.key a) path) (hne : path ≠ []) : path.head? = some a := by
  generalize htop : L.key a = top at h
  cases h with
  | nil => exact absurd rfl hne
  | cons hb _ => exact congrArg some (inj_on_of_nodup_map hkeys hb ha htop.symm)

theorem isChain (h : L.Path nodes bottom top path) :
    path.IsChain fun a b => L.key b = L.parent a := by
  induction h with
  | nil => exact .nil
  | @cons a path _ hpath ih =>
    cases path with
    | nil => exact .singleton a
    | cons b rest =>
      refine .cons_cons ?_ ih
      generalize hparent : L.parent a = p at hpath
      cases hpath
      rfl

theorem getLast?_of_parent (hkeys : (nodes.map L.key).Nodup) (h : L.Path nodes bottom top path)
    (ha : a ∈ path) (hparent : L.parent a = bottom) : path.getLast? = some a := by
  obtain ⟨b, hb⟩ := Option.isSome_iff_exists.mp
    (getLast?_isSome.mpr (ne_nil_of_mem ha))
  have hbmem := mem_of_getLast? hb
  have hheight : L.height (L.key b) = L.height (L.key a) := by
    rw [L.step, L.step, h.parent_getLast hb, hparent]
  have hkey := (h.below_of_mem hbmem).1.eq_of_height hkeys (h.below_of_mem ha).1 hheight
  rw [hb, inj_on_of_nodup_map hkeys (h.mem_nodes hbmem) (h.mem_nodes ha) hkey]

/-- There is one way down, and a shorter path is the beginning of a longer one. -/
theorem exists_append (hkeys : (nodes.map L.key).Nodup) (h : L.Path nodes middle top path)
    (h' : L.Path nodes bottom top path') (hle : path.length ≤ path'.length) :
    ∃ rest, path' = path ++ rest ∧ L.Path nodes bottom middle rest := by
  induction h generalizing path' with
  | nil => exact ⟨path', rfl, h'⟩
  | @cons a path ha hpath ih =>
    generalize htop : L.key a = top at h'
    cases h' with
    | nil => cases hle
    | @cons b rest hb hrest =>
      obtain rfl : a = b := inj_on_of_nodup_map hkeys ha hb htop
      obtain ⟨rest', rfl, hpath'⟩ := ih hrest (Nat.le_of_succ_le_succ hle)
      exact ⟨rest', rfl, hpath'⟩

theorem exists_of_below (hkeys : (nodes.map L.key).Nodup) (h : L.Path nodes bottom top path)
    (hk : L.Below nodes k top) (hlt : L.height bottom < L.height k) : ∃ a ∈ path, L.key a = k := by
  induction h with
  | nil => exact absurd hk.height_le (Nat.not_le_of_lt hlt)
  | @cons a path ha _ ih =>
    by_cases heq : L.key a = k
    · exact ⟨a, mem_cons_self, heq⟩
    · obtain ⟨b, hb, hkey⟩ := ih (hk.parent_of_mem hkeys ha heq)
      exact ⟨b, mem_cons_of_mem _ hb, hkey⟩

end Path

/-! ## 3. Removing a subtree -/

section Remove

variable [DecidableEq κ]

/-- Work off a queue of keys: erase the node of a key and put the keys of its children at the
    end of the queue. -/
def removeQueue (L : Links α κ) : Nat → List κ → List α → List α
  | 0, _, nodes => nodes
  | _ + 1, [], nodes => nodes
  | fuel + 1, k :: queue, nodes =>
      let rest := nodes.filter fun a => decide (L.key a ≠ k)
      removeQueue L fuel (queue ++ (rest.filter fun a => decide (L.parent a = k)).map L.key) rest

/-- Remove `k` and all below it; each node enters the queue at most once. -/
def remove (L : Links α κ) (k : κ) (nodes : List α) : List α :=
  L.removeQueue (nodes.length + 2) [k] nodes

/-- The work list: the keys that are done, those in the queue and the nodes that are left. -/
structure Working (L : Links α κ) (nodes : List α) (k : κ) (done queue : List κ)
    (left : List α) : Prop where
  left_eq : left = nodes.filter fun a => decide (L.key a ∉ done)
  start : k ∈ done
  below_done : ∀ x ∈ done, L.Below nodes k x
  closed : ∀ a ∈ nodes, L.parent a ∈ done → L.key a ∈ done ∨ L.key a ∈ queue
  nodup : queue.Nodup
  fresh : ∀ x ∈ queue, x ∉ done
  queued : ∀ x ∈ queue, ∃ a ∈ nodes, L.key a = x ∧ L.parent a ∈ done

namespace Working

variable {done queue : List κ} {left : List α} {q : κ}

theorem mem_left (h : L.Working nodes k done queue left) :
    a ∈ left ↔ a ∈ nodes ∧ L.key a ∉ done := by
  rw [h.left_eq, mem_filter, decide_eq_true_eq]

/-- Taking a key from the queue: it is done, and its children join the queue. -/
theorem step (hkeys : (nodes.map L.key).Nodup) (h : L.Working nodes k done (q :: queue) left) :
    L.Working nodes k (q :: done)
      (queue ++ ((left.filter fun a => decide (L.key a ≠ q)).filter fun a =>
        decide (L.parent a = q)).map L.key)
      (left.filter fun a => decide (L.key a ≠ q)) := by
  obtain ⟨a, ha, rfl, hparent⟩ := h.queued q mem_cons_self
  have hnew : ∀ x, x ∈ ((left.filter fun b => decide (L.key b ≠ L.key a)).filter fun b =>
      decide (L.parent b = L.key a)).map L.key ↔
      ∃ b ∈ nodes, L.key b ∉ done ∧ L.key b ≠ L.key a ∧ L.parent b = L.key a ∧ L.key b = x := by
    intro x
    simp only [mem_map, mem_filter, decide_eq_true_eq, h.mem_left]
    constructor
    · rintro ⟨b, ⟨⟨⟨hb, hdone⟩, hne⟩, hp⟩, hx⟩
      exact ⟨b, hb, hdone, hne, hp, hx⟩
    · rintro ⟨b, hb, hdone, hne, hp, hx⟩
      exact ⟨b, ⟨⟨⟨hb, hdone⟩, hne⟩, hp⟩, hx⟩
  obtain ⟨hq, hqueue⟩ := nodup_cons.mp h.nodup
  constructor
  case left_eq =>
    rw [h.left_eq, filter_filter]
    refine filter_congr fun b _ => ?_
    simp [not_or]
  case start => exact mem_cons_of_mem _ h.start
  case below_done =>
    exact forall_mem_cons.mpr ⟨(h.below_done _ hparent).step ha, h.below_done⟩
  case closed =>
    intro b hb hpb
    by_cases hdone : L.key b ∈ L.key a :: done
    · exact .inl hdone
    · right
      rw [mem_cons, not_or] at hdone
      rcases mem_cons.mp hpb with hpa | hpd
      · exact mem_append_right _ ((hnew _).mpr ⟨b, hb, hdone.2, hdone.1, hpa, rfl⟩)
      · rcases h.closed b hb hpd with hd | hmem
        · exact absurd hd hdone.2
        · rcases mem_cons.mp hmem with heq | hmem
          · exact absurd heq hdone.1
          · exact mem_append_left _ hmem
  case nodup =>
    refine nodup_append.mpr ⟨hqueue, ?_, ?_⟩
    · exact hkeys.sublist ((filter_sublist.trans (filter_sublist.trans
        (h.left_eq ▸ filter_sublist))).map _)
    · -- a key that is queued already has a parent that is done, and the new ones have not
      rintro x hx y hy rfl
      obtain ⟨b, hb, hkb, hpb⟩ := h.queued x (mem_cons_of_mem _ hx)
      obtain ⟨c, hc, _, _, hpc, hkc⟩ := (hnew x).mp hy
      have hbc := inj_on_of_nodup_map hkeys hb hc (hkb.trans hkc.symm)
      rw [hbc, hpc] at hpb
      exact h.fresh _ mem_cons_self hpb
  case fresh =>
    intro x hx hdone
    rcases mem_append.mp hx with hx | hx
    · rcases mem_cons.mp hdone with rfl | hdone
      · exact hq hx
      · exact h.fresh x (mem_cons_of_mem _ hx) hdone
    · obtain ⟨b, _, hd, hne, _, rfl⟩ := (hnew x).mp hx
      rcases mem_cons.mp hdone with heq | hdone
      · exact hne heq
      · exact hd hdone
  case queued =>
    intro x hx
    rcases mem_append.mp hx with hx | hx
    · obtain ⟨b, hb, hkb, hpb⟩ := h.queued x (mem_cons_of_mem _ hx)
      exact ⟨b, hb, hkb, mem_cons_of_mem _ hpb⟩
    · obtain ⟨b, hb, _, _, hpb, rfl⟩ := (hnew x).mp hx
      exact ⟨b, hb, rfl, hpb ▸ mem_cons_self⟩

/-- A key of the queue is still stored, so taking it leaves fewer nodes. -/
theorem length_lt (h : L.Working nodes k done (q :: queue) left) :
    (left.filter fun a => decide (L.key a ≠ q)).length < left.length := by
  obtain ⟨a, ha, rfl, _⟩ := h.queued q mem_cons_self
  have hmem : a ∈ left := h.mem_left.mpr ⟨ha, h.fresh _ mem_cons_self⟩
  exact length_filter_lt_length_iff_exists.mpr ⟨a, hmem, by simp⟩

/-- With an empty queue the keys that are done are those below `k`. -/
theorem mem_done (h : L.Working nodes k done [] left) : x ∈ done ↔ L.Below nodes k x := by
  refine ⟨h.below_done x, fun hx => hx.mem_of_closed (S := fun y => y ∈ done) h.start ?_⟩
  intro a ha hp
  exact (h.closed a ha hp).resolve_right not_mem_nil

theorem removeQueue_eq [DecidablePred (L.Below nodes k)] (hkeys : (nodes.map L.key).Nodup)
    {fuel : Nat} (h : L.Working nodes k done queue left) (hfuel : left.length < fuel) :
    L.removeQueue fuel queue left = nodes.filter fun a => decide (¬ L.Below nodes k (L.key a)) := by
  induction fuel generalizing done queue left with
  | zero => exact absurd hfuel (Nat.not_lt_zero _)
  | succ _ ih =>
    cases queue with
    | nil =>
      show left = _
      rw [h.left_eq]
      refine filter_congr fun a _ => ?_
      rw [decide_eq_decide, h.mem_done]
    | cons =>
      exact ih (h.step hkeys) (Nat.lt_of_lt_of_le h.length_lt (Nat.le_of_lt_succ hfuel))

end Working

section

variable (hkeys : (nodes.map L.key).Nodup)

include hkeys

theorem working_start (k : κ) :
    L.Working nodes k [k]
      (((nodes.filter fun a => decide (L.key a ≠ k)).filter fun a =>
        decide (L.parent a = k)).map L.key)
      (nodes.filter fun a => decide (L.key a ≠ k)) := by
  have hqueue : ∀ x, x ∈ (((nodes.filter fun a => decide (L.key a ≠ k)).filter fun a =>
      decide (L.parent a = k)).map L.key) ↔
      ∃ b ∈ nodes, L.key b ≠ k ∧ L.parent b = k ∧ L.key b = x := by
    intro x
    simp only [mem_map, mem_filter, decide_eq_true_eq]
    constructor
    · rintro ⟨b, ⟨⟨hb, hne⟩, hp⟩, hx⟩
      exact ⟨b, hb, hne, hp, hx⟩
    · rintro ⟨b, hb, hne, hp, hx⟩
      exact ⟨b, ⟨⟨hb, hne⟩, hp⟩, hx⟩
  constructor
  case left_eq => exact filter_congr fun b _ => by simp
  case start => exact mem_singleton_self k
  case below_done =>
    intro x hx
    rw [mem_singleton.mp hx]
    exact .refl
  case closed =>
    intro b hb hp
    by_cases hk : L.key b = k
    · exact .inl (mem_singleton.mpr hk)
    · exact .inr ((hqueue _).mpr ⟨b, hb, hk, mem_singleton.mp hp, rfl⟩)
  case nodup => exact hkeys.sublist ((filter_sublist.trans filter_sublist).map _)
  case fresh =>
    intro x hx hdone
    obtain ⟨b, _, hne, _, rfl⟩ := (hqueue x).mp hx
    exact hne (mem_singleton.mp hdone)
  case queued =>
    intro x hx
    obtain ⟨b, hb, _, hp, rfl⟩ := (hqueue x).mp hx
    exact ⟨b, hb, rfl, mem_singleton.mpr hp⟩

/-- **What `remove` removes**: the key and all below it, and nothing else. -/
theorem remove_eq [DecidablePred (L.Below nodes k)] :
    L.remove k nodes = nodes.filter fun a => decide (¬ L.Below nodes k (L.key a)) :=
  (working_start hkeys k).removeQueue_eq hkeys (Nat.lt_succ_of_le (length_filter_le _ _))

theorem mem_remove : a ∈ L.remove k nodes ↔ a ∈ nodes ∧ ¬ L.Below nodes k (L.key a) := by
  classical
  rw [remove_eq hkeys, mem_filter, decide_eq_true_eq]

theorem remove_sublist (k : κ) : (L.remove k nodes).Sublist nodes := by
  classical
  rw [remove_eq hkeys]
  exact filter_sublist

end

end Remove

/-! ## 4. Where the links end -/

/-- The links of the nodes end at keys of `outside`. -/
def Linked (L : Links α κ) (outside : κ → Prop) (nodes : List α) : Prop :=
  ∀ a ∈ nodes, outside (L.parent a) ∨ ∃ p ∈ nodes, L.key p = L.parent a

namespace Linked

variable {outside : κ → Prop}

theorem insert (h : L.Linked outside nodes) (hparent : ∃ p ∈ nodes, L.key p = L.parent a)
    (hmem : ∀ b, b ∈ nodes' ↔ b = a ∨ b ∈ nodes) : L.Linked outside nodes' := by
  have hup : ∀ c, (∃ p ∈ nodes, L.key p = c) → ∃ p ∈ nodes', L.key p = c := by
    rintro c ⟨p, hp, hkey⟩
    exact ⟨p, (hmem p).mpr (.inr hp), hkey⟩
  intro b hb
  rcases (hmem b).mp hb with rfl | hb
  · exact .inr (hup _ hparent)
  · exact (h b hb).imp_right (hup _)

theorem of_forall (h : L.Linked outside nodes)
    (hto : ∀ b ∈ nodes', ∃ a ∈ nodes, L.key b = L.key a ∧ L.parent b = L.parent a)
    (hfrom : ∀ a ∈ nodes, ∃ b ∈ nodes', L.key b = L.key a) : L.Linked outside nodes' := by
  intro b hb
  obtain ⟨a, ha, _, hparent⟩ := hto b hb
  rw [hparent]
  refine (h a ha).imp_right ?_
  rintro ⟨p, hp, hkey⟩
  obtain ⟨q, hq, hkey'⟩ := hfrom p hp
  exact ⟨q, hq, hkey'.trans hkey⟩

/-- A subtree can be taken away. -/
theorem without (h : L.Linked outside nodes)
    (hmem : ∀ b, b ∈ nodes' ↔ b ∈ nodes ∧ ¬ L.Below nodes k (L.key b)) :
    L.Linked outside nodes' := by
  intro b hb
  obtain ⟨hb, hnot⟩ := (hmem b).mp hb
  rcases h b hb with hout | ⟨p, hp, hkey⟩
  · exact .inl hout
  · refine .inr ⟨p, (hmem p).mpr ⟨hp, fun hbelow => hnot ?_⟩, hkey⟩
    rw [hkey] at hbelow
    exact hbelow.step hb

theorem expose [DecidableEq κ] (h : L.Linked outside nodes) (k : κ) :
    L.Linked (fun x => outside x ∨ x = k) (nodes.filter fun a => decide (L.key a ≠ k)) := by
  intro b hb
  obtain ⟨hb, _⟩ := mem_filter.mp hb
  rcases h b hb with hout | ⟨p, hp, hkey⟩
  · exact .inl (.inl hout)
  · by_cases hpk : L.key p = k
    · exact .inl (.inr (hkey ▸ hpk))
    · exact .inr ⟨p, mem_filter.mpr ⟨hp, decide_eq_true hpk⟩, hkey⟩

end Linked

/-- The links of the nodes end at `base`. -/
abbrev Rooted (L : Links α κ) (base : κ) (nodes : List α) : Prop :=
  L.Linked (fun x => x = base) nodes

namespace Rooted

variable {base : κ}

section

variable (h : L.Rooted base nodes) (ha : a ∈ nodes)

include h ha

theorem below : L.Below nodes base (L.key a) := by
  induction hn : L.height (L.key a) using Nat.strongRecOn generalizing a with
  | ind _ ih =>
    refine Below.step ?_ ha
    rcases h a ha with hbase | ⟨p, hp, hkey⟩
    · rw [hbase]
      exact .refl
    · rw [← hkey]
      refine ih _ ?_ hp rfl
      rw [← hn, hkey, L.step]
      exact Nat.lt_succ_self _

theorem height_lt : L.height base < L.height (L.key a) := by
  rw [L.step]
  rcases h a ha with hbase | ⟨p, hp, hkey⟩
  · rw [hbase]
    exact Nat.lt_succ_self _
  · rw [← hkey]
    exact Nat.lt_succ_of_le (h.below hp).height_le

theorem parent_eq (hheight : L.height (L.key a) = L.height base + 1) : L.parent a = base := by
  rcases h a ha with hbase | ⟨p, hp, hkey⟩
  · exact hbase
  · have hlt := h.height_lt hp
    rw [L.step, Nat.add_right_cancel_iff] at hheight
    rw [hkey, hheight] at hlt
    exact absurd hlt (Nat.lt_irrefl _)

theorem lowest : (∃ p ∈ nodes, L.key p = L.parent a) ∨
      ∀ c ∈ nodes, L.height (L.key a) ≤ L.height (L.key c) := by
  rcases h a ha with hbase | hstored
  · right
    intro c hc
    rw [L.step, hbase]
    exact h.height_lt hc
  · exact .inl hstored

theorem height_of_lowest (hmin : ∀ c ∈ nodes, L.height (L.key a) ≤ L.height (L.key c)) :
    L.height (L.key a) = L.height base + 1 := by
  rw [L.step]
  rcases h a ha with hbase | ⟨p, hp, hkey⟩
  · rw [hbase]
  · have hle := hmin p hp
    rw [L.step, hkey] at hle
    exact absurd hle (Nat.not_succ_le_self _)

end

end Rooted

end Links
