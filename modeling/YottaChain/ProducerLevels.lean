/-
  **The level lists mirror the producer tables.**

  An entry of a level list repeats data of a row of `producers`.  The law of the
  lists (`LevelLaw`) says that it repeats it correctly, that every producer listed
  has its two rows, that nobody is listed twice and that the lists are not too
  long.  It holds along every run of the contract, and every schedule proposed
  from such lists is strictly ordered by names and has the registered keys.

  An edit of the lists finds the first entry of a producer.  Since nobody is listed
  twice it is the only one, so what an edit does to the law is said once
  (`LevelLaw.edit`) and used for registration, removal and votes.
-/
import YottaChain.VotingEffects

namespace YottaChain.System

open Checked KeyedList List Table

variable {c : Ctx} {deposit : HddDeposit.Tables} {env : Env} {e e' : Election} {t t' : Tables}
  {s : AllProdsLevel} {k : Name} {f : YtaProdInfo → Option YtaProdInfo}

/-! ## 1. The law -/

structure Listing (s : AllProdsLevel) : Prop where
  lengthL1 : s.prodsL1.length ≤ levelOneMax
  lengthL2 : s.prodsL2.length ≤ levelTwoMax
  owners : (s.listed.map YtaProdInfo.owner).Nodup

def Mirrors (e : Election) (p : YtaProdInfo) : Prop :=
  ∃ q x, e.producers.find p.owner = some q ∧ e.producersext.find p.owner = some x ∧
    p.isActive = q.isActive ∧ p.producerKey = q.producerKey ∧ p.totalVotes = q.totalVotes

structure LevelLaw (e : Election) : Prop where
  listing : Listing e.levels
  mirrors : ∀ p ∈ e.levels.listed, Mirrors e p
  /-- Only registered producers have a level. -/
  registered : ∀ u x, e.producersext.find u = some x → ∃ q, e.producers.find u = some q

theorem levelLaw_empty : LevelLaw {} := by
  refine ⟨⟨Nat.zero_le _, Nat.zero_le _, nodup_nil⟩, ?_, ?_⟩
  · intro p hp
    cases hp
  · intro u x hu
    cases hu

theorem levels_congr (h : e'.prodslevel = e.prodslevel) : e'.levels = e.levels := by
  unfold Election.levels
  rw [h]

theorem LevelLaw.of_same (h : LevelLaw e) (hsame : SameElection e e') : LevelLaw e' := by
  have hlevels : e'.levels = e.levels := levels_congr hsame.prodslevel
  refine ⟨hlevels ▸ h.listing, ?_, ?_⟩
  · intro p hp
    rw [hlevels] at hp
    unfold Mirrors
    rw [hsame.producers, hsame.producersext]
    exact h.mirrors p hp
  · rw [hsame.producers, hsame.producersext]
    exact h.registered

theorem Mirrors.congr {p : YtaProdInfo} (h : Mirrors e p)
    (hrow : e'.producers.find p.owner = e.producers.find p.owner)
    (hext : e'.producersext.find p.owner = e.producersext.find p.owner) : Mirrors e' p := by
  unfold Mirrors
  rw [hrow, hext]
  exact h

variable {p : Name}

theorem exists_row_put {rows : Table Name ProducerInfo} {u : Name} {info : ProducerInfo}
    (h : ∃ q, rows.find u = some q) : ∃ q, (rows.put p info).find u = some q := by
  rw [find_put]
  split
  · exact ⟨info, rfl⟩
  · exact h

/-! ## 2. Edits -/

def edited (s : AllProdsLevel) (k : Name) (f : YtaProdInfo → Option YtaProdInfo) : AllProdsLevel :=
  ⟨editAll YtaProdInfo.owner k f s.prodsL1, editAll YtaProdInfo.owner k f s.prodsL2⟩

theorem listed_edited : (edited s k f).listed = editAll YtaProdInfo.owner k f s.listed :=
  (editAll_append _ _).symm

theorem levels_editProducer (h : Listing e.levels) :
    (editProducer e k f).levels = edited e.levels k f := by
  unfold Election.levels at h ⊢
  unfold editProducer
  rcases hs : e.prodslevel with _ | s
  · rfl
  · rw [hs] at h
    simp only [Option.map_some, Option.getD_some] at h ⊢
    rw [editEither_eq h.owners]
    rfl

theorem Listing.edited (h : Listing s) (hf : ∀ a b, f a = some b → b.owner = a.owner) :
    Listing (edited s k f) := by
  refine ⟨(length_editAll_le _).trans h.lengthL1, (length_editAll_le _).trans h.lengthL2, ?_⟩
  rw [listed_edited]
  exact (keys_editAll hf _).nodup h.owners

/-- An edit keeps the law if it repairs the entry of the producer, the other entries
    being right already. -/
theorem LevelLaw.edit (hlisting : Listing e.levels)
    (hf : ∀ a b, f a = some b → b.owner = a.owner)
    (hothers : ∀ p ∈ e.levels.listed, p.owner ≠ k → Mirrors e p)
    (hrepaired : ∀ a ∈ e.levels.listed, a.owner = k → ∀ b, f a = some b → Mirrors e b)
    (hregistered : ∀ u x, e.producersext.find u = some x → ∃ q, e.producers.find u = some q) :
    LevelLaw (editProducer e k f) := by
  refine ⟨?_, ?_, hregistered⟩
  · rw [levels_editProducer hlisting]
    exact hlisting.edited hf
  · intro p hp
    rw [levels_editProducer hlisting, listed_edited, mem_editAll] at hp
    rcases hp with ⟨hp, hne⟩ | ⟨a, ha, hk, hfa⟩
    · exact hothers p hp hne
    · exact hrepaired a ha hk p hfa

theorem LevelLaw.owner_ne_of_no_level (h : LevelLaw e) (hk : e.producersext.find k = none)
    {p : YtaProdInfo} (hp : p ∈ e.levels.listed) : p.owner ≠ k := by
  rintro rfl
  obtain ⟨_, _, _, hext, _⟩ := h.mirrors p hp
  rw [hk] at hext
  cases hext

/-! ## 3. Registration and removal -/

theorem LevelLaw.regproducer {key : PublicKey} {url : Text} {location : UInt16} (h : LevelLaw e)
    (hcall : System.regproducer c e p key url location = .ok e') : LevelLaw e' := by
  rcases regproducer_ok hcall with ⟨info, hp, rfl⟩ | ⟨hp, rfl⟩
  · apply LevelLaw.edit
    · exact h.listing
    · intro a b hab
      cases hab
      rfl
    · intro q hq hne
      exact (h.mirrors q hq).congr (find_put_ne _ _ hne) rfl
    · intro a ha hk b hab
      cases hab
      obtain ⟨row, x, hrow, hext, _, _, hvotes⟩ := h.mirrors a ha
      rw [hk, hp] at hrow
      cases hrow
      refine ⟨{ info with producerKey := key, isActive := true, location := location }, x, ?_, hext,
        rfl, rfl, hvotes⟩
      rw [hk]
      exact find_put_self _ _ _
    · intro u x hx
      exact exists_row_put (h.registered u x hx)
  · refine ⟨h.listing, ?_, ?_⟩
    · intro q hq
      have hne : q.owner ≠ p := by
        intro hqp
        obtain ⟨_, _, hrow, _⟩ := h.mirrors q hq
        rw [hqp, hp] at hrow
        cases hrow
      exact (h.mirrors q hq).congr (find_put_ne _ _ hne) rfl
    · intro u x hx
      exact exists_row_put (h.registered u x hx)

theorem eraseProducer_tables (e : Election) (p : Name) :
    (eraseProducer e p).producers = e.producers.erase p ∧
      (eraseProducer e p).producersext = e.producersext ∧
      (eraseProducer e p).prodslevel = e.prodslevel := by
  unfold eraseProducer
  rcases hp : e.producers.find p with _ | info
  · exact ⟨(erase_of_none hp).symm, rfl, rfl⟩
  · exact ⟨rfl, rfl, rfl⟩

theorem levelLaw_delproducer (hlisting : Listing e.levels)
    (hothers : ∀ q ∈ e.levels.listed, q.owner ≠ p → Mirrors e q)
    (hunlisted : e.producersext.find p = none → ∀ q ∈ e.levels.listed, q.owner ≠ p)
    (hregistered : ∀ u x, e.producersext.find u = some x → ∃ q, e.producers.find u = some q) :
    LevelLaw (delproducer e p) := by
  obtain ⟨hprod, hext, hlevel⟩ := eraseProducer_tables e p
  have hlevels : (eraseProducer e p).levels = e.levels := levels_congr hlevel
  have hrow : ∀ u, u ≠ p → (eraseProducer e p).producers.find u = e.producers.find u := by
    intro u hu
    rw [hprod]
    exact find_erase_ne _ hu
  unfold delproducer
  dsimp only
  rcases hx : (eraseProducer e p).producersext.find p with _ | x
  · have hnone : e.producersext.find p = none := hext ▸ hx
    refine ⟨hlevels ▸ hlisting, ?_, ?_⟩
    · intro q hq
      rw [hlevels] at hq
      have hne := hunlisted hnone q hq
      exact (hothers q hq hne).congr (hrow _ hne) (by rw [hext])
    · intro u y hy
      rw [hext] at hy
      have hu : u ≠ p := by
        rintro rfl
        rw [hnone] at hy
        cases hy
      obtain ⟨q, hq⟩ := hregistered u y hy
      exact ⟨q, (hrow u hu).trans hq⟩
  · apply LevelLaw.edit
    · exact hlevels ▸ hlisting
    · intro a b hab
      cases hab
    · intro q hq hne
      have hq' : q ∈ e.levels.listed := hlevels ▸ hq
      apply (hothers q hq' hne).congr
      · exact hrow _ hne
      · rw [← hext]
        exact find_erase_ne _ hne
    · intro a _ _ b hab
      cases hab
    · intro u y hy
      rw [find_erase] at hy
      split at hy
      · cases hy
      · rename_i hu
        rw [hext] at hy
        obtain ⟨q, hq⟩ := hregistered u y hy
        exact ⟨q, (hrow u hu).trans hq⟩

theorem LevelLaw.rmvproducer (h : LevelLaw e) (hcall : System.rmvproducer c e p = .ok e') :
    LevelLaw e' := by
  obtain ⟨info, hp, rfl⟩ := rmvproducer_ok hcall
  apply levelLaw_delproducer
  · exact h.listing
  · intro q hq hne
    exact (h.mirrors q hq).congr (find_put_ne _ _ hne) rfl
  · intro hnone q hq
    exact h.owner_ne_of_no_level hnone hq
  · intro u x hx
    exact exists_row_put (h.registered u x hx)

/-! ## 4. Levels -/

variable {level : UInt8}

/-- A new entry at the end of one of the lists keeps the law. -/
theorem levelLaw_add (h : LevelLaw e) (hlevel : ∃ x, e.producersext.find p = some x)
    (hunlisted : ∀ q ∈ e.levels.listed, q.owner ≠ p) (hcall : addProducerYta e p level = .ok e') :
    LevelLaw e' := by
  obtain ⟨info, s, hp, rfl, hs⟩ := addProducerYta_ok hcall
  obtain ⟨x, hx⟩ := hlevel
  have hnew : Mirrors e (newEntry p info) := ⟨info, x, hp, hx, rfl, rfl, rfl⟩
  have hfresh : p ∉ e.levels.listed.map YtaProdInfo.owner := by
    intro hmem
    obtain ⟨q, hq, hqp⟩ := mem_map.mp hmem
    exact hunlisted q hq hqp
  rcases hs with rfl | ⟨hlen, rfl⟩ | ⟨hlen, rfl⟩
  · exact ⟨h.listing, h.mirrors, h.registered⟩
  · refine ⟨⟨?_, h.listing.lengthL2, ?_⟩, ?_, h.registered⟩
    · exact length_append.trans_le hlen
    · have hperm : ((e.levels.prodsL1 ++ [newEntry p info]) ++ e.levels.prodsL2).Perm
          (newEntry p info :: e.levels.listed) := by
        rw [append_assoc]
        exact perm_middle
      exact (hperm.map YtaProdInfo.owner).nodup_iff.mpr (nodup_cons.mpr
        ⟨hfresh, h.listing.owners⟩)
    · intro q hq
      simp only [AllProdsLevel.listed, Election.levels, Option.getD_some, append_assoc,
        mem_append, mem_singleton] at hq
      rcases hq with hq | rfl | hq
      · exact h.mirrors q (mem_append_left _ hq)
      · exact hnew
      · exact h.mirrors q (mem_append_right _ hq)
  · refine ⟨⟨h.listing.lengthL1, ?_, ?_⟩, ?_, h.registered⟩
    · exact length_append.trans_le hlen
    · have hperm : (e.levels.prodsL1 ++ (e.levels.prodsL2 ++ [newEntry p info])).Perm
          (newEntry p info :: e.levels.listed) := by
        rw [← append_assoc]
        exact perm_append_singleton _ _
      exact (hperm.map YtaProdInfo.owner).nodup_iff.mpr (nodup_cons.mpr
        ⟨hfresh, h.listing.owners⟩)
    · intro q hq
      simp only [AllProdsLevel.listed, Election.levels, Option.getD_some, mem_append,
        mem_singleton] at hq
      rcases hq with hq | hq | rfl
      · exact h.mirrors q (mem_append_left _ hq)
      · exact h.mirrors q (mem_append_right _ hq)
      · exact hnew

theorem registered_putExt {x : ProducerInfoExt} (h : LevelLaw e)
    (hp : ∃ q, e.producers.find p = some q) (u : Name) (y : ProducerInfoExt)
    (hy : (putExt e p x).producersext.find u = some y) :
    ∃ q, (putExt e p x).producers.find u = some q := by
  by_cases hu : u = p
  · exact hu ▸ hp
  · rw [putExt, find_put_ne _ _ hu] at hy
    exact h.registered u y hy

theorem LevelLaw.seqproducer {shadow : Name} {seq : UInt16} (h : LevelLaw e)
    (hcall : System.seqproducer c e p shadow seq level = .ok e') : LevelLaw e' := by
  obtain ⟨x, ⟨hnone, hadd⟩ | ⟨hsome, hadd⟩⟩ := seqproducer_ok hcall
  · obtain ⟨info, _, hp, _⟩ := addProducerYta_ok hadd
    have hunlisted : ∀ q ∈ e.levels.listed, q.owner ≠ p := fun q hq =>
      h.owner_ne_of_no_level hnone hq
    have hput : LevelLaw (putExt e p x) := by
      refine ⟨h.listing, ?_, registered_putExt h ⟨info, hp⟩⟩
      intro q hq
      exact (h.mirrors q hq).congr rfl (find_put_ne _ _ (hunlisted q hq))
    exact levelLaw_add hput ⟨x, find_put_self _ _ _⟩ hunlisted hadd
  · obtain ⟨info, _, hp, _⟩ := addProducerYta_ok hadd
    refine levelLaw_add ?_ ⟨x, find_put_self _ _ _⟩ ?_ hadd
    · apply LevelLaw.edit
      · exact h.listing
      · intro a b hab
        cases hab
      · intro q hq hne
        exact (h.mirrors q hq).congr rfl (find_put_ne _ _ hne)
      · intro a _ _ b hab
        cases hab
      · exact registered_putExt h ⟨info, hp⟩
    · intro q hq
      rw [rmProducerYta, levels_editProducer (e := putExt e p x) h.listing, listed_edited,
        mem_editAll] at hq
      rcases hq with ⟨_, hne⟩ | ⟨a, _, _, hnone⟩
      · exact hne
      · cases hnone

/-! ## 5. Promotion and demotion -/

def Keeps (p q : YtaProdInfo) : Prop :=
  q.owner = p.owner ∧ q.isActive = p.isActive ∧ q.producerKey = p.producerKey ∧
    q.totalVotes = p.totalVotes

variable {q : YtaProdInfo}

theorem Mirrors.keeps {p : YtaProdInfo} (h : Mirrors e p) (hk : Keeps p q) : Mirrors e q := by
  obtain ⟨row, x, hrow, hext, hactive, hkey, hvotes⟩ := h
  obtain ⟨kowner, kactive, kkey, kvotes⟩ := hk
  exact ⟨row, x, kowner ▸ hrow, kowner ▸ hext, kactive.trans hactive, kkey.trans hkey,
    kvotes.trans hvotes⟩

theorem keeps_keepActive {p r : YtaProdInfo} {changed : Bool} (hp : Keeps r p)
    (h : (keepActive p changed).1 = some q) : Keeps r q := by
  unfold keepActive at h
  split at h
  · cases h
    exact hp
  · cases h

variable {now : UInt64}

theorem keeps_review {required : ℤ} {p : YtaProdInfo} (h : (review required now p).1 = some q) :
    Keeps p q := by
  have hkeep : ∀ inGrace start changed,
      (keepActive { p with isInGrace := inGrace, graceStartTime := start } changed).1 = some q →
        Keeps p q :=
    fun _ _ _ => keeps_keepActive ⟨rfl, rfl, rfl, rfl⟩
  unfold review at h
  split at h
  · split at h
    · split at h
      · cases h
      · exact hkeep _ _ _ h
    · exact hkeep _ _ _ h
  · split at h
    · exact hkeep _ _ _ h
    · exact hkeep _ _ _ h

theorem reviewAll_eq (required : ℤ) (now : UInt64) (l : List YtaProdInfo) :
    (reviewAll required now l).1 = l.filterMap fun p => (review required now p).1 := by
  induction l with
  | nil => rfl
  | cons p _ ih =>
    simp only [reviewAll]
    rcases hp : (review required now p).1 with _ | q
    · rw [filterMap_cons_none (f := fun p => (review required now p).1) hp, ih]
      rfl
    · rw [filterMap_cons_some (f := fun p => (review required now p).1) hp, ih]
      rfl

theorem owners_reviewAll (required : ℤ) (now : UInt64) (l : List YtaProdInfo) :
    ((reviewAll required now l).1.map YtaProdInfo.owner).Sublist (l.map YtaProdInfo.owner) := by
  rw [reviewAll_eq]
  induction l with
  | nil => exact Sublist.refl _
  | cons p _ ih =>
    rcases hp : (review required now p).1 with _ | q
    · rw [filterMap_cons_none (f := fun p => (review required now p).1) hp]
      exact ih.cons _
    · rw [filterMap_cons_some (f := fun p => (review required now p).1) hp, map_cons, map_cons,
        (keeps_review hp).1]
      exact ih.cons_cons _

theorem mem_reviewAll {required : ℤ} {l : List YtaProdInfo} (h : q ∈ (reviewAll required now l).1) :
    ∃ p ∈ l, Keeps p q := by
  rw [reviewAll_eq, mem_filterMap] at h
  obtain ⟨p, hp, hq⟩ := h
  exact ⟨p, hp, keeps_review hq⟩

theorem length_reviewAll_le (required : ℤ) (now : UInt64) (l : List YtaProdInfo) :
    (reviewAll required now l).1.length ≤ l.length := by
  rw [reviewAll_eq]
  exact length_filterMap_le _ _

/-- The promotion loop only moves entries, and only while there is room. -/
theorem promote_spec (l1 l2 : List YtaProdInfo) (hl1 : l1.length ≤ levelOneMax) :
    ((promote l1 l2).1 ++ (promote l1 l2).2.1).Perm (l1 ++ l2) ∧
      (promote l1 l2).1.length ≤ levelOneMax ∧ (promote l1 l2).2.1.length ≤ l2.length := by
  induction l2 generalizing l1 with
  | nil => exact ⟨Perm.refl _, hl1, Nat.le_refl _⟩
  | cons p _ ih =>
    by_cases hvotes : levelOneVotes ≤ p.totalVotes
    · by_cases hroom : l1.length < levelOneMax
      · simp only [promote, if_pos hvotes, if_pos hroom]
        have hlen : (l1 ++ [p]).length ≤ levelOneMax := length_append.trans_le hroom
        obtain ⟨hperm, h1, h2⟩ := ih (l1 ++ [p]) hlen
        refine ⟨?_, h1, h2.trans (Nat.le_succ _)⟩
        rw [append_assoc] at hperm
        exact hperm
      · simp only [promote, if_pos hvotes, if_neg hroom]
        exact ⟨Perm.refl _, hl1, Nat.le_refl _⟩
    · simp only [promote, if_neg hvotes]
      obtain ⟨hperm, h1, h2⟩ := ih l1 hl1
      refine ⟨?_, h1, Nat.succ_le_succ h2⟩
      exact perm_middle.trans ((hperm.cons p).trans perm_middle.symm)

/-- The lists after a review are the reviewed entries, perhaps in another order. -/
theorem relevel_spec (sorter : Sorter) (now : UInt64) (h : Listing s) :
    (relevel sorter now s).1.listed.Perm ((reviewAll levelOneVotes now s.prodsL1).1 ++
      (reviewAll levelTwoVotes now s.prodsL2).1) ∧
    (relevel sorter now s).1.prodsL1.length ≤ levelOneMax ∧
    (relevel sorter now s).1.prodsL2.length ≤ levelTwoMax := by
  have h1 := (length_reviewAll_le levelOneVotes now s.prodsL1).trans h.lengthL1
  have h2 := (length_reviewAll_le levelTwoVotes now s.prodsL2).trans h.lengthL2
  unfold relevel
  generalize (reviewAll levelOneVotes now s.prodsL1) = r1 at h1 ⊢
  generalize (reviewAll levelTwoVotes now s.prodsL2) = r2 at h2 ⊢
  dsimp only
  split
  · have hsort := sorter.perm moreVotes r2.1
    obtain ⟨hperm, hp1, hp2⟩ := promote_spec r1.1 (sorter.sort moreVotes r2.1) h1
    refine ⟨hperm.trans (hsort.append_left _), hp1, hp2.trans ?_⟩
    rw [hsort.length_eq]
    exact h2
  · exact ⟨Perm.refl _, h1, h2⟩

theorem Listing.relevel (sorter : Sorter) (now : UInt64) (h : Listing s) :
    Listing (relevel sorter now s).1 := by
  obtain ⟨hperm, h1, h2⟩ := relevel_spec sorter now h
  refine ⟨h1, h2, ?_⟩
  rw [(hperm.map YtaProdInfo.owner).nodup_iff, map_append]
  have hsub := (owners_reviewAll levelOneVotes now s.prodsL1).append
    (owners_reviewAll levelTwoVotes now s.prodsL2)
  have howners := h.owners
  rw [AllProdsLevel.listed, map_append] at howners
  exact hsub.nodup howners

theorem LevelLaw.reprodlevel {sorter : Sorter} {pay : Pay} (h : LevelLaw e)
    (hcall : System.reprodlevel c sorter pay e = .ok e') : LevelLaw e' := by
  rcases reprodlevel_ok hcall with rfl | rfl
  · exact h
  · rcases updateProducerLevel_eq sorter c.currentTime e with hsame | ⟨s, hs, hset⟩
    · rw [hsame]
      exact h
    · have hlevels : e.levels = s := by
        unfold Election.levels
        rw [hs]
        rfl
      have hlisting : Listing s := hlevels ▸ h.listing
      rw [hset]
      refine ⟨hlisting.relevel sorter c.currentTime, ?_, h.registered⟩
      intro q hq
      have hmem := (relevel_spec sorter c.currentTime hlisting).1.mem_iff.mp hq
      rcases mem_append.mp hmem with hmem | hmem
      · obtain ⟨p, hp, hkeeps⟩ := mem_reviewAll hmem
        exact (h.mirrors p (hlevels ▸ mem_append_left _ hp)).keeps hkeeps
      · obtain ⟨p, hp, hkeeps⟩ := mem_reviewAll hmem
        exact (h.mirrors p (hlevels ▸ mem_append_right _ hp)).keeps hkeeps

/-! ## 6. Votes -/

theorem LevelLaw.tally {row : ProducerInfo} {delta : ℤ} (h : LevelLaw e)
    (hp : e.producers.find p = some row) : LevelLaw (tally e p row delta) := by
  have hregistered : ∀ u x, e.producersext.find u = some x →
      ∃ q, (e.producers.put p (addVotes row delta)).find u = some q := fun u x hx =>
    exists_row_put (h.registered u x hx)
  unfold System.tally relist
  dsimp only
  rcases hx : e.producersext.find p with _ | x
  · refine ⟨h.listing, ?_, hregistered⟩
    intro q hq
    have hne := h.owner_ne_of_no_level hx hq
    exact (h.mirrors q hq).congr (find_put_ne _ _ hne) rfl
  · apply LevelLaw.edit
    · exact h.listing
    · intro a b hab
      cases hab
      rfl
    · intro q hq hne
      exact (h.mirrors q hq).congr (find_put_ne _ _ hne) rfl
    · intro a ha hk b hab
      cases hab
      obtain ⟨old, y, hrow, hext, hactive, hkey, _⟩ := h.mirrors a ha
      rw [hk, hp] at hrow
      cases hrow
      refine ⟨addVotes row delta, y, ?_, hext, hactive, hkey, rfl⟩
      rw [hk]
      exact find_put_self _ _ _
    · exact hregistered

theorem LevelLaw.relist_missing (h : LevelLaw e) (hp : e.producers.find p = none) :
    relist e p 0 = e := by
  unfold relist
  rcases hx : e.producersext.find p with _ | x
  · rfl
  · obtain ⟨q, hq⟩ := h.registered p x hx
    rw [hp] at hq
    cases hq

theorem LevelLaw.voted {user : Name} {producers : List Name} {voter : VoterInfo} {weight : ℤ}
    {missing : Name} {e1 : Election} {voting : Bool} (h : LevelLaw e)
    (hvoted : Voted c deposit e user producers voter weight missing e1 e' voting) :
    LevelLaw e' := by
  have hstart : LevelLaw (activate c.currentTime e voter) := by
    unfold activate
    split
    · exact ⟨h.listing, h.mirrors, h.registered⟩
    · exact h
  have hloop : LevelLaw e1 := by
    refine Dispatch.foldlM_invariant (P := fun r => LevelLaw r.1) ?_ hstart hvoted.loop
    rintro ⟨e, m⟩ ⟨p, delta, isNew⟩ ⟨e', m'⟩ hI hstep
    rcases applyDelta_ok hstep with ⟨row, hp, rfl, _⟩ | ⟨hp, rfl, _⟩
    · exact hI.tally hp
    · exact (hI.relist_missing hp).symm ▸ hI
  rw [hvoted.written]
  exact ⟨hloop.listing, hloop.mirrors, hloop.registered⟩

/-- Every action keeps the law of the levels. -/
theorem ElectionCall.levelLaw {a : Action} (hno : NoProxies e) (h : LevelLaw e)
    (hcall : ElectionCall env e e' a) : LevelLaw e' := by
  cases hcall with
  | aside hsame => exact h.of_same hsame
  | vote hvote =>
    refine hvote.rule hno (fun owner amount _ => ?_) ?_ h
    · exact ⟨h.listing, h.mirrors, h.registered⟩
    · intro e0 user producers voter weight missing e1 e2 voting _ h0 hvoted
      exact h0.voted hvoted
  | regproducer hcall => exact h.regproducer hcall
  | seqproducer hcall => exact h.seqproducer hcall
  | rmvproducer hcall => exact h.rmvproducer hcall
  | reprodlevel hcall => exact h.reprodlevel hcall

theorem levelLaw_run (hrun : Run.Steps Step {} t) : LevelLaw t.election := by
  have hboth := Run.invariant (P := fun t : Tables => NoProxies t.election ∧ LevelLaw t.election)
    (fun t t' h hstep => ?_) (s := {}) ⟨fun u v hv => ?_, levelLaw_empty⟩ hrun
  · exact hboth.2
  · obtain ⟨env, a, sent, hcall⟩ := hstep
    have helection := apply_election hcall
    exact ⟨helection.noProxies h.1, helection.levelLaw h.1 h.2⟩
  · cases hv

/-! ## 7. The schedule -/

theorem entryLe_trans (a b d : ProducerKey × UInt16) (hab : entryLe a b) (hbd : entryLe b d) :
    entryLe a d := by
  simp only [entryLe, Bool.or_eq_true, Bool.and_eq_true, decide_eq_true_eq,
    UInt64.lt_iff_toNat_lt, UInt16.le_iff_toNat_le, ← UInt64.toNat_inj] at *
  omega

theorem entryLe_total (a b : ProducerKey × UInt16) : entryLe a b || entryLe b a := by
  simp only [entryLe, Bool.or_eq_true, Bool.and_eq_true, decide_eq_true_eq,
    UInt64.lt_iff_toNat_lt, UInt16.le_iff_toNat_le, ← UInt64.toNat_inj]
  omega

theorem name_lt_of_entryLe {a b : ProducerKey × UInt16} (h : entryLe a b)
    (hne : a.1.producerName ≠ b.1.producerName) : a.1.producerName < b.1.producerName := by
  simp only [entryLe, Bool.or_eq_true, Bool.and_eq_true, decide_eq_true_eq] at h
  exact h.resolve_right fun heq => hne heq.1

/-- The producers chosen are listed, each once, and there is room for them. -/
theorem topProducers_spec (sorter : Sorter) (maxL2 : UInt8) (h : Listing s) :
    (topProducers sorter s maxL2).length ≤ 21 ∧
      ((topProducers sorter s maxL2).map YtaProdInfo.owner).Nodup ∧
      ∀ p ∈ topProducers sorter s maxL2, p ∈ s.listed := by
  have hlen := h.lengthL1
  have hall : (s.prodsL1 ++ sorter.sort moreVotes s.prodsL2).Perm s.listed :=
    (sorter.perm moreVotes s.prodsL2).append_left _
  have howners := (hall.map YtaProdInfo.owner).nodup_iff.mpr h.owners
  unfold topProducers
  split
  · have hsub : (s.prodsL1 ++ (sorter.sort moreVotes s.prodsL2).take
        (min (21 - s.prodsL1.length) maxL2.toNat)).Sublist
        (s.prodsL1 ++ sorter.sort moreVotes s.prodsL2) :=
      (Sublist.refl _).append (take_sublist _ _)
    refine ⟨?_, (hsub.map _).nodup howners, fun p hp => hall.mem_iff.mp (hsub.subset hp)⟩
    rw [length_append, length_take]
    unfold levelOneMax at hlen
    omega
  · refine ⟨hlen, ?_, fun p hp => mem_append_left _ hp⟩
    exact ((sublist_append_left _ _).map _).nodup howners

theorem schedule_sound {sorter : Sorter} {schedule : List ProducerKey} (h : LevelLaw e)
    (hs : proposedSchedule sorter e = some schedule) :
    schedule.length ≤ 21 ∧ schedule.Pairwise (fun a b => a.producerName < b.producerName) ∧
      ∀ entry ∈ schedule, ∃ q, e.producers.find entry.producerName = some q ∧
        q.producerKey = entry.blockSigningKey := by
  unfold proposedSchedule at hs
  dsimp only at hs
  split at hs
  · rcases hl : e.prodslevel with _ | s
    · rw [hl] at hs
      cases hs
    · have hlevels : e.levels = s := by
        unfold Election.levels
        rw [hl]
        rfl
      simp only [hl] at hs
      split at hs
      · cases hs
      · cases hs
        obtain ⟨hlen, hnodup, hmem⟩ := topProducers_spec sorter (e.globalext3.getD {}).maxL2
          (hlevels ▸ h.listing)
        generalize topProducers sorter s (e.globalext3.getD {}).maxL2 = top at hlen hnodup hmem ⊢
        have hperm := sorter.perm entryLe (top.map YtaProdInfo.entry)
        have hsorted := sorter.sorted entryLe entryLe_trans entryLe_total
          (top.map YtaProdInfo.entry)
        refine ⟨?_, ?_, ?_⟩
        · rw [length_map, hperm.length_eq, length_map]
          exact hlen
        · have hnames : ((sorter.sort entryLe (top.map YtaProdInfo.entry)).map
              fun a => a.1.producerName).Nodup := by
            rw [(hperm.map _).nodup_iff, map_map]
            exact hnodup
          rw [pairwise_map]
          rw [List.Nodup, pairwise_map] at hnames
          exact hsorted.imp₂ (fun a b hle hne => name_lt_of_entryLe hle hne) hnames
        · intro entry hentry
          obtain ⟨a, ha, rfl⟩ := mem_map.mp hentry
          obtain ⟨p, hp, rfl⟩ := mem_map.mp (hperm.mem_iff.mp ha)
          obtain ⟨q, _, hq, _, _, hkey, _⟩ := h.mirrors p (hlevels ▸ hmem p hp)
          exact ⟨q, hq, hkey.symm⟩
  · cases hs

/-- **The level lists of every reachable state** are within their limits, name nobody
    twice and repeat the rows of registered producers, and whatever the settings are,
    a schedule proposed from them has at most 21 entries, strictly ordered by names
    and with the registered keys. -/
theorem levels_consistent (hrun : Run.Steps Step {} t) :
    t.election.levels.prodsL1.length ≤ 21 ∧ t.election.levels.prodsL2.length ≤ 105 ∧
    ((t.election.levels.prodsL1 ++ t.election.levels.prodsL2).map YtaProdInfo.owner).Nodup ∧
    (∀ p ∈ t.election.levels.prodsL1 ++ t.election.levels.prodsL2, ∃ q x,
      t.election.producers.find p.owner = some q ∧
      t.election.producersext.find p.owner = some x ∧
      p.isActive = q.isActive ∧ p.producerKey = q.producerKey ∧ p.totalVotes = q.totalVotes) ∧
    ∀ (sorter : Sorter) (settings : Option AutoSchedule) (schedule : List ProducerKey),
      proposedSchedule sorter { t.election with globalext3 := settings } = some schedule →
      schedule.length ≤ 21 ∧
      schedule.Pairwise (fun a b => a.producerName < b.producerName) ∧
      ∀ entry ∈ schedule, ∃ q, t.election.producers.find entry.producerName = some q ∧
        q.producerKey = entry.blockSigningKey := by
  have hlaw := levelLaw_run hrun
  refine ⟨hlaw.listing.lengthL1, hlaw.listing.lengthL2, hlaw.listing.owners, hlaw.mirrors, ?_⟩
  intro sorter settings schedule hs
  have hsound := schedule_sound (e := { t.election with globalext3 := settings })
    ⟨hlaw.listing, hlaw.mirrors, hlaw.registered⟩ hs
  exact hsound

/-- Two producers with levels, a vote for the second, which is then put on the first
    level, and a schedule from both lists. -/
def electionSample : List (Env × Action) :=
  [.regproducer (N "bpone") { type := 1 } [] 0, .regproducer (N "bptwo") { type := 2 } [] 0,
    .seqproducer (N "bpone") (N "bpone") 1 2, .seqproducer (N "bptwo") (N "bptwo") 2 2,
    .delegatebw (N "carol") (N "carol") (.core 30) (.core 40) false,
    .voteproducer (N "carol") 0 [N "bptwo"], .seqproducer (N "bptwo") (N "bptwo") 2 1,
    .setautosche true 1 1].map fun a => (Env.plain 5 0, a)

theorem levels_consistent_sample : ∃ t, Run.Steps Step {} t ∧
    t.election.levels.listed.map (fun p => (p.owner, p.totalVotes)) =
      [(N "bptwo", 70), (N "bpone", 0)] ∧
    proposedSchedule .insertion t.election =
      some [⟨N "bpone", { type := 1 }⟩, ⟨N "bptwo", { type := 2 }⟩] ∧
    ((t.election.levels.prodsL1 ++ t.election.levels.prodsL2).map YtaProdInfo.owner).Nodup := by
  have hrun : (runActions {} electionSample).map (fun t : Tables =>
      (t.election.levels.listed.map (fun p => (p.owner, p.totalVotes)),
        proposedSchedule .insertion t.election)) =
      .ok ([(N "bptwo", 70), (N "bpone", 0)],
        some [⟨N "bpone", { type := 1 }⟩, ⟨N "bptwo", { type := 2 }⟩]) := by
    decide +kernel
  obtain ⟨t, ht, hview⟩ := exists_of_map_eq_ok hrun
  rw [Prod.mk.injEq] at hview
  have hsteps := runActions_steps ht
  exact ⟨t, hsteps, hview.1, hview.2, (levels_consistent hsteps).2.2.1⟩

end YottaChain.System
