import FactGraph.Proofs.Plans

/-!
# Counting makes the same plan

A plan is made with counters: a walk along the links counts for each block how many others feed it,
and then blocks are taken from a queue, each lowering the counters of the blocks that it feeds.
This module shows that the counters arrive at `Plan.greedy`, which has none
(`Plan.assemble_eq_greedy`), whatever list of components they start from.

* **Numbers for blocks.**  Sorting makes the list of blocks the same for every list of the components
  (`Plan.arrange_eq_blocks`), and `Plan.owners` numbers each position by its block.
* **The walk.**  After any number of links, the successors, counters, tags and loops that have been
  noted are those of these links (`Condensation.Reflects`).  A link that repeats a pair of blocks
  must not count again, so the counter is the size of a SET of blocks.
* **The queue.**  `Progress.Faithful` says how the state follows from the blocks taken so far: a
  counter is the number of blocks that feed it and remain, the queue holds the remaining blocks
  whose counter is zero, and the depth of a taken block is final.  One step keeps it
  (`Progress.Faithful.take`).  A counter is never lowered below zero
  (`Progress.Faithful.inDegree_pos`).
* **The same plan.**  The head of the queue is the first remaining block that no other feeds, so the
  run follows `Plan.schedule` (`Progress.Faithful.exists_run`), and at its end the queue is empty.
-/

namespace FactGraph

/-! ## 1. Sorting and numbering -/

namespace Plan

section Sorting

variable {α : Type} {key : α → Nat}

theorem enqueue_perm (a : α) (xs : List α) : (enqueue key a xs).Perm (a :: xs) := by
  induction xs with
  | nil => exact List.Perm.refl _
  | cons b rest ih =>
    rw [enqueue]
    split
    · exact List.Perm.refl _
    · exact (ih.cons b).trans (List.Perm.swap a b rest)

theorem mem_enqueue {a b : α} {xs : List α} : b ∈ enqueue key a xs ↔ b = a ∨ b ∈ xs :=
  (enqueue_perm a xs).mem_iff.trans List.mem_cons

theorem pairwise_enqueue {a : α} {xs : List α} (h : xs.Pairwise fun b c => key b ≤ key c) :
    (enqueue key a xs).Pairwise fun b c => key b ≤ key c := by
  induction xs with
  | nil => exact List.pairwise_singleton _ _
  | cons b rest ih =>
    obtain ⟨hb, hrest⟩ := List.pairwise_cons.mp h
    rw [enqueue]
    split
    · next hle =>
      refine List.pairwise_cons.mpr ⟨fun c hc => ?_, h⟩
      rcases List.mem_cons.mp hc with rfl | hc
      · exact hle
      · exact Nat.le_trans hle (hb c hc)
    · next hlt =>
      refine List.pairwise_cons.mpr ⟨fun c hc => ?_, ih hrest⟩
      rcases mem_enqueue.mp hc with rfl | hc
      · exact Nat.le_of_not_le hlt
      · exact hb c hc

theorem sortBy_perm (key : α → Nat) (xs : List α) : (sortBy key xs).Perm xs := by
  induction xs with
  | nil => exact List.Perm.refl _
  | cons a rest ih => exact (enqueue_perm a _).trans (ih.cons a)

theorem pairwise_sortBy (key : α → Nat) (xs : List α) :
    (sortBy key xs).Pairwise fun a b => key a ≤ key b := by
  induction xs with
  | nil => exact List.Pairwise.nil
  | cons a rest ih => exact pairwise_enqueue ih

/-- Sorting finds the ascending list of some entries, if there is one. -/
theorem sortBy_eq {xs ys : List α} (hperm : xs.Perm ys)
    (hys : ys.Pairwise fun a b => key a < key b) : sortBy key xs = ys := by
  have hsame : (ys.map key).Nodup := List.pairwise_map.mpr (hys.imp Nat.ne_of_lt)
  have hall := (sortBy_perm key xs).trans hperm
  refine hall.eq_of_pairwise (fun a b ha hb hab hba => ?_) (pairwise_sortBy key xs)
    (hys.imp Nat.le_of_lt)
  exact List.inj_on_of_nodup_map hsame (hall.mem_iff.mp ha) hb (Nat.le_antisymm hab hba)

/-- A number that is not there yet joins a strictly ascending list. -/
theorem pairwise_lt_enqueue {a : Nat} {xs : List Nat} (h : xs.Pairwise (· < ·)) (ha : a ∉ xs) :
    (enqueue id a xs).Pairwise (· < ·) := by
  have hnodup : (enqueue id a xs).Nodup :=
    (enqueue_perm a xs).nodup_iff.mpr (List.nodup_cons.mpr ⟨ha, h.imp Nat.ne_of_lt⟩)
  have hle : (enqueue id a xs).Pairwise fun b c => id b ≤ id c :=
    pairwise_enqueue (h.imp Nat.le_of_lt)
  exact (hnodup.and hle).imp fun h => Nat.lt_of_le_of_ne h.2 h.1

end Sorting

section Numbering

theorem getD_modify {α : Type} (xs : List α) (f : α → α) (default : α) {i j : Nat}
    (hj : j < xs.length) :
    (xs.modify i f).getD j default = if i = j then f (xs.getD j default) else xs.getD j default := by
  rw [List.getD_eq_getElem?_getD, List.getD_eq_getElem?_getD, List.getElem?_modify,
    List.getElem?_eq_getElem hj]
  split <;> simp [*]

theorem getD_modify_of_ne {α : Type} (xs : List α) (f : α → α) (default : α) {i j : Nat}
    (h : i ≠ j) : (xs.modify i f).getD j default = xs.getD j default := by
  simp [List.getD_eq_getElem?_getD, h]

theorem getD_set {α : Type} (xs : List α) (a default : α) {i j : Nat} (hj : j < xs.length) :
    (xs.set i a).getD j default = if i = j then a else xs.getD j default := by
  rw [List.getD_eq_getElem?_getD, List.getD_eq_getElem?_getD, List.getElem?_set]
  split
  · next h => subst h; simp [hj]
  · rfl

theorem getD_replicate {α : Type} (a default : α) {n i : Nat} (hi : i < n) :
    (List.replicate n a).getD i default = a := by
  rw [List.getD_eq_getElem?_getD, List.getElem?_replicate, if_pos hi, Option.getD_some]

/-- One block writes its number at its members. -/
theorem getD_foldl_set (block : Block) (c : Nat) (owners : List Nat) {i : Nat}
    (hi : i < owners.length) :
    (block.foldl (fun owners i => owners.set i c) owners).getD i 0 =
      if i ∈ block then c else owners.getD i 0 := by
  induction block generalizing owners with
  | nil => simp
  | cons j rest ih =>
    rw [List.foldl_cons, ih _ (by rw [List.length_set]; exact hi), getD_set _ _ _ hi]
    by_cases hrest : i ∈ rest
    · simp [hrest]
    · simp [hrest, eq_comm]

theorem length_foldl_set (block : Block) (c : Nat) (owners : List Nat) :
    (block.foldl (fun owners i => owners.set i c) owners).length = owners.length := by
  induction block generalizing owners with
  | nil => rfl
  | cons i rest ih => rw [List.foldl_cons, ih, List.length_set]

/-- Blocks that are numbered from `first` on leave a position alone or write the number of the one
block that it is in. -/
theorem getD_foldl_owners {blocks : List Block} (hnodup : blocks.flatten.Nodup) (first : Nat)
    (owners : List Nat) {i : Nat} (hi : i < owners.length) :
    (∀ c, i ∈ blocks.getD c [] → ((blocks.zipIdx first).foldl (fun owners entry =>
      entry.1.foldl (fun owners i => owners.set i entry.2) owners) owners).getD i 0 = first + c) ∧
    (i ∉ blocks.flatten → ((blocks.zipIdx first).foldl (fun owners entry =>
      entry.1.foldl (fun owners i => owners.set i entry.2) owners) owners).getD i 0 =
        owners.getD i 0) := by
  induction blocks generalizing first owners with
  | nil => exact ⟨fun c hc => by simp at hc, fun _ => rfl⟩
  | cons block rest ih =>
    rw [List.flatten_cons, List.nodup_append] at hnodup
    obtain ⟨-, hrest, hapart⟩ := hnodup
    have hlen := length_foldl_set block first owners
    obtain ⟨hthere, helse⟩ := ih hrest (first + 1)
      (block.foldl (fun owners i => owners.set i first) owners) (hlen ▸ hi)
    rw [List.zipIdx_cons, List.foldl_cons]
    constructor
    · intro c hc
      cases c with
      | zero =>
        rw [List.getD_cons_zero] at hc
        rw [helse fun h => hapart i hc i h rfl, getD_foldl_set _ _ _ hi, if_pos hc]
        rfl
      | succ c =>
        rw [List.getD_cons_succ] at hc
        rw [hthere c hc]
        omega
    · intro hout
      rw [List.flatten_cons, List.mem_append, not_or] at hout
      rw [helse hout.2, getD_foldl_set _ _ _ hi, if_neg hout.1]

variable {ds : Declarations}

theorem arrange_eq_blocks {parts : List (List Nat)}
    (h : (parts.map (sortBy id)).Perm (blocks ds)) : arrange parts = blocks ds :=
  sortBy_eq h (blocks_headD_ascending ds)

/-- The number of the block of a position. -/
def ownerOf (ds : Declarations) (i : Nat) : Nat := (owners ds.length (blocks ds)).getD i 0

/-- The block of a number. -/
def numbered (ds : Declarations) (c : Nat) : Block := (blocks ds).getD c []

theorem numbered_mem_blocks {c : Nat} (hc : c < (blocks ds).length) :
    numbered ds c ∈ blocks ds := by
  rw [numbered, List.getD_eq_getElem _ _ hc]
  exact List.getElem_mem hc

theorem lt_of_mem_numbered {c i : Nat} (h : i ∈ numbered ds c) : c < (blocks ds).length := by
  by_contra hc
  rw [numbered, List.getD_eq_default _ _ (Nat.le_of_not_lt hc)] at h
  cases h

theorem lt_length_of_mem_numbered {c i : Nat} (h : i ∈ numbered ds c) : i < ds.length := by
  have hflat := List.mem_flatten_of_mem (numbered_mem_blocks (lt_of_mem_numbered h)) h
  exact List.mem_range.mp (flatten_blocks_perm.mem_iff.mp hflat)

/-- **A position belongs to the block that its number names.** -/
theorem ownerOf_eq_iff {i c : Nat} (hi : i < ds.length) :
    ownerOf ds i = c ↔ i ∈ numbered ds c := by
  have hnodup : (blocks ds).flatten.Nodup := flatten_blocks_perm.nodup_iff.mpr List.nodup_range
  have hnumber : ∀ c, i ∈ numbered ds c → ownerOf ds i = c := by
    intro c hc
    have := (getD_foldl_owners hnodup 0 (List.replicate ds.length 0)
      (by rw [List.length_replicate]; exact hi)).1 c hc
    rw [Nat.zero_add] at this
    exact this
  obtain ⟨block, hblock, hmem⟩ :=
    List.mem_flatten.mp (flatten_blocks_perm.mem_iff.mpr (List.mem_range.mpr hi))
  obtain ⟨d, hd, rfl⟩ := List.getElem_of_mem hblock
  have hown : i ∈ numbered ds d := by
    rw [numbered, List.getD_eq_getElem _ _ hd]
    exact hmem
  constructor
  · rintro rfl
    rw [hnumber d hown]
    exact hown
  · exact hnumber c

theorem ownerOf_lt {i : Nat} (hi : i < ds.length) : ownerOf ds i < (blocks ds).length :=
  lt_of_mem_numbered ((ownerOf_eq_iff hi).mp rfl)

theorem numbered_injOn {c d : Nat} (hc : c < (blocks ds).length) (hd : d < (blocks ds).length)
    (h : numbered ds c = numbered ds d) : c = d := by
  rw [numbered, numbered, List.getD_eq_getElem _ _ hc, List.getD_eq_getElem _ _ hd] at h
  exact (nodup_blocks.getElem_inj_iff).mp h

theorem map_numbered_range : (List.range (blocks ds).length).map (numbered ds) = blocks ds := by
  refine List.ext_getElem (by simp) fun c hc hc' => ?_
  rw [List.getElem_map, List.getElem_range, numbered, List.getD_eq_getElem _ _ hc']

end Numbering

end Plan

/-! ## 2. The walk along the links -/

namespace Condensation

open Plan

variable {owners : List Nat} {count : Nat} {seen : List Link} {known : Condensation} {link : Link}

/-- Whether one block is known to feed another. -/
def Feeds (successors : List (KeySet Nat)) (c d : Nat) : Prop :=
  (successors.getD c ∅).contains d = true

instance {successors : List (KeySet Nat)} : DecidableRel (Feeds successors) :=
  fun _ _ => inferInstanceAs (Decidable (_ = true))

/-- What has been noted is what the links seen so far say. -/
structure Reflects (owners : List Nat) (count : Nat) (seen : List Link) (known : Condensation) :
    Prop where
  length_successors : known.successors.length = count
  length_inDegrees : known.inDegrees.length = count
  length_innerTags : known.innerTags.length = count
  length_selfLoops : known.selfLoops.length = count
  feeds_iff : ∀ c < count, ∀ d, Feeds known.successors c d ↔
    c ≠ d ∧ ∃ link ∈ seen, owners.getD link.source 0 = c ∧ owners.getD link.target 0 = d
  /-- The blocks that feed a block are counted, not the links. -/
  inDegree_eq : ∀ d < count, known.inDegrees.getD d 0 =
    {c ∈ Finset.range count | Feeds known.successors c d}.card
  innerTag_iff : ∀ c < count, ∀ tag, (known.innerTags.getD c ∅).contains tag = true ↔
    ∃ link ∈ seen, link.reason = .tag tag ∧ owners.getD link.source 0 = c ∧
      owners.getD link.target 0 = c
  selfLoop_iff : ∀ c < count, known.selfLoops.getD c false = true ↔
    ∃ link ∈ seen, link.source = link.target ∧ owners.getD link.source 0 = c

theorem not_feeds_blank (count c d : Nat) : ¬ Feeds (blank count).successors c d := by
  rw [Feeds, blank, List.getD_eq_getElem?_getD, List.getElem?_replicate]
  split <;> exact Bool.false_ne_true

theorem reflects_blank (owners : List Nat) (count : Nat) :
    Reflects owners count [] (blank count) where
  length_successors := List.length_replicate
  length_inDegrees := List.length_replicate
  length_innerTags := List.length_replicate
  length_selfLoops := List.length_replicate
  feeds_iff c _ d := by simp [not_feeds_blank]
  inDegree_eq d hd := by
    rw [Finset.filter_false_of_mem fun c _ => not_feeds_blank count c d]
    exact getD_replicate _ _ hd
  innerTag_iff c hc tag := by
    rw [blank, getD_replicate _ _ hc]
    exact ⟨fun h => absurd h Bool.false_ne_true, by simp⟩
  selfLoop_iff c _ := by simp [blank]

theorem exists_mem_concat {p : Link → Prop} :
    (∃ l ∈ seen ++ [link], p l) ↔ (∃ l ∈ seen, p l) ∨ p link := by
  simp only [List.mem_append, List.mem_singleton, or_and_right, exists_or, exists_eq_left]

theorem feeds_modify {successors : List (KeySet Nat)} {source target c d : Nat}
    (hc : c < successors.length) :
    Feeds (successors.modify source (·.add target)) c d ↔
      Feeds successors c d ∨ (source = c ∧ target = d) := by
  rw [Feeds, Feeds, getD_modify _ _ _ hc]
  split
  · next hsource => rw [KeySet.contains_add, or_comm, and_iff_right hsource, @eq_comm _ d]
  · next hsource => rw [or_iff_left fun hnew => hsource hnew.1]

/-- A pair of blocks that is new raises one counter by one. -/
theorem card_feeds_modify {successors : List (KeySet Nat)} {source target d : Nat}
    (hlen : successors.length = count) (hsource : source < count)
    (hnew : ¬ Feeds successors source target) :
    {c ∈ Finset.range count | Feeds (successors.modify source (·.add target)) c d}.card =
      {c ∈ Finset.range count | Feeds successors c d}.card + if target = d then 1 else 0 := by
  rw [Finset.filter_congr fun c hc => feeds_modify (hlen ▸ Finset.mem_range.mp hc)]
  by_cases hd : target = d
  · subst hd
    have hinsert : {c ∈ Finset.range count | Feeds successors c target ∨
        (source = c ∧ target = target)} =
        insert source {c ∈ Finset.range count | Feeds successors c target} := by
      ext c
      simp only [Finset.mem_filter, Finset.mem_range, Finset.mem_insert, and_true]
      constructor
      · rintro ⟨hc, hfeeds | rfl⟩
        · exact .inr ⟨hc, hfeeds⟩
        · exact .inl rfl
      · rintro (rfl | ⟨hc, hfeeds⟩)
        · exact ⟨hsource, .inr rfl⟩
        · exact ⟨hc, .inl hfeeds⟩
    have hout : source ∉ {c ∈ Finset.range count | Feeds successors c target} :=
      fun hmem => hnew (Finset.mem_filter.mp hmem).2
    rw [hinsert, Finset.card_insert_of_notMem hout, if_pos rfl]
  · simp only [hd, and_false, or_false, if_false, Nat.add_zero]

/-- A link inside a block says something about the block alone. -/
theorem Reflects.note_inside (h : Reflects owners count seen known)
    (hinside : owners.getD link.source 0 = owners.getD link.target 0) :
    Reflects owners count (seen ++ [link]) (known.note owners link) := by
  rw [note, if_pos hinside]
  refine ⟨h.length_successors, h.length_inDegrees, ?_, ?_, fun c hc d => ?_, h.inDegree_eq,
    fun c hc tag => ?_, fun c hc => ?_⟩
  · cases link.reason with
    | tag name => exact (List.length_modify _ _ _).trans h.length_innerTags
    | need => exact h.length_innerTags
  · rw [apply_ite List.length, List.length_set, ite_self, h.length_selfLoops]
  · rw [exists_mem_concat, h.feeds_iff c hc d]
    refine and_congr_right fun hne => (or_iff_left ?_).symm
    rintro ⟨rfl, rfl⟩
    exact hne hinside
  · rw [exists_mem_concat, ← h.innerTag_iff c hc tag, ← hinside, and_self]
    cases hreason : link.reason with
    | need => simp
    | tag name =>
      show ((known.innerTags.modify _ (·.add name)).getD c ∅).contains tag = true ↔ _
      rw [getD_modify _ _ _ (h.length_innerTags ▸ hc), Reason.tag.injEq]
      split
      · next hc => rw [KeySet.contains_add, or_comm, and_iff_left hc, @eq_comm _ tag]
      · next hc => rw [or_iff_left fun hnew => hc hnew.2]
  · rw [exists_mem_concat, ← h.selfLoop_iff c hc]
    show (if link.source = link.target then known.selfLoops.set _ true
      else known.selfLoops).getD c false = true ↔ _
    by_cases hsame : link.source = link.target
    · rw [if_pos hsame, getD_set _ _ _ (h.length_selfLoops ▸ hc), and_iff_right hsame]
      split
      · next hc => exact iff_of_true rfl (.inr hc)
      · next hc => rw [or_iff_left hc]
    · rw [if_neg hsame, or_iff_left fun hnew => hsame hnew.1]

/-- A link between blocks is new or repeats what is known. -/
theorem Reflects.note_across (h : Reflects owners count seen known)
    (hsource : owners.getD link.source 0 < count)
    (hacross : owners.getD link.source 0 ≠ owners.getD link.target 0) :
    Reflects owners count (seen ++ [link]) (known.note owners link) := by
  -- the link is no reason inside a block, and no loop
  have hinner : ∀ c < count, ∀ tag, (known.innerTags.getD c ∅).contains tag = true ↔
      ∃ l ∈ seen ++ [link], l.reason = .tag tag ∧ owners.getD l.source 0 = c ∧
        owners.getD l.target 0 = c := by
    intro c hc tag
    rw [exists_mem_concat, ← h.innerTag_iff c hc tag]
    exact (or_iff_left fun hnew => hacross (hnew.2.1.trans hnew.2.2.symm)).symm
  have hloop : ∀ c < count, known.selfLoops.getD c false = true ↔
      ∃ l ∈ seen ++ [link], l.source = l.target ∧ owners.getD l.source 0 = c := by
    intro c hc
    rw [exists_mem_concat, ← h.selfLoop_iff c hc]
    refine (or_iff_left fun hnew => hacross ?_).symm
    rw [hnew.1]
  rw [note, if_neg hacross]
  split
  · next hknown =>
    have hold := ((h.feeds_iff _ hsource _).mp hknown).2
    refine ⟨h.length_successors, h.length_inDegrees, h.length_innerTags, h.length_selfLoops,
      fun c hc d => ?_, h.inDegree_eq, hinner, hloop⟩
    rw [exists_mem_concat, h.feeds_iff c hc d]
    refine and_congr_right fun _ => (or_iff_left_of_imp ?_).symm
    rintro ⟨rfl, rfl⟩
    exact hold
  · next hnew =>
    refine ⟨(List.length_modify _ _ _).trans h.length_successors,
      (List.length_modify _ _ _).trans h.length_inDegrees, h.length_innerTags, h.length_selfLoops,
      fun c hc d => ?_, fun d hd => ?_, hinner, hloop⟩
    · rw [feeds_modify (h.length_successors ▸ hc), exists_mem_concat, h.feeds_iff c hc d, and_or_left]
      refine or_congr_right (and_iff_right_of_imp ?_).symm
      rintro ⟨rfl, rfl⟩
      exact hacross
    · show (known.inDegrees.modify _ (· + 1)).getD d 0 = _
      rw [getD_modify _ _ _ (h.length_inDegrees ▸ hd), h.inDegree_eq d hd,
        card_feeds_modify h.length_successors hsource hnew]
      split <;> rfl

/-- **What some links say about blocks.** -/
theorem reflects_ofLinks {links : List Link}
    (hlt : ∀ link ∈ links, owners.getD link.source 0 < count) :
    Reflects owners count links (ofLinks owners count links) := by
  induction links using List.reverseRecOn with
  | nil => exact reflects_blank owners count
  | append_singleton seen link ih =>
    have hbefore := ih fun l hl => hlt l (List.mem_append_left _ hl)
    rw [ofLinks, List.foldl_append, List.foldl_cons, List.foldl_nil]
    by_cases hinside : owners.getD link.source 0 = owners.getD link.target 0
    · exact hbefore.note_inside hinside
    · exact hbefore.note_across (hlt link (by simp)) hinside

end Condensation

/-! ## 3. The queue -/

namespace Progress

open Plan Condensation

section Release

variable {c : Nat} {p q : Progress}

/-- What becomes of the state when a block releases others. -/
structure Released (c : Nat) (nexts : List Nat) (p q : Progress) : Prop where
  order_eq : q.order = p.order
  length_depths : q.depths.length = p.depths.length
  length_inDegrees : q.inDegrees.length = p.inDegrees.length
  depth_eq : ∀ d < p.depths.length, q.depths.getD d 0 =
    if d ∈ nexts then max (p.depths.getD d 0) (p.depths.getD c 0) else p.depths.getD d 0
  inDegree_eq : ∀ d < p.inDegrees.length, q.inDegrees.getD d 0 =
    if d ∈ nexts then p.inDegrees.getD d 0 - 1 else p.inDegrees.getD d 0
  mem_ready : ∀ d, d ∈ q.ready ↔ d ∈ p.ready ∨ (d ∈ nexts ∧ p.inDegrees.getD d 0 - 1 = 0)
  ascending : p.ready.Pairwise (· < ·) → (∀ d ∈ nexts, d ∉ p.ready) → q.ready.Pairwise (· < ·)

theorem released_release {next : Nat} (hnext : next < p.inDegrees.length) :
    Released c [next] p (release c p next) := by
  have hcounter : (p.inDegrees.modify next (· - 1)).getD next 0 = p.inDegrees.getD next 0 - 1 := by
    rw [getD_modify _ _ _ hnext, if_pos rfl]
  have hready : (release c p next).ready =
      if p.inDegrees.getD next 0 - 1 = 0 then enqueue id next p.ready else p.ready := by
    rw [release, hcounter]
  refine ⟨rfl, List.length_modify _ _ _, List.length_modify _ _ _, fun d hd => ?_, fun d hd => ?_,
    fun d => ?_, fun hasc hout => ?_⟩
  · simp only [List.mem_singleton, @eq_comm _ d]
    exact getD_modify _ _ _ hd
  · simp only [List.mem_singleton, @eq_comm _ d]
    exact getD_modify _ _ _ hd
  · rw [hready, List.mem_singleton]
    split
    · next hzero =>
      rw [mem_enqueue, or_comm]
      refine or_congr_right (and_iff_left_of_imp ?_).symm
      rintro rfl
      exact hzero
    · next hpos =>
      refine (or_iff_left ?_).symm
      rintro ⟨rfl, hzero⟩
      exact hpos hzero
  · rw [hready]
    split
    · exact pairwise_lt_enqueue hasc (hout next List.mem_cons_self)
    · exact hasc

/-- **The loop over successors, in one step.** -/
theorem released_foldl {nexts : List Nat} (hnodup : nexts.Nodup) (hself : c ∉ nexts)
    (hlt : ∀ d ∈ nexts, d < p.inDegrees.length) :
    Released c nexts p (nexts.foldl (release c) p) := by
  induction nexts generalizing p with
  | nil =>
    exact ⟨rfl, rfl, rfl, fun _ _ => by simp, fun _ _ => by simp, fun _ => by simp, fun h _ => h⟩
  | cons next rest ih =>
    obtain ⟨hnew, hrest⟩ := List.nodup_cons.mp hnodup
    obtain ⟨hne, hout⟩ := not_or.mp (mt List.mem_cons.mpr hself)
    have hfirst : Released c [next] p (release c p next) :=
      released_release (hlt next List.mem_cons_self)
    have hthen := ih (p := release c p next) hrest hout fun d hd =>
      hfirst.length_inDegrees ▸ hlt d (List.mem_cons_of_mem _ hd)
    -- the depth that is handed on does not change on the way
    have hdepth : (release c p next).depths.getD c 0 = p.depths.getD c 0 :=
      getD_modify_of_ne _ _ _ (Ne.symm hne)
    rw [List.foldl_cons]
    refine ⟨hthen.order_eq, hthen.length_depths.trans hfirst.length_depths,
      hthen.length_inDegrees.trans hfirst.length_inDegrees, fun d hd => ?_, fun d hd => ?_,
      fun d => ?_, fun hasc hready => ?_⟩
    · rw [hthen.depth_eq d (hfirst.length_depths ▸ hd), hfirst.depth_eq d hd, hdepth]
      by_cases hd : d = next
      · subst hd
        simp [hnew]
      · simp [hd]
    · rw [hthen.inDegree_eq d (hfirst.length_inDegrees ▸ hd), hfirst.inDegree_eq d hd]
      by_cases hd : d = next
      · subst hd
        simp [hnew]
      · simp [hd]
    · rw [hthen.mem_ready, hfirst.mem_ready, List.mem_singleton, List.mem_cons]
      by_cases hd : d = next
      · subst hd
        simp [hnew]
      · have hsame : d ∈ rest →
            (release c p next).inDegrees.getD d 0 = p.inDegrees.getD d 0 := fun _ =>
          getD_modify_of_ne _ _ _ (Ne.symm hd)
        simp only [hd, false_and, or_false, false_or]
        exact or_congr_right (and_congr_right fun hmem => by rw [hsame hmem])
    · refine hthen.ascending (hfirst.ascending hasc fun d hd => ?_) fun d hd hmem => ?_
      · exact hready d (List.mem_cons.mpr (.inl (List.mem_singleton.mp hd)))
      · rcases (hfirst.mem_ready d).mp hmem with hmem | ⟨hd', -⟩
        · exact hready d (List.mem_cons_of_mem _ hd) hmem
        · exact hnew (List.mem_singleton.mp hd' ▸ hd)

end Release

section Take

variable {ds : Declarations} {successors : List (KeySet Nat)} {taken : List Nat} {p : Progress}
  {c d : Nat}

/-- The successors are those of the numbered blocks. -/
def Condenses (ds : Declarations) (successors : List (KeySet Nat)) : Prop :=
  ∀ c d, Feeds successors c d ↔ c < (blocks ds).length ∧ d < (blocks ds).length ∧ c ≠ d ∧
    feedsBlock (relation ds) (numbered ds c) (numbered ds d) = true

/-- The blocks that feed a block and have not been taken. -/
def pending (ds : Declarations) (successors : List (KeySet Nat)) (taken : List Nat) (d : Nat) :
    Finset Nat :=
  {c ∈ Finset.range (blocks ds).length | Feeds successors c d ∧ c ∉ taken}

/-- How the state follows from the blocks that have been taken. -/
structure Faithful (ds : Declarations) (successors : List (KeySet Nat)) (taken : List Nat)
    (p : Progress) : Prop where
  nodup : taken.Nodup
  lt : ∀ c ∈ taken, c < (blocks ds).length
  /-- Whatever feeds a taken block was taken before. -/
  closed : ∀ d ∈ taken, ∀ c, Feeds successors c d → c ∈ taken
  order_eq : p.order = taken.flatMap (numbered ds)
  length_depths : p.depths.length = (blocks ds).length
  length_inDegrees : p.inDegrees.length = (blocks ds).length
  inDegree_eq : ∀ d < (blocks ds).length,
    p.inDegrees.getD d 0 = (pending ds successors taken d).card
  mem_ready : ∀ d, d ∈ p.ready ↔
    d < (blocks ds).length ∧ d ∉ taken ∧ p.inDegrees.getD d 0 = 0
  ascending : p.ready.Pairwise (· < ·)
  /-- The depths of taken blocks are final. -/
  chains_eq : chains (relation ds) (taken.map (numbered ds)) =
    (taken.map fun c => (numbered ds c, p.depths.getD c 0)).reverse
  /-- The depths of the others are the longest chains that they will continue. -/
  depth_eq : ∀ d < (blocks ds).length, d ∉ taken →
    p.depths.getD d 0 = continued (relation ds) (chains (relation ds) (taken.map (numbered ds)))
      (numbered ds d)

theorem mem_pending : c ∈ pending ds successors taken d ↔
    c < (blocks ds).length ∧ Feeds successors c d ∧ c ∉ taken := by
  rw [pending, Finset.mem_filter, Finset.mem_range]

theorem pending_concat :
    pending ds successors (taken ++ [c]) d = (pending ds successors taken d).erase c := by
  ext b
  simp only [mem_pending, Finset.mem_erase, List.mem_append, List.mem_singleton, not_or]
  tauto

/-- A counter is positive when it is lowered. -/
theorem Faithful.inDegree_pos (h : Faithful ds successors taken p) (hcond : Condenses ds successors)
    (hc : c ∉ taken) (hfeeds : Feeds successors c d) : 0 < p.inDegrees.getD d 0 := by
  obtain ⟨hlt, hd, -⟩ := (hcond c d).mp hfeeds
  rw [h.inDegree_eq d hd, Finset.card_pos]
  exact ⟨c, mem_pending.mpr ⟨hlt, hfeeds, hc⟩⟩

/-- A block in the queue waits for nothing that has not been taken. -/
theorem Faithful.mem_taken_of_feeds (h : Faithful ds successors taken p)
    (hcond : Condenses ds successors) {b : Nat} (hc : c ∈ p.ready) (hfeeds : Feeds successors b c) :
    b ∈ taken := by
  by_contra hb
  exact absurd ((h.mem_ready c).mp hc).2.2 (h.inDegree_pos hcond hb hfeeds).ne'

/-- A maximum over more entries. -/
theorem foldl_max_start {α : Type} (q : α → Bool) (f : α → Nat) (xs : List α) (start : Nat) :
    xs.foldl (fun most x => if q x then max most (f x) else most) start =
      max start (xs.foldl (fun most x => if q x then max most (f x) else most) 0) := by
  induction xs generalizing start with
  | nil => simp
  | cons x rest ih =>
    rw [List.foldl_cons, List.foldl_cons, ih, ih (if q x = true then max 0 (f x) else 0)]
    split
    · rw [Nat.zero_max, Nat.max_assoc]
    · rw [Nat.zero_max]

theorem continued_cons (edges : Relation) (entry : Block × Nat) (done : List (Block × Nat))
    (b : Block) : continued edges (entry :: done) b =
      if feedsBlock edges entry.1 b then max (continued edges done b) entry.2
      else continued edges done b := by
  rw [continued, List.foldl_cons, foldl_max_start (fun e => feedsBlock edges e.1 b) Prod.snd]
  split
  · rw [Nat.zero_max, Nat.max_comm]
    rfl
  · exact Nat.zero_max _

/-- What becomes of the state when block `c` is taken and `waiting` is the rest of the queue. -/
structure Took (ds : Declarations) (successors : List (KeySet Nat)) (c : Nat) (waiting : List Nat)
    (p q : Progress) : Prop where
  order_eq : q.order = p.order ++ numbered ds c
  length_depths : q.depths.length = p.depths.length
  length_inDegrees : q.inDegrees.length = p.inDegrees.length
  depth_self : q.depths.getD c 0 = p.depths.getD c 0 + (numbered ds c).length
  depth_eq : ∀ d < p.depths.length, d ≠ c → q.depths.getD d 0 =
    if Feeds successors c d then max (p.depths.getD d 0) (q.depths.getD c 0) else p.depths.getD d 0
  inDegree_eq : ∀ d < p.inDegrees.length, q.inDegrees.getD d 0 =
    if Feeds successors c d then p.inDegrees.getD d 0 - 1 else p.inDegrees.getD d 0
  mem_ready : ∀ d, d ∈ q.ready ↔
    d ∈ waiting ∨ (Feeds successors c d ∧ p.inDegrees.getD d 0 - 1 = 0)
  ascending : waiting.Pairwise (· < ·) → (∀ d, Feeds successors c d → d ∉ waiting) →
    q.ready.Pairwise (· < ·)

theorem took_take (waiting : List Nat) (hc : c < p.depths.length)
    (hself : ¬ Feeds successors c c) (hlt : ∀ d, Feeds successors c d → d < p.inDegrees.length) :
    Took ds successors c waiting p (take (blocks ds) successors { p with ready := waiting } c) := by
  have hnexts : ∀ d, d ∈ (successors.getD c ∅).members ↔ Feeds successors c d :=
    fun d => KeySet.mem_members
  have hreleased : Released c (successors.getD c ∅).members
      { p with
        ready := waiting
        order := p.order ++ numbered ds c
        depths := p.depths.modify c (· + (numbered ds c).length) }
      (take (blocks ds) successors { p with ready := waiting } c) :=
    released_foldl (Table.nodup_keys _) ((hnexts c).not.mpr hself) fun d hd =>
      hlt d ((hnexts d).mp hd)
  have hlen := List.length_modify (· + (numbered ds c).length) p.depths c
  have htop : (take (blocks ds) successors { p with ready := waiting } c).depths.getD c 0 =
      (p.depths.modify c (· + (numbered ds c).length)).getD c 0 := by
    rw [hreleased.depth_eq c (hlen ▸ hc), if_neg ((hnexts c).not.mpr hself)]
  refine ⟨hreleased.order_eq, hreleased.length_depths.trans hlen, hreleased.length_inDegrees, ?_,
    fun d hd hne => ?_, fun d hd => ?_, fun d => ?_, fun hasc hout => ?_⟩
  · rw [htop, getD_modify _ _ _ hc, if_pos rfl]
  · rw [hreleased.depth_eq d (hlen ▸ hd), htop]
    simp only [hnexts, getD_modify_of_ne _ _ _ (Ne.symm hne)]
  · rw [hreleased.inDegree_eq d hd]
    simp only [hnexts]
  · rw [hreleased.mem_ready, hnexts]
  · exact hreleased.ascending hasc fun d hd => hout d ((hnexts d).mp hd)

/-- What has been taken is not released again. -/
theorem Faithful.not_feeds_taken (h : Faithful ds successors taken p) (hc : c ∉ taken) {d : Nat}
    (hd : d ∈ taken) : ¬ Feeds successors c d :=
  fun hfeeds => hc (h.closed d hd c hfeeds)

/-- The queue when the first of its blocks has been taken: again those that wait for nothing. -/
theorem Faithful.mem_ready_took (h : Faithful ds successors taken p) (hcond : Condenses ds successors)
    {waiting : List Nat} (hready : p.ready = c :: waiting) {q : Progress}
    (htook : Took ds successors c waiting p q) (d : Nat) :
    d ∈ q.ready ↔ d < (blocks ds).length ∧ d ∉ taken ++ [c] ∧ q.inDegrees.getD d 0 = 0 := by
  obtain ⟨-, hc, -⟩ := (h.mem_ready c).mp (hready ▸ List.mem_cons_self)
  have hleast := (List.pairwise_cons.mp (hready ▸ h.ascending)).1
  have hqueue : d ∈ p.ready ↔ d = c ∨ d ∈ waiting := hready ▸ List.mem_cons
  have hcounter : d < (blocks ds).length → q.inDegrees.getD d 0 =
      if Feeds successors c d then p.inDegrees.getD d 0 - 1 else p.inDegrees.getD d 0 :=
    fun hd => htook.inDegree_eq d (h.length_inDegrees ▸ hd)
  have hout : d ∉ taken ++ [c] ↔ d ∉ taken ∧ d ≠ c := by simp
  rw [htook.mem_ready, hout]
  constructor
  · rintro (hwaiting | ⟨hfeeds, hone⟩)
    · obtain ⟨hd, hfree, hnone⟩ := (h.mem_ready d).mp (hqueue.mpr (.inr hwaiting))
      refine ⟨hd, ⟨hfree, (hleast d hwaiting).ne'⟩, ?_⟩
      rw [hcounter hd, hnone, Nat.zero_sub, ite_self]
    · obtain ⟨-, hd, hne, -⟩ := (hcond c d).mp hfeeds
      refine ⟨hd, ⟨fun htaken => h.not_feeds_taken hc htaken hfeeds, hne.symm⟩, ?_⟩
      rw [hcounter hd, if_pos hfeeds, hone]
  · rintro ⟨hd, ⟨hfree, hne⟩, hnone⟩
    rw [hcounter hd] at hnone
    by_cases hfeeds : Feeds successors c d
    · rw [if_pos hfeeds] at hnone
      exact .inr ⟨hfeeds, hnone⟩
    · rw [if_neg hfeeds] at hnone
      exact .inl ((hqueue.mp ((h.mem_ready d).mpr ⟨hd, hfree, hnone⟩)).resolve_left hne)

/-- **One block is taken.** -/
theorem Faithful.take (h : Faithful ds successors taken p) (hcond : Condenses ds successors)
    {waiting : List Nat} (hready : p.ready = c :: waiting) :
    Faithful ds successors (taken ++ [c])
      (take (blocks ds) successors { p with ready := waiting } c) := by
  have hmem : c ∈ p.ready := hready ▸ List.mem_cons_self
  obtain ⟨hlt, hc, hzero⟩ := (h.mem_ready c).mp hmem
  have hascending := (List.pairwise_cons.mp (hready ▸ h.ascending)).2
  have htook : Took ds successors c waiting p
      (Progress.take (blocks ds) successors { p with ready := waiting } c) := took_take waiting
    (h.length_depths ▸ hlt)
    (fun hloop => ((hcond c c).mp hloop).2.2.1 rfl)
    fun d hd => h.length_inDegrees ▸ ((hcond c d).mp hd).2.1
  generalize Progress.take (blocks ds) successors { p with ready := waiting } c = q at htook
  have hchains : chains (relation ds) ((taken ++ [c]).map (numbered ds)) =
      (numbered ds c, q.depths.getD c 0) :: chains (relation ds) (taken.map (numbered ds)) := by
    rw [List.map_append, List.map_singleton, chains_concat, htook.depth_self, h.depth_eq c hlt hc]
  constructor
  case length_depths => exact htook.length_depths.trans h.length_depths
  case length_inDegrees => exact htook.length_inDegrees.trans h.length_inDegrees
  case nodup =>
    exact List.nodup_append.mpr ⟨h.nodup, List.nodup_singleton c, fun b hb e he hsame => hc
      (List.mem_singleton.mp he ▸ hsame ▸ hb)⟩
  case lt =>
    intro b hb
    rcases List.mem_append.mp hb with hb | hb
    · exact h.lt b hb
    · exact List.mem_singleton.mp hb ▸ hlt
  case closed =>
    intro d hd b hfeeds
    refine List.mem_append_left _ ?_
    rcases List.mem_append.mp hd with hd | hd
    · exact h.closed d hd b hfeeds
    · exact h.mem_taken_of_feeds hcond hmem (List.mem_singleton.mp hd ▸ hfeeds)
  case order_eq =>
    rw [htook.order_eq, List.flatMap_append, List.flatMap_singleton, ← h.order_eq]
  case inDegree_eq =>
    intro d hd
    rw [htook.inDegree_eq d (h.length_inDegrees ▸ hd), h.inDegree_eq d hd, pending_concat,
      Finset.card_erase_eq_ite]
    simp only [mem_pending, hlt, hc, not_false_eq_true, true_and, and_true]
  case mem_ready => exact h.mem_ready_took hcond hready htook
  case ascending =>
    refine htook.ascending hascending fun d hfeeds hwaiting => ?_
    exact hc (h.mem_taken_of_feeds hcond (hready ▸ List.mem_cons_of_mem c hwaiting) hfeeds)
  case chains_eq =>
    rw [hchains, h.chains_eq, List.map_append, List.reverse_append]
    refine congrArg (_ :: ·) (congrArg List.reverse (List.map_congr_left fun d hd => ?_))
    have hne : d ≠ c := fun hsame => hc (hsame ▸ hd)
    rw [htook.depth_eq d (h.length_depths ▸ h.lt d hd) hne, if_neg (h.not_feeds_taken hc hd)]
  case depth_eq =>
    intro d hd hd'
    obtain ⟨hfree, hne⟩ : d ∉ taken ∧ d ≠ c := by simpa using hd'
    rw [htook.depth_eq d (h.length_depths ▸ hd) hne, hchains, continued_cons,
      h.depth_eq d hd hfree]
    have hiff : Feeds successors c d ↔
        feedsBlock (relation ds) (numbered ds c) (numbered ds d) = true := by
      rw [hcond c d, and_iff_right hlt, and_iff_right hd, and_iff_right hne.symm]
    simp only [hiff]

end Take

/-! ## 4. The same order -/

section Run

variable {ds : Declarations} {successors : List (KeySet Nat)} {taken : List Nat} {p : Progress}

/-- The numbers of the blocks that have not been taken. -/
def remaining (ds : Declarations) (taken : List Nat) : List Nat :=
  (List.range (blocks ds).length).filter fun c => c ∉ taken

theorem mem_remaining {c : Nat} :
    c ∈ remaining ds taken ↔ c < (blocks ds).length ∧ c ∉ taken := by
  rw [remaining, List.mem_filter, List.mem_range, decide_eq_true_eq]

theorem remaining_ascending (ds : Declarations) (taken : List Nat) :
    (remaining ds taken).Pairwise (· < ·) :=
  List.pairwise_lt_range.filter _

/-- **In the queue is what no other remaining block feeds.** -/
theorem Faithful.mem_ready_iff (h : Faithful ds successors taken p)
    (hcond : Condenses ds successors) {c : Nat} (hc : c ∈ remaining ds taken) :
    c ∈ p.ready ↔
      Plan.ready (relation ds) ((remaining ds taken).map (numbered ds)) (numbered ds c) = true := by
  obtain ⟨hlt, hfree⟩ := mem_remaining.mp hc
  rw [h.mem_ready, and_iff_right hlt, and_iff_right hfree, h.inDegree_eq c hlt, Finset.card_eq_zero,
    Finset.eq_empty_iff_forall_notMem, Plan.ready, List.all_map, List.all_eq_true]
  simp only [mem_pending, mem_remaining, hcond _ c, Function.comp_apply, Bool.or_eq_true, beq_iff_eq,
    Bool.not_eq_true']
  constructor
  · intro hnone b hb
    by_cases hsame : b = c
    · exact .inl (hsame ▸ rfl)
    · exact .inr (Bool.eq_false_iff.mpr fun hfeeds =>
        hnone b ⟨hb.1, ⟨hb.1, hlt, hsame, hfeeds⟩, hb.2⟩)
  · rintro hall b ⟨hb, ⟨-, -, hne, hfeeds⟩, hleft⟩
    rcases hall b ⟨hb, hleft⟩ with hsame | hnot
    · exact hne (numbered_injOn hb hlt hsame)
    · rw [hnot] at hfeeds
      cases hfeeds

/-- In an ascending list the least that passes a test is found first. -/
theorem find?_eq_some_of_least {xs : List Nat} {q : Nat → Bool} {c : Nat}
    (hsorted : xs.Pairwise (· < ·)) (hc : c ∈ xs) (hq : q c = true)
    (hleast : ∀ d ∈ xs, q d = true → c ≤ d) : xs.find? q = some c := by
  obtain ⟨before, after, rfl⟩ := List.append_of_mem hc
  refine List.find?_eq_some_iff_append.mpr ⟨hq, before, after, rfl, fun d hd => ?_⟩
  have hlt : d < c := (List.pairwise_append.mp hsorted).2.2 d hd c List.mem_cons_self
  rw [Bool.not_eq_true', ← Bool.not_eq_true]
  exact fun hd' => absurd (hleast d (List.mem_append_left _ hd) hd') (Nat.not_le_of_lt hlt)

/-- Taking a block removes it from what remains. -/
theorem map_remaining_concat {c : Nat} (hc : c ∈ remaining ds taken) :
    (remaining ds (taken ++ [c])).map (numbered ds) =
      ((remaining ds taken).map (numbered ds)).erase (numbered ds c) := by
  have hnodup : ((remaining ds taken).map (numbered ds)).Nodup := by
    refine List.Nodup.map_on (fun b hb d hd => ?_) ((remaining_ascending ds taken).imp Nat.ne_of_lt)
    exact numbered_injOn (mem_remaining.mp hb).1 (mem_remaining.mp hd).1
  rw [hnodup.erase_eq_filter, List.filter_map]
  refine congrArg (List.map _) ?_
  rw [remaining, remaining, List.filter_filter]
  refine List.filter_congr fun d hd => ?_
  have hiff : numbered ds d = numbered ds c ↔ d = c :=
    ⟨numbered_injOn (List.mem_range.mp hd) (mem_remaining.mp hc).1, fun h => h ▸ rfl⟩
  simp [bne, Bool.beq_eq_decide_eq, hiff, and_comm]

/-- **The queue follows the schedule.** -/
theorem Faithful.exists_run (hcond : Condenses ds successors) (fuel : Nat)
    (h : Faithful ds successors taken p) :
    ∃ all, Faithful ds successors all (run (blocks ds) successors fuel p) ∧
      all.map (numbered ds) = taken.map (numbered ds) ++
        schedule (relation ds) fuel ((remaining ds taken).map (numbered ds)) := by
  induction fuel generalizing taken p with
  | zero => exact ⟨taken, h, (List.append_nil _).symm⟩
  | succ fuel ih =>
    rw [schedule, List.find?_map]
    cases hready : p.ready with
    | nil =>
      have hnone : (remaining ds taken).find? (Plan.ready (relation ds)
          ((remaining ds taken).map (numbered ds)) ∘ numbered ds) = none := by
        refine List.find?_eq_none.mpr fun c hc hfound => ?_
        have := (h.mem_ready_iff hcond hc).mpr hfound
        rw [hready] at this
        cases this
      rw [hnone, run, hready]
      exact ⟨taken, h, (List.append_nil _).symm⟩
    | cons c waiting =>
      have hmem : c ∈ p.ready := hready ▸ List.mem_cons_self
      obtain ⟨hlt, hfree, -⟩ := (h.mem_ready c).mp hmem
      have hc : c ∈ remaining ds taken := mem_remaining.mpr ⟨hlt, hfree⟩
      -- the head of the queue is the least of what is ready
      have hfind : (remaining ds taken).find? (Plan.ready (relation ds)
          ((remaining ds taken).map (numbered ds)) ∘ numbered ds) = some c := by
        refine find?_eq_some_of_least (remaining_ascending ds taken) hc
          ((h.mem_ready_iff hcond hc).mp hmem) fun d hd hfound => ?_
        have hd' : d ∈ c :: waiting := hready ▸ (h.mem_ready_iff hcond hd).mpr hfound
        rcases List.mem_cons.mp hd' with rfl | hlater
        · exact Nat.le_refl _
        · exact Nat.le_of_lt ((List.pairwise_cons.mp (hready ▸ h.ascending)).1 d hlater)
      obtain ⟨all, hall, hmap⟩ := ih (h.take hcond hready)
      rw [hfind, run, hready]
      refine ⟨all, hall, hmap.trans ?_⟩
      rw [map_remaining_concat hc, List.map_append, List.append_assoc]
      rfl

/-- Before anything is taken. -/
theorem faithful_start {inDegrees : List Nat} (hlen : inDegrees.length = (blocks ds).length)
    (hcount : ∀ d < (blocks ds).length, inDegrees.getD d 0 =
      {c ∈ Finset.range (blocks ds).length | Feeds successors c d}.card) :
    Faithful ds successors [] (start inDegrees) where
  nodup := List.nodup_nil
  lt := by simp
  closed := by simp
  order_eq := rfl
  length_depths := List.length_replicate.trans hlen
  length_inDegrees := hlen
  inDegree_eq d hd := by simpa [pending, start] using hcount d hd
  mem_ready d := by simp [start, hlen]
  ascending := List.pairwise_lt_range.filter _
  chains_eq := rfl
  depth_eq d hd _ := getD_replicate _ _ (hlen ▸ hd)

/-- The numbers of taken blocks are all numbers, if all blocks have been taken. -/
theorem Faithful.perm_range (h : Faithful ds successors taken p)
    (hall : (taken.map (numbered ds)).Perm (blocks ds)) :
    taken.Perm (List.range (blocks ds).length) := by
  have hlen : taken.length = (blocks ds).length := by
    rw [← hall.length_eq, List.length_map]
  refine (List.subperm_of_subset h.nodup fun c hc => List.mem_range.mpr (h.lt c hc)).perm_of_length_le
    ?_
  rw [List.length_range, hlen]

/-- The greatest of the final depths is the longest chain. -/
theorem Faithful.foldl_max_depths (h : Faithful ds successors taken p)
    (hall : (taken.map (numbered ds)).Perm (blocks ds)) :
    p.depths.foldl max 0 = longest (relation ds) (taken.map (numbered ds)) := by
  have hdepths : p.depths = (List.range (blocks ds).length).map fun c => p.depths.getD c 0 := by
    refine List.ext_getElem (by simp [h.length_depths]) fun c hc hc' => ?_
    rw [List.getElem_map, List.getElem_range, List.getD_eq_getElem _ _ hc]
  have hperm : (taken.map fun c => p.depths.getD c 0).reverse.Perm p.depths :=
    (List.reverse_perm _).trans (((h.perm_range hall).map _).trans (List.Perm.of_eq hdepths.symm))
  calc p.depths.foldl max 0
      = (taken.map fun c => p.depths.getD c 0).reverse.foldl max 0 :=
        hperm.symm.foldl_eq' (fun c _ d _ most => Nat.max_right_comm most c d) 0
    _ = longest (relation ds) (taken.map (numbered ds)) := by
        rw [longest, h.chains_eq, ← List.map_reverse, ← List.map_reverse, List.foldl_map,
          List.foldl_map]

end Run

end Progress

/-! ## 5. The same plan -/

namespace Plan

open Condensation

variable {ds : Declarations}

/-- What the links of some declarations say about their blocks. -/
def condensed (ds : Declarations) : Condensation :=
  ofLinks (owners ds.length (blocks ds)) (blocks ds).length ds.links

theorem reflects_condensed (ds : Declarations) :
    Reflects (owners ds.length (blocks ds)) (blocks ds).length ds.links (condensed ds) :=
  reflects_ofLinks fun _ hlink => ownerOf_lt (Declarations.lt_of_mem_links hlink).1

/-- Two members of blocks are linked if and only if the numbers of the blocks are. -/
theorem exists_link_iff (ds : Declarations) (q : Link → Prop) (c d : Nat) :
    (∃ link ∈ ds.links, q link ∧ (owners ds.length (blocks ds)).getD link.source 0 = c ∧
      (owners ds.length (blocks ds)).getD link.target 0 = d) ↔
    ∃ link ∈ ds.links, q link ∧ link.source ∈ numbered ds c ∧ link.target ∈ numbered ds d := by
  refine exists_congr fun link => and_congr_right fun hlink => and_congr_right fun _ => ?_
  obtain ⟨hsource, htarget⟩ := Declarations.lt_of_mem_links hlink
  exact and_congr (ownerOf_eq_iff hsource) (ownerOf_eq_iff htarget)

/-- **The walk finds which block feeds which.** -/
theorem condenses_condensed (ds : Declarations) :
    Progress.Condenses ds (condensed ds).successors := by
  have hreflects := reflects_condensed ds
  intro c d
  by_cases hc : c < (blocks ds).length
  · have hlinks := exists_link_iff ds (fun _ => True) c d
    simp only [true_and] at hlinks
    rw [hreflects.feeds_iff c hc d, hlinks, feedsBlock_iff, and_iff_right hc, and_left_comm]
    refine and_congr_right fun _ => ⟨?_, ?_⟩
    · rintro ⟨⟨i, j, reason⟩, hlink, hi, hj⟩
      exact ⟨lt_of_mem_numbered hj, i, hi, j, hj, edge_iff.mpr ⟨reason, hlink⟩⟩
    · rintro ⟨-, i, hi, j, hj, hedge⟩
      obtain ⟨reason, hlink⟩ := edge_iff.mp hedge
      exact ⟨⟨i, j, reason⟩, hlink, hi, hj⟩
  · refine iff_of_false ?_ fun h => hc h.1
    rw [Feeds, List.getD_eq_default _ _ (hreflects.length_successors ▸ Nat.le_of_not_lt hc)]
    exact Bool.false_ne_true

/-- The blocks as the queue leaves them. -/
def finished (ds : Declarations) : Progress :=
  Progress.run (blocks ds) (condensed ds).successors (blocks ds).length
    (Progress.start (condensed ds).inDegrees)

/-- **At the end every block has been taken, in the order of the schedule.** -/
theorem exists_faithful_finished (ds : Declarations) :
    ∃ all, Progress.Faithful ds (condensed ds).successors all (finished ds) ∧
      all.map (numbered ds) = scheduled ds := by
  have hreflects := reflects_condensed ds
  obtain ⟨all, hall, hmap⟩ := (Progress.faithful_start hreflects.length_inDegrees
    hreflects.inDegree_eq).exists_run (condenses_condensed ds) (blocks ds).length
  refine ⟨all, hall, hmap.trans ?_⟩
  have hwhole : Progress.remaining ds [] = List.range (blocks ds).length := by
    simp [Progress.remaining]
  rw [hwhole, map_numbered_range]
  rfl

/-- The rounds of the loop suffice: nothing is left in the queue. -/
theorem ready_finished (ds : Declarations) : (finished ds).ready = [] := by
  obtain ⟨all, hall, hmap⟩ := exists_faithful_finished ds
  refine List.eq_nil_iff_forall_not_mem.mpr fun c hc => ?_
  obtain ⟨hlt, hfree, -⟩ := (hall.mem_ready c).mp hc
  exact hfree ((hall.perm_range (hmap ▸ scheduled_perm)).mem_iff.mpr (List.mem_range.mpr hlt))

theorem selfLoop_condensed {c : Nat} (hc : c < (blocks ds).length) :
    (condensed ds).selfLoops.getD c false =
      (numbered ds c).any fun i => (relation ds).holds i i := by
  rw [Bool.eq_iff_iff, (reflects_condensed ds).selfLoop_iff c hc, List.any_eq_true]
  constructor
  · rintro ⟨⟨i, j, reason⟩, hlink, hsame, hi⟩
    obtain rfl : i = j := hsame
    have hlt := (Declarations.lt_of_mem_links hlink).1
    exact ⟨i, (ownerOf_eq_iff hlt).mp hi, edge_iff.mpr ⟨reason, hlink⟩⟩
  · rintro ⟨i, hi, hloop⟩
    obtain ⟨reason, hlink⟩ := edge_iff.mp hloop
    exact ⟨⟨i, i, reason⟩, hlink, rfl,
      (ownerOf_eq_iff (lt_length_of_mem_numbered hi)).mpr hi⟩

theorem members_innerTags_condensed {c : Nat} (hc : c < (blocks ds).length) :
    ((condensed ds).innerTags.getD c ∅).members = innerTags ds (numbered ds c) := by
  refine congrArg KeySet.members (KeySet.ext_contains fun tag => ?_)
  rw [(reflects_condensed ds).innerTag_iff c hc tag, exists_link_iff, ← KeySet.mem_members]
  refine Iff.trans ?_ mem_innerTags.symm
  constructor
  · rintro ⟨⟨i, j, reason⟩, hlink, rfl, hi, hj⟩
    obtain ⟨hproduces, hconsumes⟩ := Declarations.tag_mem_links.mp hlink
    exact ⟨⟨i, hi, hproduces⟩, j, hj, hconsumes⟩
  · rintro ⟨⟨i, hi, hproduces⟩, j, hj, hconsumes⟩
    exact ⟨⟨i, j, .tag tag⟩, Declarations.tag_mem_links.mpr ⟨hproduces, hconsumes⟩, rfl, hi, hj⟩

/-- What is reported of a block, if it is a circle. -/
def report? (ds : Declarations) (b : Block) : Option Cycle :=
  if isCycle (relation ds) b then some ⟨ds.namesAt b, innerTags ds b⟩ else none

theorem cycles_condensed (ds : Declarations) :
    ((blocks ds).zipIdx.filterMap fun entry =>
      if 1 < entry.1.length || (condensed ds).selfLoops.getD entry.2 false then
        some (⟨ds.namesAt entry.1, ((condensed ds).innerTags.getD entry.2 ∅).members⟩ : Cycle)
      else none) = (greedy ds).cycles := by
  have hreport : ∀ entry ∈ (blocks ds).zipIdx,
      (if 1 < entry.1.length || (condensed ds).selfLoops.getD entry.2 false then
        some (⟨ds.namesAt entry.1, ((condensed ds).innerTags.getD entry.2 ∅).members⟩ : Cycle)
      else none) = (report? ds ∘ Prod.fst) entry := by
    rintro ⟨block, c⟩ hentry
    have hget := List.mem_zipIdx_iff_getElem?.mp hentry
    obtain ⟨hc, -⟩ := List.getElem?_eq_some_iff.mp hget
    have hblock : block = numbered ds c := by
      rw [numbered, List.getD_eq_getElem?_getD, hget, Option.getD_some]
    subst hblock
    rw [selfLoop_condensed hc, members_innerTags_condensed hc]
    rfl
  rw [List.filterMap_congr hreport, ← List.filterMap_map, List.zipIdx_map_fst, greedy,
    ← List.filterMap_eq_map, List.filterMap_filter]
  rfl

/-- **Counting makes the same plan**, whatever list of the components it is given. -/
theorem assemble_eq_greedy {parts : List (List Nat)}
    (hparts : (parts.map (sortBy id)).Perm (blocks ds)) : assemble ds parts = greedy ds := by
  obtain ⟨all, hall, hmap⟩ := exists_faithful_finished ds
  have horder : (finished ds).order = (scheduled ds).flatten := by
    rw [hall.order_eq, List.flatMap_def, hmap]
  have hdepth : (finished ds).depths.foldl max 0 = longest (relation ds) (scheduled ds) := by
    rw [hall.foldl_max_depths (hmap ▸ scheduled_perm), hmap]
  rw [assemble, arrange_eq_blocks hparts, greedy, ← horder, ← hdepth]
  exact congrArg (fun cycles => (⟨_, cycles, _⟩ : Plan)) (cycles_condensed ds)

/-- The components that a plan finds for itself are listed already. -/
theorem ofDeclarations_eq_greedy (ds : Declarations) : ofDeclarations ds = greedy ds := by
  refine assemble_eq_greedy (List.Perm.of_eq ?_)
  have hsorted : ∀ b ∈ blocks ds, sortBy id b = b := by
    intro b hb
    obtain ⟨i, -, rfl, -⟩ := mem_blocks.mp hb
    exact sortBy_eq (List.Perm.refl _) (block_sorted i)
  exact (List.map_congr_left hsorted).trans (List.map_id _)

/-- **The order of work names every position once.** -/
theorem order_perm (ds : Declarations) :
    (ofDeclarations ds).order.Perm (List.range ds.length) := by
  rw [ofDeclarations_eq_greedy]
  exact flatten_scheduled_perm ds

end Plan

end FactGraph
