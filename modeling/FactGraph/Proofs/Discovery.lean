import FactGraph.Proofs.Courses
import FactGraph.Proofs.ResourceMetrics
import Mathlib

/-!
# Discovery

The collector looks at one container at a time and one level deep, and it is a run that makes a tree of
that: a pass lists the containers that were stored before it, and what it finds there is listed in the
next.  Between passes the store is a part of the tree (`PartOfTree`): everything stored hangs by one edge on
its container, and a container that has been listed is complete.

A run that stops at a fixed point leaves no container unlisted (`listed_of_fixedPoint`).  If nothing is
pending this is plain.  If the last pass left the fact counter as it was, then it added no node
(`Weighed.contains_of_factCount_eq`), and all containers were there to be listed.  So the store holds
the whole tree (`tree_discovered`).

That a run stops at a fixed point is a matter of its ceiling: each pass before the last finishes a pair,
and there are three pairs for each resource (`exists_fixedPoint`).
-/

namespace FactGraph

open FileSystem (Item)
open Builtin
open Session (Core)

variable {μ : Type}

/-! ## 1. Parts of the tree -/

section Parts

variable {fs : FileSystem} {settings : Settings} {excludes : String → Bool} {root : Location}
  {tree : Item} {s : Store μ}

/-- The key of an edge between a resource and what it holds. -/
def containsKey (source target : String) : EdgeKey := ⟨source, target, "contains"⟩

/-- One resource is reached and another lies inside it, under a name that is not excluded. -/
def Holds (fs : FileSystem) (excludes : String → Bool) (root : Location) (tree : Item)
    (l l' : Location) : Prop :=
  ∃ item name item', Reachable fs excludes root tree l item ∧ Inside fs l item name l' item' ∧
    excludes name = false

/-- **A store that is a part of the tree.**  It has the root, its edges are those that lead to stored
resources, and a container that has been listed is complete. -/
structure PartOfTree (fs : FileSystem) (excludes : String → Bool) (root : Location) (tree : Item)
    (s : Store μ) : Prop where
  top : s.contains root.uri = true
  edges : ∀ a b, s.edges.contains (containsKey a b) = true ↔
    s.contains b = true ∧ ∃ l l', Holds fs excludes root tree l l' ∧ l.uri = a ∧ l'.uri = b
  listed : ∀ l l', Holds fs excludes root tree l l' →
    s.ledger.contains ⟨collectorName, l.uri⟩ = true → s.contains l'.uri = true

namespace Holds

variable {l l' outer : Location}

theorem containerIn?_eq (h : Readable fs excludes root tree) (hl : Holds fs excludes root tree l l') :
    containerIn? root l' = some l.uri := by
  obtain ⟨item, name, item', hl, hinside, -⟩ := hl
  exact h.containerIn?_of_inside hl hinside

theorem exists_reachable (hl : Holds fs excludes root tree l l') :
    (∃ item, Reachable fs excludes root tree l item) ∧
      ∃ item', Reachable fs excludes root tree l' item' := by
  obtain ⟨item, name, item', hl, hinside, hname⟩ := hl
  exact ⟨⟨item, hl⟩, item', .inside hl hinside hname⟩

/-- Nothing is held twice. -/
theorem eq_of_uri (h : Readable fs excludes root tree) {l₁ l₁' : Location}
    (hl : Holds fs excludes root tree l l') (hl₁ : Holds fs excludes root tree l₁ l₁')
    (huri : l'.uri = l₁'.uri) : l = l₁ ∧ l' = l₁' := by
  obtain ⟨⟨item, hl₀⟩, item', hl'⟩ := hl.exists_reachable
  obtain ⟨⟨item₁, hl₁₀⟩, item₁', hl₁'⟩ := hl₁.exists_reachable
  have hsame : l' = l₁' := h.eq_of_uri hl' hl₁' huri
  have hcontainer := hl.containerIn?_eq h
  rw [hsame, hl₁.containerIn?_eq h, Option.some.injEq] at hcontainer
  exact ⟨(h.eq_of_uri hl₁₀ hl₀ hcontainer).symm, hsame⟩

/-- Nothing holds the root. -/
theorem ne_root (h : Readable fs excludes root tree) (hl : Holds fs excludes root tree l l') :
    l'.uri ≠ root.uri := by
  intro huri
  obtain ⟨-, item', hl'⟩ := hl.exists_reachable
  have hcontainer := hl.containerIn?_eq h
  rw [h.eq_of_uri hl' .root huri, containerIn?, if_pos rfl] at hcontainer
  cases hcontainer

end Holds

variable [Measure μ]

/-- If a result observes what a container holds, the container is stored and the result has the edge. -/
theorem Reports.mem_edges_of_observed (hreadable : Readable fs settings.excludes root tree)
    {c : Completion μ} (hc : Reports fs settings settings.excludes root tree s c) {l l' : Location}
    (hl : Holds fs settings.excludes root tree l l') {o : Node μ} (ho : o ∈ c.findings.observed)
    (hid : o.id = l'.uri) :
    s.contains l.uri = true ∧ ⟨l.uri, l'.uri, "contains", none⟩ ∈ c.findings.edges := by
  cases hc with
  | seeded _ _ hfinds =>
    rw [hfinds] at ho
    cases List.mem_singleton.1 ho
    rw [(id_resourceNode root _).1] at hid
    exact absurd hid.symm (hl.ne_root hreadable)
  | @unfolded l₁ hstored hl₁ _ hfinds =>
    obtain ⟨item₁, hl₁⟩ := hl₁
    obtain ⟨name, l₁', item', hinside, hname, hid₁, -⟩ := (hfinds item₁ hl₁).observed o ho
    obtain ⟨rfl, rfl⟩ := hl.eq_of_uri hreadable ⟨item₁, name, item', hl₁, hinside, hname⟩
      (hid.symm.trans hid₁)
    exact ⟨hstored, ((hfinds item₁ hl₁).complete name l' item' hinside hname).2⟩
  | noted hobserved =>
    rw [hobserved] at ho
    cases ho
  | counted hn =>
    rw [hn.findings, (quiet_lineFindings _ _).1] at ho
    cases ho

/-- The edges of a result lead from a container to what it holds. -/
theorem Reports.holds_of_edge {c : Completion μ}
    (hc : Reports fs settings settings.excludes root tree s c) {e : Edge} (he : e ∈ c.findings.edges) :
    ∃ l l', Holds fs settings.excludes root tree l l' ∧ e = ⟨l.uri, l'.uri, "contains", none⟩ := by
  cases hc with
  | seeded _ _ hfinds =>
    rw [hfinds] at he
    cases he
  | @unfolded l _ hl _ hfinds =>
    obtain ⟨item, hl⟩ := hl
    obtain ⟨name, l', item', hinside, hname, rfl⟩ := (hfinds item hl).edges e he
    exact ⟨l, l', ⟨item, name, item', hl, hinside, hname⟩, rfl⟩
  | noted _ hedges =>
    rw [hedges] at he
    cases he
  | counted hn =>
    rw [hn.findings, (quiet_lineFindings _ _).2] at he
    cases he

/-- A container that is listed is observed with all that it holds. -/
theorem Reports.observes_of_holds (hreadable : Readable fs settings.excludes root tree)
    {c : Completion μ} (hc : Reports fs settings settings.excludes root tree s c) {l l' : Location}
    (hl : Holds fs settings.excludes root tree l l') (hpair : c.pair = ⟨collectorName, l.uri⟩) :
    ∃ o ∈ c.findings.observed, o.id = l'.uri := by
  obtain ⟨item, name, item', hl, hinside, hname⟩ := hl
  cases hc with
  | seeded _ hpair' _ =>
    rw [hpair'] at hpair
    exact absurd (congrArg Pair.analyzer hpair) (by simp [collectorName])
  | @unfolded l₁ _ hl₁ hpair' hfinds =>
    obtain ⟨item₁, hl₁⟩ := hl₁
    rw [hpair'] at hpair
    cases hreadable.eq_of_uri hl₁ hl (congrArg Pair.node hpair)
    exact ((hfinds item hl).complete name l' item' hinside hname).1
  | noted _ _ _ hbarren => exact absurd hinside (hbarren l item hl hpair name l' item')
  | counted hn =>
    rw [hn.pair] at hpair
    exact absurd (congrArg Pair.analyzer hpair) (by simp [lineCounter, collectorName])

/-- **A pass keeps a store a part of the tree.** -/
theorem PartOfTree.advance (h : Readable fs settings.excludes root tree)
    (hs : Charted fs settings.excludes root tree s) (hpart : PartOfTree fs settings.excludes root tree s)
    {active : List (Run.Active Context μ)} (hactive : ∀ x ∈ active, x.analyzer ∈ roster.analyzers)
    (number : Nat) :
    PartOfTree fs settings.excludes root tree
      (Run.advance active { settings, files := fs } number s) := by
  have hreports : ∀ c ∈ Run.finishing active { settings, files := fs } s,
      Reports fs settings settings.excludes root tree s c :=
    fun c hc => hs.reports_of_finishing h (fun _ => id) hactive hc
  refine ⟨(Commit.contains_committed_iff hs.keyed).2 (.inl hpart.top), fun a b => ?_,
    fun l l' hl hledger => ?_⟩
  · rw [Run.advance, Commit.contains_edges_committed]
    constructor
    · rintro (hbefore | ⟨c, hc, e, he, hends, hkey⟩)
      · obtain ⟨hb, hl⟩ := (hpart.edges a b).1 hbefore
        exact ⟨(Commit.contains_committed_iff hs.keyed).2 (.inl hb), hl⟩
      · obtain ⟨l, l', hl, rfl⟩ := (hreports c hc).holds_of_edge he
        cases hkey
        exact ⟨(Bool.and_eq_true_iff.1 hends).2, l, l', hl, rfl, rfl⟩
    · rintro ⟨hb, l, l', hl, rfl, rfl⟩
      rcases (Commit.contains_committed_iff hs.keyed).1 hb with hbefore | ⟨c, hc, o, ho, hid⟩
      · exact .inl ((hpart.edges _ _).2 ⟨hbefore, l, l', hl, rfl, rfl⟩)
      · obtain ⟨hl₀, he⟩ := (hreports c hc).mem_edges_of_observed h hl ho hid
        refine .inr ⟨c, hc, _, he, Bool.and_eq_true_iff.2 ⟨?_, hb⟩, rfl⟩
        exact (Commit.contains_committed_iff hs.keyed).2 (.inl hl₀)
  · rw [Run.advance, Commit.contains_committed_iff hs.keyed]
    rcases (Run.contains_ledger_advance number _).1 hledger with hnow | hbefore
    · obtain ⟨c, hc, hpair⟩ := List.mem_map.1 hnow
      obtain ⟨o, ho, hid⟩ := (hreports c hc).observes_of_holds h hl hpair
      exact .inr ⟨c, hc, o, ho, hid⟩
    · exact .inl (hpart.listed l l' hl hbefore)

theorem PartOfTree.after (h : Readable fs settings.excludes root tree)
    (hs : Charted fs settings.excludes root tree s) (hpart : PartOfTree fs settings.excludes root tree s)
    {active : List (Run.Active Context μ)} (hactive : ∀ x ∈ active, x.analyzer ∈ roster.analyzers)
    (k : Nat) :
    PartOfTree fs settings.excludes root tree (Run.after active { settings, files := fs } s k) := by
  induction k with
  | zero => exact hpart
  | succ k ih => exact ih.advance h (hs.after h (fun _ => id) hactive k) hactive (k + 1)

/-- The root alone is a part of the tree. -/
theorem partOfTree_seed (h : Readable fs excludes root tree) (d : Description) :
    PartOfTree fs excludes root tree (Commit.written (Store.empty : Store μ) [seeding root d]) := by
  have hcontains : ∀ id, (Commit.written Store.empty [seeding (μ := μ) root d]).contains id = true ↔
      id = root.uri := by
    intro id
    have hsame : (Commit.written Store.empty [seeding (μ := μ) root d]).contains id =
        (Commit.committed Store.empty [seeding (μ := μ) root d] 0).contains id := by
      rw [Store.contains_eq_isSome, Store.contains_eq_isSome, Commit.node?_committed]
    have hid : (resourceNode root d : Node μ).id = root.uri := (id_resourceNode root d).1
    rw [hsame, Commit.contains_committed_iff Store.keyed_empty]
    constructor
    · rintro (⟨⟨⟩⟩ | ⟨c, hc, o, ho, rfl⟩)
      cases List.mem_singleton.1 hc
      cases List.mem_singleton.1 ho
      exact hid
    · rintro rfl
      exact .inr ⟨_, List.mem_singleton_self _, _, List.mem_singleton_self _, hid⟩
  refine ⟨(hcontains _).2 rfl, fun a b => ⟨fun hedge => ?_, ?_⟩, fun l l' _ hledger => ?_⟩
  · rw [Commit.written, Store.edges_mergeNodes] at hedge
    cases hedge
  · rintro ⟨hb, l, l', hl, -, rfl⟩
    exact absurd ((hcontains _).1 hb) (hl.ne_root h)
  · rw [Commit.written, Store.ledger_mergeNodes] at hledger
    cases hledger

end Parts

/-! ## 2. Fixed points -/

section FixedPoints

variable {γ : Type} [Measure μ]

/-- **At a fixed point everything that is always ready is done.**  A pair is ready if its node is looked
at and it applies, in every state in which the node is stored. -/
theorem Run.contains_ledger_of_fixedPoint {active : List (Active γ μ)} {context : γ} {s : Store μ}
    (hs : s.Keyed) {ceiling k : Nat} {reason : StopReason}
    (hends : Ends active context s ceiling k reason) (hstop : reason.isFixedPoint = true)
    {x : Active γ μ} (hx : x ∈ active) {id : String}
    (hold : ∀ i, (after active context s (i + 1)).factCount = (after active context s i).factCount →
      (after active context s (i + 1)).contains id = true → (after active context s i).contains id = true)
    (hready : ∀ i m, (after active context s i).node? id = some m →
      x.analyzer.targetsKind m.kind = true ∧ (⟨x, m⟩ : Task γ μ).Applies)
    (hid : (after active context s k).contains id = true) :
    (after active context s k).ledger.contains ⟨x.analyzer.name, id⟩ = true := by
  refine Classical.byContradiction fun hnot => ?_
  have hopen := Bool.eq_false_iff.2 hnot
  obtain ⟨m, hm⟩ := Store.contains_iff.1 hid
  cases reason with
  | passCeiling => cases hstop
  | cancelled => cases hstop
  | converged =>
    -- the pair would be on an agenda that is empty
    have hkeyed : (after active context s k).Keyed := keyed_after hs k
    have hname : m.id = id := hkeyed.own id m hm
    have htask : (⟨x, m⟩ : Task γ μ) ∈ agenda active (after active context s k) := by
      refine (mem_agenda hkeyed).2 ⟨hx, hname ▸ hm, (hready k m hm).1, ?_⟩
      rw [Task.pair, hname]
      exact hopen
    rw [hends.converged rfl] at htask
    cases htask
  | noProgress =>
    -- the node was there before the last pass, and so the pass could do the pair
    obtain ⟨j, rfl, hfacts⟩ := hends.noProgress rfl
    have hkeyed : (after active context s j).Keyed := keyed_after hs j
    obtain ⟨n, hn⟩ := Store.contains_iff.1 (hold j hfacts hid)
    obtain ⟨htargets, happ⟩ := hready j n hn
    exact blocked_of_pending hkeyed hx hopen n hn htargets happ

end FixedPoints

/-! ## 3. The whole tree -/

section Trees

variable {fs : FileSystem} {excludes : String → Bool} {root : Location} {tree : Item} {s : Store μ}

/-- Every stored container has been listed. -/
def Listed (s : Store μ) : Prop :=
  ∀ id n, s.node? id = some n → n.kind ≠ fileKind → s.ledger.contains ⟨collectorName, id⟩ = true

/-- **A store that holds a tree.** -/
structure Discovered (fs : FileSystem) (excludes : String → Bool) (root : Location) (tree : Item)
    (s : Store μ) : Prop where
  /-- The ids are the URIs of what can be reached. -/
  ids : ∀ id, s.contains id = true ↔ ∃ l item, Reachable fs excludes root tree l item ∧ id = l.uri
  kinds : ∀ l item n, Reachable fs excludes root tree l item → s.node? l.uri = some n →
    n.kind = resourceKind l item
  /-- The root has no container, and no edge leads to it. -/
  top : ∀ n, s.node? root.uri = some n → parentOf? n = none ∧
    ∀ a, s.edges.contains (containsKey a root.uri) = false
  /-- All else has one container, from which its only edge comes. -/
  parents : ∀ id n, s.node? id = some n → id ≠ root.uri → ∃ p, parentOf? n = some p ∧
    s.contains p = true ∧ ∀ a, s.edges.contains (containsKey a id) = true ↔ a = p
  /-- Edges lead from what is stored to what is stored. -/
  ends : ∀ a b, s.edges.contains (containsKey a b) = true → s.contains a = true ∧ s.contains b = true
  /-- Along the edges everything can be reached from the root. -/
  connected : ∀ id, s.contains id = true →
    Relation.ReflTransGen (fun a b => s.edges.contains (containsKey a b) = true) root.uri id

theorem Placed.eq_of_reachable (h : Readable fs excludes root tree) {l : Location} {item : Item}
    {n : Node μ} (hn : Placed fs excludes root tree l.uri n)
    (hl : Reachable fs excludes root tree l item) :
    n.kind = resourceKind l item ∧ parentOf? n = containerIn? root l := by
  obtain ⟨l', item', hl', huri, hkind, hparent⟩ := hn
  cases h.eq_of_uri hl hl' huri
  exact ⟨hkind.trans (h.resourceKind_congr hl' hl), hparent⟩

/-- If every container has been listed, nothing is missing. -/
theorem PartOfTree.contains_of_reachable (h : Readable fs excludes root tree)
    (hs : Charted fs excludes root tree s) (hpart : PartOfTree fs excludes root tree s)
    (hlisted : Listed s)
    {l : Location} {item : Item} (hl : Reachable fs excludes root tree l item) :
    s.contains l.uri = true := by
  induction hl with
  | root => exact hpart.top
  | @inside l l' item item' name hl hinside hname ih =>
    obtain ⟨n, hn⟩ := Store.contains_iff.1 ih
    refine hpart.listed l l' ⟨item, name, item', hl, hinside, hname⟩ (hlisted l.uri n hn ?_)
    rw [((hs.placed l.uri n hn).eq_of_reachable h hl).1]
    exact hinside.resourceKind_ne

/-- **A store in which every container has been listed holds the tree.** -/
theorem PartOfTree.discovered (h : Readable fs excludes root tree) (hs : Charted fs excludes root tree s)
    (hpart : PartOfTree fs excludes root tree s) (hlisted : Listed s) :
    Discovered fs excludes root tree s := by
  have hall : ∀ l item, Reachable fs excludes root tree l item → s.contains l.uri = true :=
    fun l item hl => hpart.contains_of_reachable h hs hlisted hl
  have hedge : ∀ l l', Holds fs excludes root tree l l' →
      s.edges.contains (containsKey l.uri l'.uri) = true := by
    intro l l' hl
    obtain ⟨-, item', hl'⟩ := hl.exists_reachable
    exact (hpart.edges _ _).2 ⟨hall l' item' hl', l, l', hl, rfl, rfl⟩
  refine ⟨fun id => ⟨fun hid => ?_, ?_⟩, fun l item n hl hn => ?_, fun n hn => ⟨?_, fun a => ?_⟩,
    fun id n hn hne => ?_, fun a b hab => ?_, fun id hid => ?_⟩
  · obtain ⟨n, hn⟩ := Store.contains_iff.1 hid
    obtain ⟨l, item, hl, huri, -⟩ := hs.placed id n hn
    exact ⟨l, item, hl, huri⟩
  · rintro ⟨l, item, hl, rfl⟩
    exact hall l item hl
  · exact ((hs.placed l.uri n hn).eq_of_reachable h hl).1
  · rw [((hs.placed root.uri n hn).eq_of_reachable h .root).2, containerIn?, if_pos rfl]
  · refine Bool.eq_false_iff.2 fun hedge => ?_
    obtain ⟨-, l, l', hl, -, huri⟩ := (hpart.edges a root.uri).1 hedge
    exact hl.ne_root h huri
  · obtain ⟨l, item, hl, rfl, -, hparent⟩ := hs.placed id n hn
    rcases h.containerIn?_cases hl with ⟨rfl, -⟩ | ⟨outer, around, name, houter, hinside, hname, hcontainer⟩
    · exact absurd rfl hne
    have hholds : Holds fs excludes root tree outer l := ⟨around, name, item, houter, hinside, hname⟩
    refine ⟨outer.uri, hparent.trans hcontainer, hall outer around houter, fun a => ⟨fun ha => ?_, ?_⟩⟩
    · obtain ⟨-, l₁, l₁', hl₁, rfl, huri⟩ := (hpart.edges a l.uri).1 ha
      rw [(hl₁.eq_of_uri h hholds huri).1]
    · rintro rfl
      exact hedge outer l hholds
  · obtain ⟨hb, l, l', hl, rfl, rfl⟩ := (hpart.edges a b).1 hab
    obtain ⟨⟨item, hl₀⟩, -⟩ := hl.exists_reachable
    exact ⟨hall l item hl₀, hb⟩
  · obtain ⟨n, hn⟩ := Store.contains_iff.1 hid
    obtain ⟨l, item, hl, rfl, -⟩ := hs.placed id n hn
    clear hid hn
    induction hl with
    | root => exact .refl
    | @inside l l' item item' name hl hinside hname ih =>
      exact ih.tail (hedge l l' ⟨item, name, item', hl, hinside, hname⟩)

end Trees

/-! ## 4. Enough passes -/

section Enough

variable {γ : Type} [Measure μ]

namespace Run

variable {active : List (Active γ μ)} {context : γ} {limits : Limits} {stop : Nat → Bool}
  {s : Store μ}

/-- Each pass that adds a fact finishes a pair. -/
theorem le_length_pairsUpTo {n : Nat} (h : Underway active context s n) :
    n ≤ (pairsUpTo active context s n).length := by
  induction n with
  | zero => exact Nat.zero_le _
  | succ n ih =>
    have hbefore := ih fun i hi => h i (Nat.lt_succ_of_lt hi)
    have hsome : finishing active context (after active context s n) ≠ [] := by
      intro hnil
      refine (h n n.lt_succ_self).2 ?_
      rw [after_succ, advance_of_finishing_nil _ hnil]
    have hpos := List.length_pos_of_ne_nil hsome
    rw [pairsUpTo_succ, List.length_append, List.length_map]
    omega

/-- A course that nobody asks to stop is not cancelled. -/
theorem course_ne_cancelled (hstop : ∀ i, stop i = false)
    (hactive : ∀ s, cancelling active context s = false) (left : Nat) (p : Progress) {κ : Core μ}
    (hκ : κ.cancelled = false) : (course active context limits stop left p κ).1.2 ≠ .cancelled := by
  induction left generalizing p κ with
  | zero =>
    rw [course, hκ, hstop, Bool.or_self, if_neg Bool.false_ne_true]
    split <;> simp
  | succ left ih =>
    rw [course, hκ, hstop, Bool.or_self, if_neg Bool.false_ne_true]
    split
    · simp
    dsimp only
    split
    · simp
    · exact ih _ (hactive κ.store)

end Run

/-- No builtin analyzer asks a run to stop. -/
theorem Builtin.cancels_inspect {a : Analyzer Context μ} (ha : a ∈ roster.analyzers) (context : Context)
    (n : Node μ) : (a.inspect context n).cancels = false := by
  have hanalyzer : a = collector ∨ a = sniffer ∨ a = lineCounter := by simpa [roster] using ha
  rcases hanalyzer with rfl | rfl | rfl
  · simp only [collector]
    split <;> rfl
  · simp only [sniffer]
    split <;> rfl
  · simp only [lineCounter]
    split <;> rfl

theorem Builtin.cancelling_eq_false {active : List (Run.Active Context μ)}
    (hactive : ∀ x ∈ active, x.analyzer ∈ roster.analyzers) (context : Context) (s : Store μ) :
    Run.cancelling active context s = false := by
  rw [Run.cancelling, List.any_map, List.any_eq_false]
  intro t ht
  obtain ⟨x, hx, ht⟩ := List.mem_flatMap.1 ht
  obtain ⟨n, -, rfl⟩ := List.mem_map.1 ht
  rw [Function.comp_apply, Run.evaluate]
  split
  · simp [Run.Evaluation.cancels]
  split
  · simp [Run.Evaluation.cancels]
  · simp [Run.Evaluation.cancels]
  · simp [Run.Evaluation.cancels, cancels_inspect (hactive x hx)]

variable {fs : FileSystem} {settings : Settings} {root : Location} {tree : Item} {s : Store μ}

/-- A run over a tree makes few passes that add a fact: no more than three for each resource. -/
theorem Charted.le_of_underway (h : Readable fs settings.excludes root tree)
    (hs : Charted fs settings.excludes root tree s) {active : List (Run.Active Context μ)}
    (hactive : ∀ x ∈ active, x.analyzer ∈ roster.analyzers)
    (hnames : (active.map (·.analyzer.name)).Nodup) {places : List String}
    (hplaces : ∀ l item, Reachable fs settings.excludes root tree l item → l.uri ∈ places) {n : Nat}
    (hunderway : Run.Underway active { settings, files := fs } s n) : n ≤ 3 * places.length := by
  have hafter := hs.after h (fun _ hname => hname) hactive
  have hmem : ∀ pair ∈ Run.pairsUpTo active { settings, files := fs } s n, pair ∈
      (roster (μ := μ)).analyzers.flatMap fun a => places.map fun id => ⟨a.name, id⟩ := by
    intro pair hpair
    obtain ⟨i, -, hpair⟩ := List.mem_flatMap.1 hpair
    obtain ⟨c, hc, rfl⟩ := List.mem_map.1 hpair
    obtain ⟨t, ht, he⟩ := Run.mem_completions.1 hc
    obtain ⟨hmem, hnode, -⟩ := (Run.mem_agenda (hafter i).keyed).1 ht
    obtain ⟨l, item, hl, huri, -⟩ := (hafter i).placed _ _ hnode
    rw [Run.pair_of_completion he]
    refine List.mem_flatMap.2 ⟨t.active.analyzer, hactive _ hmem, List.mem_map.2 ⟨l.uri, ?_, ?_⟩⟩
    · exact hplaces l item hl
    · rw [← huri, Run.Task.pair]
  have hlength := (Run.nodup_pairsUpTo hs.keyed hnames n).length_le_of_subset hmem
  have hpasses := Run.le_length_pairsUpTo hunderway
  simp only [roster, List.flatMap_cons, List.flatMap_nil, List.length_append, List.length_map,
    List.length_nil] at hlength
  omega

/-- **An analysis that may make enough passes stops at a fixed point.** -/
theorem exists_fixedPoint {w : Workspace μ} {target : Option String} (hw : w.roster = roster)
    (hvalid : w.settings.validate = .ok w.settings)
    (h : Readable fs w.settings.excludes (w.targetLocation target) tree) {places : List String}
    (hplaces : ∀ l item, Reachable fs w.settings.excludes (w.targetLocation target) tree l item →
      l.uri ∈ places)
    (hceiling : 3 * places.length < w.settings.maxPasses) :
    ∃ report final, w.analyze fs Store.empty target = (.ok report, final) ∧
      report.stop.isFixedPoint = true := by
  obtain ⟨n, d, report, final, hkind, -, hrun, hanalyze⟩ :=
    h.exists_analyzeWith hw Store.keyed_empty Store.legible_empty hvalid false fun _ => false
  refine ⟨report, final.store, hanalyze, ?_⟩
  have hs := (charted_empty (μ := μ)).seed h (fun _ => id) hkind
  rw [hw] at hrun
  have hactive : ∀ x ∈ Run.active roster { settings := w.settings, files := fs } w.settings.limits,
      x.analyzer ∈ (roster (μ := μ)).analyzers := fun x hx => Run.analyzer_mem hx
  obtain ⟨-, hends⟩ := returns_run hs.keyed hrun
  cases hreason : report.stop with
  | converged => rfl
  | noProgress => rfl
  | passCeiling =>
    obtain ⟨hlength, hunderway, -⟩ := hends.passCeiling hreason
    have hle := hs.le_of_underway h hactive (nodup_names_active _ _) hplaces hunderway
    have hmax : report.passes.length = w.settings.maxPasses := hlength
    omega
  | cancelled =>
    have hcourse := (course_of_returns_run _ _ _ _ hs.keyed hrun).2.1
    rw [hreason] at hcourse
    exact absurd hcourse.symm (Run.course_ne_cancelled (fun _ => rfl)
      (cancelling_eq_false hactive _) _ _ rfl)

end Enough

/-! ## 5. Analyses -/

section Analyses

variable [Measure μ] {fs : FileSystem} {w : Workspace μ} {target : Option String} {tree : Item}
  {report : Report} {final : Store μ}

omit [Measure μ] in
/-- The collector looks at every container, and puts none off. -/
theorem Builtin.collector_ready {x : Run.Active Context μ} (hx : x.analyzer = collector) {n : Node μ}
    {l : Location} {item : Item} (hn : n.kind = resourceKind l item)
    (hkind : resourceKind l item ≠ fileKind) :
    x.analyzer.targetsKind n.kind = true ∧ (⟨x, n⟩ : Run.Task Context μ).Applies := by
  rw [Run.Task.Applies, hx, hn]
  refine ⟨?_, rfl, by simp [collector]⟩
  unfold resourceKind at *
  split_ifs at *
  · rfl
  · rfl
  · exact absurd rfl hkind

/-- **A run that stops at a fixed point has listed every container**, if the collector takes part. -/
theorem listed_of_fixedPoint {settings : Settings} {root : Location} {s : Store μ}
    (hcollector : settings.disables collectorName = false)
    (h : Readable fs settings.excludes root tree) (hs : Charted fs settings.excludes root tree s)
    (hweighed : Weighed s) {k : Nat} {reason : StopReason}
    (hends : Run.Ends (Run.active roster { settings, files := fs } settings.limits)
      { settings, files := fs } s settings.limits.maxPasses k reason)
    (hstop : reason.isFixedPoint = true) :
    Listed (Run.after (Run.active roster { settings, files := fs } settings.limits)
      { settings, files := fs } s k) := by
  have hactive : ∀ x ∈ Run.active (roster (μ := μ)) { settings, files := fs } settings.limits,
      x.analyzer ∈ (roster (μ := μ)).analyzers := fun x hx => Run.analyzer_mem hx
  have hafter := hs.after h (fun _ => id) hactive
  have htakes : Run.TakesPart (roster (μ := μ)) { settings, files := fs } settings.limits collector :=
    ⟨List.mem_cons_self, hcollector, rfl⟩
  obtain ⟨x, hx, hcollects⟩ := Run.exists_active.2 htakes
  have hname : x.analyzer.name = collectorName := by
    rw [hcollects]
    rfl
  intro id n hn hkind
  rw [← hname]
  refine Run.contains_ledger_of_fixedPoint hs.keyed hends hstop hx (fun i hfacts hid => ?_)
    (fun i m hm => ?_) (Store.contains_iff.2 ⟨n, hn⟩)
  · exact (hweighed.after h hs (fun _ hname => hname) hactive i).contains_of_factCount_eq h (hafter i)
      (fun _ hname => hname) hactive hfacts hid
  · have hsame := (((hafter i).placed id m hm).congr h ((hafter k).placed id n hn)).1
    obtain ⟨l, item, -, -, hresource, -⟩ := (hafter k).placed id n hn
    exact collector_ready hcollects (hsame.trans hresource) (hresource ▸ hkind)

/-- **The whole tree is discovered.**  If an analysis of a tree that begins with an empty store stops at a
fixed point, its store has the resources that can be reached without passing an excluded name and no
others, each of its kind, and their edges are the tree. -/
theorem tree_discovered (hw : w.roster = roster)
    (hcollector : w.settings.disables collectorName = false)
    (h : Readable fs w.settings.excludes (w.targetLocation target) tree)
    (hrun : w.analyze fs Store.empty target = (.ok report, final))
    (hstop : report.stop.isFixedPoint = true) :
    Discovered fs w.settings.excludes (w.targetLocation target) tree final := by
  have hvalid : w.settings.validate = .ok w.settings := by
    cases hvalid : w.settings.validate with
    | error e =>
      simp only [Workspace.analyze, Workspace.analyzeWith, hvalid] at hrun
      cases hrun
    | ok checked => rw [Settings.eq_of_validate hvalid]
  obtain ⟨n, d, report', last, hkind, -, hreturns, hanalyze⟩ :=
    h.exists_analyzeWith hw Store.keyed_empty Store.legible_empty hvalid false fun _ => false
  cases hanalyze.symm.trans hrun
  have hs := (charted_empty (μ := μ)).seed h (fun _ => id) hkind
  have hweighed := (weighed_empty (μ := μ)).seed h charted_empty (fun _ => id) hkind
  rw [hw] at hreturns
  obtain ⟨hstore, hends⟩ := returns_run hs.keyed hreturns
  have hactive : ∀ x ∈ Run.active roster { settings := w.settings, files := fs } w.settings.limits,
      x.analyzer ∈ (roster (μ := μ)).analyzers := fun x hx => Run.analyzer_mem hx
  rw [hstore]
  exact ((partOfTree_seed h d).after h hs hactive _).discovered h (hs.after h (fun _ => id) hactive _)
    (listed_of_fixedPoint hcollector h hs hweighed hends hstop)

end Analyses

/-- The shelf is analyzed with default settings, which exclude the text on it. -/
theorem tree_discovered_shelf : ∃ report final,
    mixedWorkspace.analyze mixedShelf Store.empty none = (.ok report, final) ∧
      report.stop.isFixedPoint = true ∧
      Discovered mixedShelf mixedWorkspace.settings.excludes (mixedWorkspace.targetLocation none)
        mixedShelf.root final := by
  have hreadable : Readable mixedShelf mixedWorkspace.settings.excludes
      (mixedWorkspace.targetLocation none) mixedShelf.root := readable_shelf.excluding _
  have hplaces : ∀ l item, Reachable mixedShelf mixedWorkspace.settings.excludes
      (mixedWorkspace.targetLocation none) mixedShelf.root l item →
      l.uri ∈ OnShelf.places.map Location.uri :=
    fun l item hl => List.mem_map_of_mem (OnShelf.of_reachable hl.including).mem_places
  obtain ⟨report, final, hrun, hstop⟩ := exists_fixedPoint rfl rfl hreadable hplaces (by decide)
  exact ⟨report, final, hrun, hstop, tree_discovered rfl rfl hreadable hrun hstop⟩

end FactGraph
