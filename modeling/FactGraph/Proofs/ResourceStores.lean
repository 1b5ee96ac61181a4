import FactGraph.Proofs.LostMetrics
import FactGraph.Proofs.ResourceFindings
import FactGraph.Proofs.Runs
import FactGraph.Workspace

/-!
# Stores of resources

Analyzing a tree fills a store with nodes of its resources.  Whatever has been found so far, each
stored node is the node of one resource, of that resource's kind and with its container as parent, and
the container is stored, too (`Charted`).

A store changes in two ways, by a pass and by seeding, and both write the same way: seeding is a commit
of one observation (`Workspace.seed_of_describe`).  So there is one list of what a written result can be
(`Reports`), one list of what it can ask of a node (`Asks`), and one step (`Charted.written`).
-/

namespace FactGraph

open FileSystem (Item)
open Builtin

/-! ## 1. Resources and their containers -/

namespace Readable

variable {fs : FileSystem} {excludes : String → Bool} {root l : Location} {tree item : Item}

/-- Where a resource of a tree is: at the root, or in a container. -/
theorem containerIn?_cases (h : Readable fs excludes root tree)
    (hl : Reachable fs excludes root tree l item) :
    (l = root ∧ containerIn? root l = none) ∨
      ∃ outer around name, Reachable fs excludes root tree outer around ∧
        Inside fs outer around name l item ∧ excludes name = false ∧
        containerIn? root l = some outer.uri := by
  cases hl with
  | root => exact .inl ⟨rfl, if_pos rfl⟩
  | inside hl hinside hname =>
    exact .inr ⟨_, _, _, hl, hinside, hname, h.containerIn?_of_inside hl hinside⟩

/-- Nothing is its own container. -/
theorem containerIn?_ne (h : Readable fs excludes root tree)
    (hl : Reachable fs excludes root tree l item) : containerIn? root l ≠ some l.uri := by
  intro hself
  rcases h.containerIn?_cases hl with ⟨-, hnone⟩ | ⟨outer, around, name, houter, hinside, -, hsome⟩
  · rw [hnone] at hself
    cases hself
  · rw [hsome, Option.some.injEq] at hself
    have hdeeper := hinside.depth_lt (h.stands houter).1 (h.stands houter).2
    rw [h.eq_of_uri houter hl hself] at hdeeper
    exact Nat.lt_irrefl _ hdeeper

theorem linesAt_of_file (h : Readable fs excludes root tree) {content : Bytes} {modified : Moment}
    (hl : Reachable fs excludes root tree l (.file content modified)) :
    linesAt fs l.uri = countLines content := by
  have hlocate : Context.locate l.uri = .ok l := by
    rw [Context.locate, Location.parse_uri (h.plain_of hl)]
    rfl
  have hread : Context.locate l.uri >>= Resolver.standard.read fs = .ok content := by
    rw [hlocate]
    exact (h.stands hl).1.read
  unfold linesAt
  rw [hread]

theorem exists_file (h : Readable fs excludes root tree) (hl : Reachable fs excludes root tree l item)
    (hkind : resourceKind l item = fileKind) : ∃ content modified, item = .file content modified := by
  cases item with
  | file content modified => exact ⟨content, modified, rfl⟩
  | directory => simp [resourceKind, Item.isDirectory, directoryKind, fileKind] at hkind
  | link target => exact absurd rfl ((h.stands hl).1.plain_item.unlinked [] target)

end Readable

/-! ## 2. Charted stores -/

section Charts

variable {μ : Type} {fs : FileSystem} {excludes : String → Bool} {root : Location} {tree : Item}

/-- A node is that of a resource of the tree. -/
def Placed (fs : FileSystem) (excludes : String → Bool) (root : Location) (tree : Item) (id : String)
    (n : Node μ) : Prop :=
  ∃ l item, Reachable fs excludes root tree l item ∧ id = l.uri ∧ n.kind = resourceKind l item ∧
    parentOf? n = containerIn? root l

/-- **A store of resources.**  All nodes are those of resources, and with a resource its container is
stored. -/
structure Charted (fs : FileSystem) (excludes : String → Bool) (root : Location) (tree : Item)
    (s : Store μ) : Prop where
  keyed : s.Keyed
  placed : ∀ id n, s.node? id = some n → Placed fs excludes root tree id n
  parents : ∀ id n p, s.node? id = some n → parentOf? n = some p → s.contains p = true

theorem charted_empty : Charted fs excludes root tree (Store.empty : Store μ) where
  keyed := Store.keyed_empty
  placed := by
    rintro id n ⟨⟩
  parents := by
    rintro id n p ⟨⟩

theorem Charted.of_nodes {s s' : Store μ} (hs : Charted fs excludes root tree s) (hkeyed : s'.Keyed)
    (hnodes : ∀ id, s'.node? id = s.node? id) : Charted fs excludes root tree s' := by
  refine ⟨hkeyed, fun id n hn => hs.placed id n (hnodes id ▸ hn), fun id n p hn hp => ?_⟩
  rw [Store.contains_eq_isSome, hnodes, ← Store.contains_eq_isSome]
  exact hs.parents id n p (hnodes id ▸ hn) hp

namespace Placed

variable {id p : String} {m n : Node μ}

/-- Kind and container of a node are a matter of its id. -/
theorem congr (h : Readable fs excludes root tree) (hm : Placed fs excludes root tree id m)
    (hn : Placed fs excludes root tree id n) : m.kind = n.kind ∧ parentOf? m = parentOf? n := by
  obtain ⟨l, item, hl, rfl, hkind, hparent⟩ := hm
  obtain ⟨l', item', hl', huri, hkind', hparent'⟩ := hn
  cases h.eq_of_uri hl hl' huri
  exact ⟨hkind.trans ((h.resourceKind_congr hl hl').trans hkind'.symm), hparent.trans hparent'.symm⟩

theorem parentOf?_ne (h : Readable fs excludes root tree) (hn : Placed fs excludes root tree id n) :
    parentOf? n ≠ some id := by
  obtain ⟨l, item, hl, rfl, -, hparent⟩ := hn
  rw [hparent]
  exact h.containerIn?_ne hl

/-- Files contain nothing. -/
theorem kind_container (h : Readable fs excludes root tree) (hn : Placed fs excludes root tree id n)
    (hp : parentOf? n = some p) (hm : Placed fs excludes root tree p m) : m.kind ≠ fileKind := by
  obtain ⟨l, item, hl, rfl, -, hparent⟩ := hn
  obtain ⟨l', item', hl', rfl, hkind, -⟩ := hm
  rw [hp] at hparent
  rcases h.containerIn?_cases hl with ⟨-, hnone⟩ | ⟨outer, around, name, houter, hinside, -, hsome⟩
  · rw [hnone] at hparent
    cases hparent
  · rw [hsome, Option.some.injEq] at hparent
    cases h.eq_of_uri hl' houter hparent
    rw [hkind, h.resourceKind_congr hl' houter]
    exact hinside.resourceKind_ne

/-- The file of a node. -/
theorem exists_file (h : Readable fs excludes root tree) (hn : Placed fs excludes root tree id n)
    (hkind : n.kind = fileKind) :
    ∃ l content modified, Reachable fs excludes root tree l (.file content modified) ∧ id = l.uri ∧
      linesAt fs id = countLines content := by
  obtain ⟨l, item, hl, rfl, hkind', -⟩ := hn
  obtain ⟨content, modified, rfl⟩ := h.exists_file hl (hkind'.symm.trans hkind)
  exact ⟨l, content, modified, hl, rfl, h.linesAt_of_file hl⟩

end Placed

/-! ## 3. Parents under single writes -/

namespace Builtin

variable {n o : Node μ} {p : Patch μ}

theorem parentOf?_absorb_of_some {parent : String} (h : parentOf? o = some parent) :
    parentOf? (n.absorb o) = some parent := by
  obtain ⟨v, hv, htext⟩ := Option.bind_eq_some_iff.1 h
  rw [parentOf?, Node.absorb, Table.get?_overlay, hv]
  exact htext

theorem parentOf?_absorb_of_bare (h : o.properties.get? parentKey = none) :
    parentOf? (n.absorb o) = parentOf? n := by
  rw [parentOf?, parentOf?, Node.absorb, Table.get?_overlay, h, Option.none_or]

variable [Measure μ]

theorem parentOf?_apply_of_notes (h : Notes p) : parentOf? (p.apply n) = parentOf? n := by
  rw [parentOf?, parentOf?, Patch.apply, h.sums]
  refine congrArg (Option.bind · Value.text?) ?_
  refine (Table.get?_overlay _ _ _).trans ?_
  rw [h.homeless, Option.none_or]

theorem parentOf?_measuring (lines : Nat) :
    parentOf? ((measuring lines : Patch μ).apply n) = parentOf? n := rfl

theorem parentOf?_sharing (lines : Nat) :
    parentOf? ((sharing lines : Patch μ).apply n) = parentOf? n := by
  have hne : parentKey ≠ Patch.counter linesKey := by decide
  exact congrArg (Option.bind · Value.text?) (Table.get?_insert_of_ne _ _ hne)

theorem get?_metrics_measuring (lines : Nat) (key : String) :
    ((measuring lines : Patch μ).apply n).metrics.get? key =
      if key = linesKey ∧ Measure.isFinite (Measure.ofNat lines : μ) = true then
        some (Measure.ofNat lines)
      else n.metrics.get? key := by
  have happly : ((measuring lines : Patch μ).apply n).metrics =
      n.metrics.overlay (measuring lines : Patch μ).metrics := rfl
  rw [happly, Table.get?_overlay, measuring]
  split_ifs with hfinite hboth hboth
  · rw [hboth.1, Table.get?_insert_self]
    rfl
  · have hne : key ≠ linesKey := fun hkey => hboth ⟨hkey, hfinite⟩
    rw [Table.get?_insert_of_ne _ _ hne]
    rfl
  · exact absurd hboth.2 hfinite
  · rfl

theorem get?_metrics_sharing (lines : Nat) {key : String} (hkey : key ≠ linesKey) :
    ((sharing lines : Patch μ).apply n).metrics.get? key = n.metrics.get? key :=
  Table.get?_insert_of_ne _ _ hkey

theorem parentOf?_stored (n : Node μ) : parentOf? n.stored = parentOf? n := by
  rw [parentOf?, parentOf?, Node.stored, Table.get?_mapValues]
  cases n.properties.get? parentKey with
  | none => rfl
  | some v => cases v <;> rfl

end Builtin

/-! ## 4. What is written -/

/-- A result is the count of the lines of a stored file, and the first one. -/
structure CountsLines [Measure μ] (fs : FileSystem) (s : Store μ) (c : Completion μ) (n : Node μ) :
    Prop where
  stored : s.node? n.id = some n
  kind : n.kind = fileKind
  pair : c.pair = ⟨(lineCounter (μ := μ)).name, n.id⟩
  unrecorded : s.ledger.contains c.pair = false
  findings : c.findings = lineFindings n (linesAt fs n.id)

/-- What a result that is written into a store of resources can be. -/
inductive Reports [Measure μ] (fs : FileSystem) (settings : Settings) (excludes : String → Bool)
    (root : Location) (tree : Item) (s : Store μ) (c : Completion μ) : Prop
  /-- The root is put into the store. -/
  | seeded {d : Description} (hkind : kindOf root d = resourceKind root tree)
      (hpair : c.pair = ⟨"", root.uri⟩)
      (hfinds : c.findings = Findings.observe {} (resourceNode root d))
  /-- The collector has listed a resource. -/
  | unfolded {l : Location} (hstored : s.contains l.uri = true)
      (hl : ∃ item, Reachable fs excludes root tree l item) (hpair : c.pair = ⟨collectorName, l.uri⟩)
      (hfinds : ∀ item, Reachable fs excludes root tree l item → Unfolds fs settings l item c.findings)
  /-- An analyzer has noted something; if it is the collector, there was nothing to list. -/
  | noted (hobserved : c.findings.observed = []) (hedges : c.findings.edges = [])
      (hnotes : ∀ id p, c.findings.patches.get? id = some p → Notes p)
      (hbarren : ∀ l item, Reachable fs excludes root tree l item → c.pair = ⟨collectorName, l.uri⟩ →
        ∀ name l' item', ¬ Inside fs l item name l' item')
  /-- The lines of a file have been counted. -/
  | counted {n : Node μ} (hn : CountsLines fs s c n)

/-- What a result that is written into a store of resources can ask of a node. -/
inductive Asks [Measure μ] (fs : FileSystem) (excludes : String → Bool) (root : Location) (tree : Item)
    (s : Store μ) (results : List (Completion μ)) : Write μ → Prop
  /-- A resource was seen, and its container is stored. -/
  | seen {o : Node μ} (ho : Placed fs excludes root tree o.id o)
      (hbare : parentOf? o = none → o.properties.get? parentKey = none)
      (hstored : ∀ p, parentOf? o = some p → s.contains p = true) (hfresh : Fresh o) :
      Asks fs excludes root tree s results (.observe o)
  | note {target : String} {p : Patch μ} (hp : Notes p) :
      Asks fs excludes root tree s results (.patch target p)
  /-- A file was measured. -/
  | measure {c : Completion μ} {n : Node μ} (hc : c ∈ results) (hn : CountsLines fs s c n) :
      Asks fs excludes root tree s results (.patch n.id (measuring (linesAt fs n.id)))
  /-- A file gave its lines to its container. -/
  | share {c : Completion μ} {n : Node μ} {p : String} (hc : c ∈ results) (hn : CountsLines fs s c n)
      (hparent : parentOf? n = some p)
      (hfinite : Measure.isFinite (Measure.ofNat (linesAt fs n.id) : μ) = true) :
      Asks fs excludes root tree s results (.patch p (sharing (linesAt fs n.id)))

section Writing

variable [Measure μ] {settings : Settings} {s : Store μ} {results : List (Completion μ)}

/-- A count goes to the file and to its container. -/
theorem CountsLines.get?_patches (h : Readable fs excludes root tree)
    (hs : Charted fs excludes root tree s) {c : Completion μ} {n : Node μ} (hn : CountsLines fs s c n)
    (id : String) : c.findings.patches.get? id =
      if parentOf? n = some id ∧ Measure.isFinite (Measure.ofNat (linesAt fs n.id) : μ) = true then
        some (sharing (linesAt fs n.id))
      else if id = n.id then some (measuring (linesAt fs n.id)) else none := by
  rw [hn.findings]
  exact get?_lineFindings _ ((hs.placed n.id n hn.stored).parentOf?_ne h) id

/-- What a result finds is what it asks. -/
theorem asks_of_mem_writes (h : Readable fs excludes root tree)
    (hs : Charted fs excludes root tree s)
    (hexcludes : ∀ name, settings.excludes name = false → excludes name = false)
    (hreports : ∀ c ∈ results, Reports fs settings excludes root tree s c) {w : Write μ}
    (hw : w ∈ Commit.writes results) :
    Asks fs excludes root tree s results w := by
  obtain ⟨c, hc, hw⟩ := Commit.mem_writes.1 hw
  rw [Completion.writes, List.mem_append, List.mem_map, List.mem_map] at hw
  cases hreports c hc with
  | @seeded d hkind _ hfinds =>
    rw [hfinds] at hw
    rcases hw with ⟨o, ho, rfl⟩ | ⟨row, hrow, -⟩
    · cases List.mem_singleton.1 ho
      have hparent := parentOf?_resourceNode (μ := μ) root d
      have hids := id_resourceNode (μ := μ) root d
      refine .seen ⟨root, tree, .root, hids.1, hids.2.trans hkind, ?_⟩ ?_ ?_ (fresh_resourceNode root d)
      · rw [hparent, containerIn?, if_pos rfl]
      · exact fun _ => get?_properties_resourceNode root d (by decide)
      · intro p hp
        rw [hparent] at hp
        cases hp
    · cases hrow
  | @unfolded l hstored hl _ hfinds =>
    obtain ⟨item, hl⟩ := hl
    replace hfinds := hfinds item hl
    rcases hw with ⟨o, ho, rfl⟩ | ⟨row, hrow, -⟩
    · obtain ⟨name, l', item', hinside, hname, hid, hkind, hparent, hfresh⟩ := hfinds.observed o ho
      have hl' : Reachable fs excludes root tree l' item' := .inside hl hinside (hexcludes name hname)
      refine .seen ⟨l', item', hl', hid, hkind, ?_⟩ ?_ ?_ hfresh
      · rw [hparent, h.containerIn?_of_inside hl hinside]
      · intro hnone
        rw [hparent] at hnone
        cases hnone
      · intro p hp
        rw [hparent] at hp
        cases hp
        exact hstored
    · rw [hfinds.patches] at hrow
      cases hrow
  | noted hobserved _ hnotes _ =>
    rw [hobserved] at hw
    rcases hw with ⟨o, ho, -⟩ | ⟨⟨target, p⟩, hrow, rfl⟩
    · cases ho
    · exact .note (hnotes target p (Table.mem_rows.1 hrow))
  | @counted n hn =>
    have hobserved : c.findings.observed = [] := by
      rw [hn.findings]
      exact (quiet_lineFindings n _).1
    rw [hobserved] at hw
    rcases hw with ⟨o, ho, -⟩ | ⟨⟨target, p⟩, hrow, rfl⟩
    · cases ho
    · have hget := Table.mem_rows.1 hrow
      rw [hn.get?_patches h hs] at hget
      split at hget
      · next hshared =>
        cases hget
        exact .share hc hn hshared.1 hshared.2
      · split at hget
        · next htarget =>
          cases hget
          rw [htarget]
          exact .measure hc hn
        · cases hget

/-- One write: what it is done to stays the node of a resource, and its container is stored. -/
theorem Asks.placed_onto (h : Readable fs excludes root tree) {w : Write μ}
    (hw : Asks fs excludes root tree s results w) {id : String} {o : Option (Node μ)}
    (ho : ∀ m, o = some m → Placed fs excludes root tree id m ∧
      ∀ p, parentOf? m = some p → s.contains p = true) :
    ∀ m, w.onto id o = some m → Placed fs excludes root tree id m ∧
      ∀ p, parentOf? m = some p → s.contains p = true := by
  intro m hm
  have hpatch : ∀ {target : String} {p : Patch μ}, (∀ n, parentOf? (p.apply n) = parentOf? n) →
      (Write.patch target p).onto id o = some m → Placed fs excludes root tree id m ∧
        ∀ p, parentOf? m = some p → s.contains p = true := by
    intro target p hparent hm
    rw [Write.onto] at hm
    split at hm
    · obtain ⟨n, hn, rfl⟩ := Option.map_eq_some_iff.1 hm
      obtain ⟨⟨l, item, hl, hid, hkind, hplace⟩, hstored⟩ := ho n hn
      refine ⟨⟨l, item, hl, hid, (p.kind_apply n).trans hkind, (hparent n).trans hplace⟩, ?_⟩
      rwa [hparent]
    · exact ho m hm
  cases hw with
  | @seen seen hseen hbare hstored _ =>
    rw [Write.onto] at hm
    split at hm
    · next hid =>
      subst hid
      cases ho' : o with
      | none =>
        rw [ho'] at hm
        cases hm
        exact ⟨hseen, hstored⟩
      | some n =>
        rw [ho'] at hm
        cases hm
        -- the kind is the one that was seen, and the container the same as before
        have hparent : parentOf? (n.absorb seen) = parentOf? seen := by
          cases hp : parentOf? seen with
          | some p => exact parentOf?_absorb_of_some hp
          | none =>
            rw [parentOf?_absorb_of_bare (hbare hp), ← hp]
            exact ((ho n ho').1.congr h hseen).2
        obtain ⟨l, item, hl, hid, hkind, hplace⟩ := hseen
        exact ⟨⟨l, item, hl, hid, hkind, hparent.trans hplace⟩, fun p hp => hstored p (hparent ▸ hp)⟩
    · exact ho m hm
  | note hp => exact hpatch (fun _ => parentOf?_apply_of_notes hp) hm
  | measure => exact hpatch (fun _ => parentOf?_measuring _) hm
  | share => exact hpatch (fun _ => parentOf?_sharing _) hm

/-- **What a write does to a node**, as far as lines are concerned: nothing, or the node is a file that is
measured, or it is a container that gets the lines of a file. -/
theorem Asks.onto_cases (h : Readable fs excludes root tree) (hs : Charted fs excludes root tree s)
    {w : Write μ} (hw : Asks fs excludes root tree s results w) {id : String} {n m : Node μ}
    (hn : Placed fs excludes root tree id n) (hm : w.onto id (some n) = some m) :
    (m.kind = n.kind ∧ m.metrics = n.metrics ∧
        (m.hasTag measuredTag = true → n.hasTag measuredTag = true)) ∨
      (∃ c ∈ results, ∃ file, CountsLines fs s c file ∧ file.id = id ∧ n.kind = fileKind ∧
        m = (measuring (linesAt fs id)).apply n) ∨
      ∃ c ∈ results, ∃ file, CountsLines fs s c file ∧ parentOf? file = some id ∧
        Measure.isFinite (Measure.ofNat (linesAt fs file.id) : μ) = true ∧ n.kind ≠ fileKind ∧
        m = (sharing (linesAt fs file.id)).apply n := by
  rw [Write.onto.eq_def] at hm
  cases hw with
  | @seen o ho _ _ hfresh =>
    dsimp only at hm
    split at hm
    · next hid =>
      subst hid
      cases hm
      refine .inl ⟨(ho.congr h hn).1, ?_, fun habsorb => ?_⟩
      · rw [Option.elim_some, Node.absorb, hfresh.metrics]
        rfl
      · rcases Node.hasTag_absorb.1 habsorb with hold | hnew
        · exact hold
        · rw [hfresh.unmeasured] at hnew
          cases hnew
    · cases hm
      exact .inl ⟨rfl, rfl, fun htag => htag⟩
  | @note target p hp =>
    dsimp only at hm
    split at hm
    · cases hm
      refine .inl ⟨p.kind_apply n, ?_, fun happly => ?_⟩
      · rw [Patch.apply, hp.sums, hp.metrics]
        rfl
      · rcases Patch.hasTag_apply.1 happly with hold | hnew
        · exact hold
        · rw [hp.unmeasured] at hnew
          cases hnew
    · cases hm
      exact .inl ⟨rfl, rfl, fun htag => htag⟩
  | @measure c file hc hfile =>
    dsimp only at hm
    split at hm
    · next hid =>
      subst hid
      cases hm
      refine .inr (.inl ⟨c, hc, file, hfile, rfl, ?_, rfl⟩)
      exact ((hs.placed file.id file hfile.stored).congr h hn).1.symm.trans hfile.kind
    · cases hm
      exact .inl ⟨rfl, rfl, fun htag => htag⟩
  | @share c file p hc hfile hparent hfinite =>
    dsimp only at hm
    split at hm
    · next hid =>
      subst hid
      cases hm
      refine .inr (.inr ⟨c, hc, file, hfile, hparent, hfinite, ?_, rfl⟩)
      exact (hs.placed file.id file hfile.stored).kind_container h hparent hn
    · cases hm
      exact .inl ⟨rfl, rfl, fun htag => htag⟩

/-- Only what was seen comes into being. -/
theorem Asks.fresh_of_onto_none {w : Write μ} (hw : Asks fs excludes root tree s results w)
    {id : String} {m : Node μ} (hm : w.onto id none = some m) : Fresh m := by
  cases hw with
  | @seen o _ _ _ hfresh =>
    rw [Write.onto] at hm
    split at hm
    · cases hm
      exact hfresh
    · cases hm
  | note | measure | share =>
    rw [Write.onto, Option.map_none, ite_self] at hm
    cases hm

/-- **Writing keeps a store charted.** -/
theorem Charted.written (h : Readable fs excludes root tree) (hs : Charted fs excludes root tree s)
    (hexcludes : ∀ name, settings.excludes name = false → excludes name = false)
    (hreports : ∀ c ∈ results, Reports fs settings excludes root tree s c) :
    Charted fs excludes root tree (Commit.written s results) := by
  have hviewed : ∀ id m, Commit.viewed s results id = some m → Placed fs excludes root tree id m ∧
      ∀ p, parentOf? m = some p → s.contains p = true := by
    intro id
    refine Commit.viewed_induction (fun o => ∀ m, o = some m → Placed fs excludes root tree id m ∧
      ∀ p, parentOf? m = some p → s.contains p = true) ?_ ?_
    · exact fun m hm => ⟨hs.placed id m hm, fun p => hs.parents id m p hm⟩
    · intro w hw o ho
      exact (asks_of_mem_writes h hs hexcludes hreports hw).placed_onto h ho
  have hwritten : ∀ id m, (Commit.written s results).node? id = some m →
      Placed fs excludes root tree id m ∧ ∀ p, parentOf? m = some p → s.contains p = true := by
    intro id m hm
    rcases Commit.node?_written_cases hs.keyed results id with hw | hw
    · exact hviewed id m (hw.symm.trans hm)
    · rw [hw] at hm
      obtain ⟨n, hn, rfl⟩ := Option.map_eq_some_iff.1 hm
      obtain ⟨⟨l, item, hl, hid, hkind, hplace⟩, hstored⟩ := hviewed id n hn
      rw [parentOf?_stored]
      exact ⟨⟨l, item, hl, hid, hkind, (parentOf?_stored n).trans hplace⟩, hstored⟩
  refine ⟨hs.keyed.mergeNodes _, fun id m hm => (hwritten id m hm).1, fun id m p hm hp => ?_⟩
  exact Commit.contains_written_of_contains hs.keyed results ((hwritten id m hm).2 p hp)

/-! ## 5. What is written by passes and by seeding -/

/-- **What a pass writes into a store of resources.** -/
theorem Charted.reports_of_finishing (h : Readable fs excludes root tree)
    (hs : Charted fs excludes root tree s)
    (hexcludes : ∀ name, settings.excludes name = false → excludes name = false)
    {active : List (Run.Active Context μ)} (hactive : ∀ x ∈ active, x.analyzer ∈ roster.analyzers)
    {c : Completion μ} (hc : c ∈ Run.finishing active { settings, files := fs } s) :
    Reports fs settings excludes root tree s c := by
  obtain ⟨n, hn, hnode, hfinds⟩ := finds_of_finishing hactive hs.keyed hc
  have hopen : s.ledger.contains c.pair = false :=
    Run.not_contains_of_finishing hs.keyed (List.mem_map_of_mem hc)
  have hplaced := hs.placed n.id n hn
  generalize hname : c.pair.analyzer = name at hfinds
  generalize hfindings : c.findings = f at hfinds
  have hpair : c.pair = ⟨name, n.id⟩ := by rw [← hname, ← hnode]
  cases hfinds with
  | failed ha message hchildren =>
    refine .noted (by rw [hfindings]; rfl) (by rw [hfindings]; rfl) ?_ ?_
    · intro id p hp
      rw [hfindings] at hp
      exact notes_failure hp
    · intro l item hl hcollector name l' item' hinside
      rw [hpair] at hcollector
      obtain ⟨e, he⟩ := hchildren (congrArg Pair.analyzer hcollector)
      have hid : n.id = l.uri := congrArg Pair.node hcollector
      have hkind : n.kind = resourceKind l item := by
        obtain ⟨l₁, item₁, hl₁, huri, hkind, -⟩ := hplaced
        cases h.eq_of_uri hl hl₁ (hid.symm.trans huri)
        exact hkind.trans (h.resourceKind_congr hl₁ hl)
      rcases h.childrenOf_cases settings hl hid hkind
        (hkind ▸ hinside.resourceKind_ne) with ⟨found, hfound, -⟩ | ⟨-, hnone⟩
      · rw [he] at hfound
        cases hfound
      · exact hnone name l' item' hinside
  | collected hkind hfound =>
    obtain ⟨l, item₁, hl₁, hid, hkind₁, -⟩ := hplaced
    refine .unfolded (Store.contains_iff.2 ⟨n, hid ▸ hn⟩) ⟨item₁, hl₁⟩ (hid ▸ hpair) fun item hl => ?_
    rcases h.childrenOf_cases settings hl hid (hkind₁.trans (h.resourceKind_congr hl₁ hl)) hkind with
      ⟨found, hfound', hmem⟩ | ⟨⟨e, he⟩, -⟩
    · cases hfound.symm.trans hfound'
      rw [hfindings]
      exact h.unfolds hl hid hexcludes hmem
    · cases hfound.symm.trans he
  | sniffed htag =>
    refine .noted (by rw [hfindings]; rfl) (by rw [hfindings]; rfl) ?_ ?_
    · intro id p hp
      rw [hfindings] at hp
      refine notes_tag ?_ hp
      rcases htag with rfl | rfl <;> decide
    · intro l item _ hcollector
      rw [hpair] at hcollector
      exact absurd (congrArg Pair.analyzer hcollector) (by simp [sniffer, collectorName])
  | @counted content hkind hread =>
    have hlines : linesAt fs n.id = countLines content := by
      have hread' : Context.locate n.id >>= Resolver.standard.read fs = .ok content := hread
      unfold linesAt
      rw [hread']
    exact .counted ⟨hn, hkind, hpair, hopen, hlines ▸ hfindings⟩

/-- Seeding as a result that is written. -/
def seeding (root : Location) (d : Description) : Completion μ :=
  ⟨0, ⟨"", root.uri⟩, .ran, Findings.observe {} (resourceNode root d), none⟩

/-- **Seeding is a commit of one observation**, if what is stored can be read back. -/
theorem Workspace.seed_of_describe {context : Context} {root : Location} {d : Description} {s : Store μ}
    (hlegible : s.Legible) (hd : context.describe root = .ok d) :
    ∃ n, Workspace.seed context s root = .ok (n, Commit.written s [seeding root d]) := by
  refine ⟨(s.node? (resourceNode root d : Node μ).id).elim (resourceNode root d)
    (·.absorb (resourceNode root d)), ?_⟩
  have hstanding : Commit.standing s ({} : Commit.Staging μ) (resourceNode root d : Node μ).id =
      s.node? (resourceNode root d : Node μ).id := rfl
  have hfold : (Commit.folded s [seeding root d]) =
      Commit.foldObserved s {} (resourceNode root d) := by
    rw [Commit.folded, List.mergeSort_singleton]
    rfl
  unfold Workspace.seed Commit.written
  simp only [hd, bind, Except.bind, hfold, Commit.foldObserved, hstanding]
  cases hknown : s.node? (resourceNode root d : Node μ).id with
  | none => rfl
  | some known =>
    have hread : Node.refused? [known] = none := by
      simpa [Node.refused?_eq_none_iff] using Store.legible_iff.mp hlegible _ known hknown
    simp only [hread]
    rfl

/-- The target of an analysis can be described, so it is seeded. -/
theorem Workspace.seed_eq (h : Readable fs excludes root tree) (settings : Settings) {s : Store μ}
    (hlegible : s.Legible) :
    ∃ n d, kindOf root d = resourceKind root tree ∧
      Workspace.seed { settings, files := fs } s root =
        .ok (n, Commit.written s [seeding root d]) := by
  obtain ⟨d, hd, hkind⟩ := h.describe .root
  have hdescribe : Context.describe { settings, files := fs } root = .ok d := hd
  obtain ⟨n, hseed⟩ := Workspace.seed_of_describe hlegible hdescribe
  exact ⟨n, d, hkind, hseed⟩

/-- A pass keeps a store charted. -/
theorem Charted.advance (h : Readable fs excludes root tree) (hs : Charted fs excludes root tree s)
    (hexcludes : ∀ name, settings.excludes name = false → excludes name = false)
    {active : List (Run.Active Context μ)} (hactive : ∀ x ∈ active, x.analyzer ∈ roster.analyzers)
    (number : Nat) :
    Charted fs excludes root tree (Run.advance active { settings, files := fs } number s) :=
  (hs.written h hexcludes fun _ hc => hs.reports_of_finishing h hexcludes hactive hc).of_nodes
    (Commit.keyed_committed hs.keyed _ number) (Commit.node?_committed s _ number)

theorem Charted.after (h : Readable fs excludes root tree) (hs : Charted fs excludes root tree s)
    (hexcludes : ∀ name, settings.excludes name = false → excludes name = false)
    {active : List (Run.Active Context μ)} (hactive : ∀ x ∈ active, x.analyzer ∈ roster.analyzers)
    (k : Nat) : Charted fs excludes root tree (Run.after active { settings, files := fs } s k) := by
  induction k with
  | zero => exact hs
  | succ k ih => exact ih.advance h hexcludes hactive (k + 1)

/-- Seeding counts no lines. -/
theorem not_countsLines_seeding {d : Description} {n : Node μ} :
    ¬ CountsLines fs s (seeding root d) n :=
  fun hn => absurd (congrArg Pair.analyzer hn.pair) (by simp [seeding, lineCounter])

/-- What seeding writes. -/
theorem reports_seeding {d : Description} (hkind : kindOf root d = resourceKind root tree) :
    ∀ c ∈ [seeding (μ := μ) root d], Reports fs settings excludes root tree s c := by
  intro c hc
  cases List.mem_singleton.1 hc
  exact .seeded hkind rfl rfl

theorem Charted.seed (h : Readable fs excludes root tree) (hs : Charted fs excludes root tree s)
    (hexcludes : ∀ name, settings.excludes name = false → excludes name = false) {d : Description}
    (hkind : kindOf root d = resourceKind root tree) :
    Charted fs excludes root tree (Commit.written s [seeding root d]) :=
  hs.written h hexcludes (reports_seeding hkind)

end Writing

end Charts

/-! ## 6. Analyses -/

section Analyses

variable {μ : Type} [Measure μ] {fs : FileSystem} {excludes : String → Bool} {tree : Item}
  {settings : Settings} {w : Workspace μ} {target : Option String} {s : Store μ}

theorem Settings.eq_of_validate {checked : Settings} (h : settings.validate = .ok checked) :
    checked = settings := by
  unfold Settings.validate at h
  split_ifs at h
  exact (Except.ok.inj h).symm

theorem Builtin.nodup_names_active (context : Context) (limits : Limits) :
    ((Run.active (roster (μ := μ)) context limits).map (·.analyzer.name)).Nodup := by
  refine Run.nodup_active_names ?_
  simp [Roster.names, roster, collector, sniffer, lineCounter, collectorName]

/-- Seeding leaves a legible store. -/
theorem Workspace.legible_seed {context : Context} {root : Location} {n : Node μ} {seeded : Store μ}
    (hs : s.Keyed) (hlegible : s.Legible) (h : Workspace.seed context s root = .ok (n, seeded)) :
    seeded.Keyed ∧ seeded.Legible := by
  cases hd : context.describe root with
  | error e =>
    simp only [Workspace.seed, hd, bind, Except.bind] at h
    cases h
  | ok d =>
    obtain ⟨m, hseed⟩ := Workspace.seed_of_describe (μ := μ) hlegible hd
    rw [hseed] at h
    cases h
    have hseen : ∀ c ∈ [seeding (μ := μ) root d], c.findings.Legible := by
      intro c hc
      rw [List.mem_singleton.mp hc]
      exact Findings.legible_empty.observe (legible_resourceNode root d)
    exact ⟨hs.mergeNodes _, Commit.legible_written hs hlegible hseen⟩

/-- **Analyses by the built-in analyzers leave legible stores**, whether they answer or fail. -/
theorem Workspace.legible_analyzeWith (hw : w.roster = Builtin.roster) (hs : s.Keyed)
    (hlegible : s.Legible) (fs : FileSystem) (target : Option String) (settings : Settings)
    (cancelled : Bool) (stop : Nat → Bool) :
    (w.analyzeWith fs s target settings cancelled stop).2.Keyed ∧
      (w.analyzeWith fs s target settings cancelled stop).2.Legible := by
  unfold Workspace.analyzeWith
  cases settings.validate with
  | error e => exact ⟨hs, hlegible⟩
  | ok settings =>
    dsimp only
    cases hseed : Workspace.seed { settings, files := fs } s (w.targetLocation target) with
    | error e => exact ⟨hs, hlegible⟩
    | ok seeded =>
      obtain ⟨hkeyed, hseeded⟩ := Workspace.legible_seed hs hlegible hseed
      exact legible_run w.roster { settings, files := fs } settings.limits stop
        (σ := { store := seeded.2, faults := Session.Faults.readBack, cancelled }) hkeyed hseeded
        (hw ▸ legible_roster _)

/-- **An analysis of a readable tree answers**: it seeds the store, and then it runs. -/
theorem Readable.exists_analyzeWith (hw : w.roster = roster)
    (h : Readable fs excludes (w.targetLocation target) tree) (hs : s.Keyed) (hlegible : s.Legible)
    (hvalid : settings.validate = .ok settings) (cancelled : Bool) (stop : Nat → Bool) :
    ∃ n d report final, kindOf (w.targetLocation target) d = resourceKind (w.targetLocation target) tree ∧
      Workspace.seed { settings, files := fs } s (w.targetLocation target) =
        .ok (n, Commit.written s [seeding (w.targetLocation target) d]) ∧
      Session.Returns (run w.roster { settings, files := fs } settings.limits stop)
        { store := Commit.written s [seeding (w.targetLocation target) d]
          faults := Session.Faults.readBack
          cancelled } report final ∧
      w.analyzeWith fs s target settings cancelled stop = (.ok report, final.store) := by
  obtain ⟨n, d, hkind, hseed⟩ := Workspace.seed_eq h settings hlegible
  obtain ⟨hkeyed, hseeded⟩ := Workspace.legible_seed hs hlegible hseed
  let σ : Session.State μ :=
    { store := Commit.written s [seeding (w.targetLocation target) d]
      faults := Session.Faults.readBack
      cancelled }
  obtain ⟨report, final, hrun⟩ := exists_returns_of_legible w.roster { settings, files := fs }
    settings.limits stop (σ := σ) hkeyed rfl hseeded (hw ▸ legible_roster _)
  refine ⟨n, d, report, final, hkind, hseed, hrun, ?_⟩
  have hanswer : (run w.roster { settings, files := fs } settings.limits stop).run σ =
      (.ok report, final) := hrun
  simp only [Workspace.analyzeWith, hvalid, hseed]
  rw [hanswer]

/-- A workspace at the top of the shelf, with the default settings. -/
def mixedWorkspace : Workspace Float := ⟨"/", {}, "/.nereus/graph.db", roster⟩

end Analyses

end FactGraph
