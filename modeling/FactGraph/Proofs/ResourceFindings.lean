import FactGraph.Proofs.Legibility
import FactGraph.Proofs.ResourceTrees

/-!
# What the built-in analyzers find

Each of the three built-in analyzers ends in one of two ways: it fails, and then it only says so, or it
finds what it is there for (`Builtin.Finds`, `Builtin.finds_of_finishing`).  In a readable tree both can
be said in terms of the tree.

* The collector observes what lies inside a resource, apart from excluded names, with an edge to each
  (`Unfolds`, `Readable.unfolds`).
* The line counter measures a file and gives the count to the container, once
  (`Builtin.get?_lineFindings`).
-/

namespace FactGraph

open FileSystem (Item)

/-! ## 1. Endings -/

namespace Builtin

variable {μ : Type}

/-- The number of lines of what a URI stands for. -/
def linesAt (fs : FileSystem) (id : String) : Nat :=
  match Context.locate id >>= Resolver.standard.read fs with
  | .ok content => countLines content
  | .error _ => 0

theorem conclude_of_completion {γ : Type} {context : γ} {t : Run.Task γ μ} {c : Completion μ}
    (hsupports : t.active.analyzer.supports t.node = .ok true)
    (h : (Run.evaluate context t).completion? = some c) :
    c = t.conclude (t.active.analyzer.inspect context t.node) := by
  simp only [Run.evaluate, hsupports] at h
  split at h
  · cases h
  · exact (Option.some.inj h).symm

theorem findings_conclude_done {γ : Type} {t : Run.Task γ μ} {f : Findings μ} {cancels : Bool} :
    (t.conclude ⟨f, .done, cancels⟩).findings = f := by
  unfold Run.Task.conclude
  dsimp only
  split <;> rfl

section Endings

variable [Measure μ]

/-- What a pair of a built-in analyzer and a node finds in the end. -/
inductive Finds (context : Context) (n : Node μ) : String → Findings μ → Prop
  | failed {a : Analyzer Context μ} (ha : a ∈ roster.analyzers) (message : String)
      (hchildren : a.name = collectorName → ∃ e, childrenOf context n = .error e) :
      Finds context n a.name (Findings.failure a.name n.id message)
  | collected {found : List Location} (hkind : n.kind ≠ fileKind)
      (hfound : childrenOf context n = .ok found) :
      Finds context n collectorName (found.foldl (collectChild context collectorName n) {})
  | sniffed {tag : String} (htag : tag = textTag ∨ tag = binaryTag) :
      Finds context n (sniffer (μ := μ)).name (Findings.tag {} n.id tag)
  | counted {content : Bytes} (hkind : n.kind = fileKind)
      (hread : Context.locate n.id >>= context.read = .ok content) :
      Finds context n (lineCounter (μ := μ)).name (lineFindings n (countLines content))

theorem finds_collector {context : Context} {t : Run.Task Context μ}
    (ha : t.active.analyzer = collector) (hkind : t.node.kind ≠ fileKind) :
    Finds context t.node t.active.analyzer.name
      (t.conclude (t.active.analyzer.inspect context t.node)).findings := by
  cases hfound : childrenOf context t.node with
  | error message =>
    have hinspect : t.active.analyzer.inspect context t.node = ⟨{}, .failed message, false⟩ := by
      simp only [ha, collector, hfound]
    rw [hinspect]
    exact .failed (ha ▸ by simp [roster]) message fun _ => ⟨message, hfound⟩
  | ok found =>
    have hinspect : t.active.analyzer.inspect context t.node =
        ⟨found.foldl (collectChild context collectorName t.node) {}, .done, false⟩ := by
      simp only [ha, collector, hfound]
    rw [hinspect, findings_conclude_done, ha]
    exact .collected hkind hfound

theorem finds_sniffer {context : Context} {t : Run.Task Context μ}
    (ha : t.active.analyzer = sniffer) :
    Finds context t.node t.active.analyzer.name
      (t.conclude (t.active.analyzer.inspect context t.node)).findings := by
  cases hhead : headOf context t.node with
  | error e =>
    have hinspect : t.active.analyzer.inspect context t.node = ⟨{}, .failed e.message, false⟩ := by
      simp only [ha, sniffer, hhead]
    rw [hinspect]
    refine .failed (ha ▸ by simp [roster]) e.message fun hname => ?_
    simp [ha, sniffer, collectorName] at hname
  | ok head =>
    have hinspect : t.active.analyzer.inspect context t.node =
        ⟨Findings.tag {} t.node.id (if looksLikeText head then textTag else binaryTag), .done, false⟩ := by
      simp only [ha, sniffer, hhead]
    rw [hinspect, findings_conclude_done, ha]
    refine .sniffed ?_
    split
    · exact .inl rfl
    · exact .inr rfl

theorem finds_lineCounter {context : Context} {t : Run.Task Context μ}
    (ha : t.active.analyzer = lineCounter) (hkind : t.node.kind = fileKind) :
    Finds context t.node t.active.analyzer.name
      (t.conclude (t.active.analyzer.inspect context t.node)).findings := by
  cases hread : Context.locate t.node.id >>= context.read with
  | error e =>
    have hinspect : t.active.analyzer.inspect context t.node = ⟨{}, .failed e.message, false⟩ := by
      simp only [ha, lineCounter, hread]
    rw [hinspect]
    refine .failed (ha ▸ by simp [roster]) e.message fun hname => ?_
    simp [ha, lineCounter, collectorName] at hname
  | ok content =>
    have hinspect : t.active.analyzer.inspect context t.node =
        ⟨lineFindings t.node (countLines content), .done, false⟩ := by
      simp only [ha, lineCounter, hread]
    rw [hinspect, findings_conclude_done, ha]
    exact .counted hkind hread

/-- **How a pair of a built-in analyzer ends.** -/
theorem finds_of_finishing {active : List (Run.Active Context μ)} {context : Context} {s : Store μ}
    (hactive : ∀ x ∈ active, x.analyzer ∈ roster.analyzers) (hs : s.Keyed) {c : Completion μ}
    (hc : c ∈ Run.finishing active context s) :
    ∃ n, s.node? n.id = some n ∧ c.pair.node = n.id ∧ Finds context n c.pair.analyzer c.findings := by
  obtain ⟨t, ht, he⟩ := Run.mem_completions.1 hc
  obtain ⟨hmem, hnode, htargets, -⟩ := (Run.mem_agenda hs).1 ht
  refine ⟨t.node, hnode, congrArg Pair.node (Run.pair_of_completion he), ?_⟩
  rw [Run.pair_of_completion he]
  have hanalyzer : t.active.analyzer = collector ∨ t.active.analyzer = sniffer ∨
      t.active.analyzer = lineCounter := by simpa [roster] using hactive t.active hmem
  -- none of them is ever put off by its own test
  have hsupports : t.active.analyzer.supports t.node = .ok true := by
    rcases hanalyzer with h | h | h <;> rw [h] <;> rfl
  rw [conclude_of_completion hsupports he]
  rcases hanalyzer with h | h | h
  · refine finds_collector h fun hkind => ?_
    simp [h, hkind, Analyzer.targetsKind, collector, fileKind, directoryKind, archiveKind] at htargets
  · exact finds_sniffer h
  · refine finds_lineCounter h ?_
    rw [h] at htargets
    simpa [Analyzer.targetsKind, lineCounter] using htargets

end Endings

/-! ## 2. Resource nodes -/

/-- Nothing has been measured on a node, and nothing added up. -/
structure Fresh (n : Node μ) : Prop where
  metrics : n.metrics = ∅
  uncounted : n.properties.get? (Patch.counter linesKey) = none
  unmeasured : n.hasTag measuredTag = false

theorem id_resourceNode (l : Location) (d : Description) :
    (resourceNode l d : Node μ).id = l.uri ∧ (resourceNode l d : Node μ).kind = kindOf l d := by
  unfold resourceNode
  cases d.contentType <;> cases d.modified <;> exact ⟨rfl, rfl⟩

theorem get?_properties_resourceNode (l : Location) (d : Description) {key : String}
    (hkey : key ∉ ["name", "size", "content_type", "modified"]) :
    (resourceNode l d : Node μ).properties.get? key = none := by
  simp only [List.mem_cons, List.not_mem_nil, or_false, not_or] at hkey
  obtain ⟨hname, hsize, htype, hmodified⟩ := hkey
  unfold resourceNode
  cases d.contentType <;> cases d.modified <;>
    simp [Node.property, Node.tag, Node.new, Table.get?_insert_of_ne, hname, hsize, htype, hmodified] <;> rfl

theorem fresh_resourceNode (l : Location) (d : Description) : Fresh (resourceNode l d : Node μ) where
  metrics := by
    unfold resourceNode
    cases d.contentType <;> cases d.modified <;> rfl
  uncounted := get?_properties_resourceNode l d (by decide)
  unmeasured := by
    unfold resourceNode
    cases d.contentType <;> cases d.modified <;> rfl

/-- All that is known about a resource can be read back. -/
theorem legible_resourceNode (l : Location) (d : Description) :
    (resourceNode l d : Node μ).legible = true := by
  have htext : ∀ (n : Node μ) (key text : String), n.legible = true →
      (n.property key (.str text)).legible = true :=
    fun n key text hn => Node.legible_property hn key Value.nestingLimit_pos
  have hnew : ({ Node.new l.uri (kindOf l d) with label := l.fileName } : Node μ).legible = true :=
    (Node.legible_iff _).mpr Properties.legible_empty
  have hsized := Node.legible_property (htext _ "name" l.fileName hnew) "size" (v := .int d.size)
    Value.nestingLimit_pos
  unfold resourceNode
  cases d.contentType <;> cases d.modified
  · exact hsized
  · exact htext _ _ _ hsized
  · exact htext _ _ _ hsized
  · exact htext _ _ _ (htext _ _ _ hsized)

theorem parentOf?_resourceNode (l : Location) (d : Description) :
    parentOf? (resourceNode l d : Node μ) = none := by
  rw [parentOf?, get?_properties_resourceNode l d (by decide)]
  rfl

/-! ## 3. The collector -/

section Collector

variable {context : Context} {name : String} {n : Node μ} {f : Findings μ} {child : Location}

/-- The node of a child. -/
def childNode (n : Node μ) (child : Location) (d : Description) : Node μ :=
  (resourceNode child d).property parentKey (.str n.id)

theorem collectChild_of_excluded (h : context.settings.excludes child.fileName = true) :
    collectChild context name n f child = f := by
  rw [collectChild, if_pos h]

theorem collectChild_of_describe (h : context.settings.excludes child.fileName = false)
    {d : Description} (hd : context.describe child = .ok d) :
    collectChild context name n f child =
      (f.edge ⟨n.id, child.uri, "contains", none⟩).observe (childNode n child d) := by
  have hid : (childNode n child d).id = child.uri := (id_resourceNode child d).1
  rw [← hid]
  simp only [collectChild, h, hd, childNode, Bool.false_eq_true, if_false]

/-- A child that is not excluded is collected with its node and an edge. -/
def Collected (context : Context) (n : Node μ) (found : List Location) (o : Node μ) (e : Edge) : Prop :=
  ∃ child ∈ found, context.settings.excludes child.fileName = false ∧
    ∃ d, context.describe child = .ok d ∧ o = childNode n child d ∧
      e = ⟨n.id, child.uri, "contains", none⟩

/-- If all children can be described, the collector notes each of them, and nothing else. -/
theorem foldl_collectChild {found : List Location}
    (hd : ∀ child ∈ found, context.settings.excludes child.fileName = false →
      ∃ d, context.describe child = .ok d) (f : Findings μ) :
    (found.foldl (collectChild context name n) f).patches = f.patches ∧
      (∀ o, o ∈ (found.foldl (collectChild context name n) f).observed ↔
        o ∈ f.observed ∨ ∃ e, Collected context n found o e) ∧
      ∀ e, e ∈ (found.foldl (collectChild context name n) f).edges ↔
        e ∈ f.edges ∨ ∃ o, Collected context n found o e := by
  induction found generalizing f with
  | nil => simp [Collected]
  | cons child rest ih =>
    have hrest := ih fun c hc => hd c (List.mem_cons_of_mem _ hc)
    rw [List.foldl_cons]
    cases hexcluded : context.settings.excludes child.fileName with
    | true =>
      have hskip : ∀ o e, Collected context n (child :: rest) o e ↔ Collected context n rest o e := by
        intro o e
        simp [Collected, hexcluded]
      rw [collectChild_of_excluded hexcluded]
      simpa only [hskip] using hrest f
    | false =>
      obtain ⟨d, hdescribe⟩ := hd child List.mem_cons_self hexcluded
      have hnext : ∀ o e, Collected context n (child :: rest) o e ↔
          (o = childNode n child d ∧ e = ⟨n.id, child.uri, "contains", none⟩) ∨
            Collected context n rest o e := by
        intro o e
        simp [Collected, hexcluded, hdescribe]
      rw [collectChild_of_describe hexcluded hdescribe]
      obtain ⟨hpatches, hobserved, hedges⟩ := hrest
        ((f.edge ⟨n.id, child.uri, "contains", none⟩).observe (childNode n child d))
      refine ⟨hpatches, fun o => ?_, fun e => ?_⟩
      · rw [hobserved]
        simp [hnext, Findings.observe, Findings.edge, exists_or, or_assoc]
      · rw [hedges]
        simp [hnext, Findings.observe, Findings.edge, exists_or, or_assoc]

theorem legible_collected (found : List Location) {f : Findings μ} (h : f.Legible) :
    (found.foldl (collectChild context name n) f).Legible := by
  induction found generalizing f with
  | nil => exact h
  | cons child rest ih =>
    refine ih ?_
    unfold collectChild
    split_ifs
    · exact h
    · cases context.describe child with
      | error e => exact h.error _ _ _
      | ok d =>
        exact (h.edge _).observe
          (Node.legible_property (legible_resourceNode child d) parentKey Value.nestingLimit_pos)

end Collector

/-! ## 4. Patches -/

/-- A patch only notes something: it neither measures nor adds up, and it moves nothing to another
container. -/
structure Notes (p : Patch μ) : Prop where
  metrics : p.metrics = ∅
  sums : p.sums = ∅
  homeless : p.properties.get? parentKey = none
  uncounted : p.properties.get? (Patch.counter linesKey) = none
  unmeasured : p.tags.contains measuredTag = false

/-- The keys of errors are like no other key. -/
theorem errorKey_ne {analyzer key : String} (h : key.toList.head? ≠ some 'e') :
    key ≠ Findings.errorKey analyzer := by
  rintro rfl
  exact h (by simp [Findings.errorKey, Findings.errorTag])

theorem notes_failure {analyzer node message id : String} {p : Patch μ}
    (h : (Findings.failure analyzer node message : Findings μ).patches.get? id = some p) : Notes p := by
  have hparent : parentKey ≠ Findings.errorKey analyzer := errorKey_ne (by decide)
  have hcount : Patch.counter linesKey ≠ Findings.errorKey analyzer := errorKey_ne (by decide)
  have htag : measuredTag ≠ Findings.errorKey analyzer := errorKey_ne (by decide)
  have hother : measuredTag ≠ Findings.errorTag := by decide
  rw [Findings.failure, Findings.error, Findings.patch, Table.get?_modify] at h
  split at h
  · cases h
    refine ⟨rfl, rfl, ?_, ?_, Bool.eq_false_iff.2 fun hmem => ?_⟩
    · exact Table.get?_insert_of_ne _ _ hparent
    · exact Table.get?_insert_of_ne _ _ hcount
    · rw [KeySet.contains_add, KeySet.contains_add] at hmem
      rcases hmem with hmem | hmem | hmem
      · exact htag hmem
      · exact hother hmem
      · cases hmem
  · cases h

theorem notes_tag {node tag id : String} {p : Patch μ} (htag : tag ≠ measuredTag)
    (h : (Findings.tag {} node tag : Findings μ).patches.get? id = some p) : Notes p := by
  rw [Findings.tag, Findings.patch, Table.get?_modify] at h
  split at h
  · cases h
    refine ⟨rfl, rfl, rfl, rfl, Bool.eq_false_iff.2 fun hmem => ?_⟩
    rw [KeySet.contains_add] at hmem
    rcases hmem with hmem | hmem
    · exact htag hmem.symm
    · cases hmem
  · cases h

variable [Measure μ]

/-- What a file with a given number of lines gets: a number that cannot be represented is left out. -/
def measuring (lines : Nat) : Patch μ :=
  { tags := KeySet.add ∅ measuredTag
    metrics :=
      if Measure.isFinite (Measure.ofNat lines : μ) then
        Table.insert ∅ linesKey (Measure.ofNat lines)
      else ∅ }

/-- What the container of a file with a given number of lines gets. -/
def sharing (lines : Nat) : Patch μ :=
  { sums := Table.insert ∅ linesKey (Tally.none.add (Measure.ofNat lines)) }

theorem quiet_lineFindings (n : Node μ) (lines : Nat) :
    (lineFindings n lines).observed = [] ∧ (lineFindings n lines).edges = [] := by
  cases hparent : parentOf? n <;>
    cases hfinite : Measure.isFinite (Measure.ofNat lines : μ) <;>
    simp [lineFindings, hparent, hfinite, Findings.metric, Findings.sum, Findings.tag, Findings.patch]

/-- **A count goes to the file and to its container**, and to the container only if it can be
represented. -/
theorem get?_lineFindings {n : Node μ} (lines : Nat) (hparent : parentOf? n ≠ some n.id) (id : String) :
    (lineFindings n lines).patches.get? id =
      if parentOf? n = some id ∧ Measure.isFinite (Measure.ofNat lines : μ) = true then
        some (sharing lines)
      else if id = n.id then some (measuring lines) else none := by
  have hown : ∀ id, ((Findings.metric {} n.id linesKey (Measure.ofNat lines : μ)).tag n.id
      measuredTag).patches.get? id = if id = n.id then some (measuring lines) else none := by
    intro id
    cases hfinite : Measure.isFinite (Measure.ofNat lines : μ) with
    | true =>
      rw [Findings.metric, if_pos hfinite, Findings.tag, Findings.patch, Table.get?_modify]
      split
      · rw [Findings.patch, Table.get?_modify, if_pos rfl, measuring, if_pos hfinite]
        rfl
      · next hne =>
        rw [Findings.patch, Table.get?_modify, if_neg hne]
        rfl
    | false =>
      rw [Findings.metric, if_neg (Bool.eq_false_iff.1 hfinite), Findings.tag, Findings.patch,
        Table.get?_modify, measuring, if_neg (Bool.eq_false_iff.1 hfinite)]
      rfl
  unfold lineFindings
  cases hcontainer : parentOf? n with
  | none => simpa using hown id
  | some parent =>
    have hne : parent ≠ n.id := fun heq => hparent (heq ▸ hcontainer)
    cases hfinite : Measure.isFinite (Measure.ofNat lines : μ) with
    | false => simpa [Findings.sum, hfinite] using hown id
    | true =>
      simp only [Findings.sum, hfinite, if_true, Option.some.injEq, and_true]
      rw [Findings.patch, Table.get?_modify]
      by_cases hid : id = parent
      · rw [if_pos hid, if_pos hid.symm, hown, if_neg hne]
        rfl
      · rw [if_neg hid, if_neg (Ne.symm hid), hown]

theorem legible_lineFindings (n : Node μ) (lines : Nat) : (lineFindings n lines).Legible := by
  have hfile := (Findings.legible_empty.metric n.id linesKey (Measure.ofNat lines : μ)).tag n.id
    measuredTag
  unfold lineFindings
  cases parentOf? n with
  | none => exact hfile
  | some parent => exact hfile.sum parent linesKey _

/-- **The built-in analyzers set nothing that cannot be read back.** -/
theorem legible_roster (context : Context) : (roster : Roster Context μ).Legible context := by
  intro a ha n _
  simp only [roster, List.mem_cons, List.not_mem_nil, or_false] at ha
  rcases ha with rfl | rfl | rfl
  · simp only [collector]
    cases childrenOf context n with
    | error message => exact Findings.legible_empty
    | ok found => exact legible_collected found Findings.legible_empty
  · simp only [sniffer]
    cases headOf context n with
    | error e => exact Findings.legible_empty
    | ok head => exact Findings.legible_empty.tag n.id _
  · simp only [lineCounter]
    cases Context.locate n.id >>= context.read with
    | error e => exact Findings.legible_empty
    | ok content => exact legible_lineFindings n _

end Builtin

open Builtin

section Tree

variable {μ : Type} {fs : FileSystem} {excludes : String → Bool} {root l : Location} {tree item : Item}
  {settings : Settings} {n : Node μ}

/-- **What the collector finds in a resource**: a fresh node and an edge for everything that lies inside
and is not excluded, and nothing else. -/
structure Unfolds (fs : FileSystem) (settings : Settings) (l : Location) (item : Item)
    (f : Findings μ) : Prop where
  patches : f.patches = ∅
  observed : ∀ o ∈ f.observed, ∃ name l' item', Inside fs l item name l' item' ∧
    settings.excludes name = false ∧ o.id = l'.uri ∧ o.kind = resourceKind l' item' ∧
    parentOf? o = some l.uri ∧ Fresh o
  edges : ∀ e ∈ f.edges, ∃ name l' item', Inside fs l item name l' item' ∧
    settings.excludes name = false ∧ e = ⟨l.uri, l'.uri, "contains", none⟩
  complete : ∀ name l' item', Inside fs l item name l' item' → settings.excludes name = false →
    (∃ o ∈ f.observed, o.id = l'.uri) ∧ ⟨l.uri, l'.uri, "contains", none⟩ ∈ f.edges

theorem Builtin.fresh_childNode (child : Location) (d : Description) :
    Fresh (childNode n child d) ∧ parentOf? (childNode n child d) = some n.id := by
  have hfresh := fresh_resourceNode (μ := μ) child d
  have hne : Patch.counter linesKey ≠ parentKey := by decide
  refine ⟨⟨hfresh.metrics, ?_, hfresh.unmeasured⟩, ?_⟩
  · exact (Table.get?_insert_of_ne _ _ hne).trans hfresh.uncounted
  · simp [childNode, parentOf?, Node.property, Value.text?]

theorem Readable.unfolds (h : Readable fs excludes root tree)
    (hl : Reachable fs excludes root tree l item) (hid : n.id = l.uri)
    (hexcludes : ∀ name, settings.excludes name = false → excludes name = false)
    {found : List Location} (hfound : ∀ l', l' ∈ found ↔ ∃ name item', Inside fs l item name l' item') :
    Unfolds fs settings l item
      (found.foldl (collectChild { settings, files := fs } collectorName n) {}) := by
  have hdescribe : ∀ {name : String} {l' : Location} {item' : Item}, Inside fs l item name l' item' →
      settings.excludes name = false → ∃ d, Resolver.standard.describe fs l' = .ok d ∧
        Builtin.kindOf l' d = resourceKind l' item' :=
    fun hinside hname => h.describe (.inside hl hinside (hexcludes _ hname))
  have hall : ∀ child ∈ found, settings.excludes child.fileName = false →
      ∃ d, Resolver.standard.describe fs child = .ok d := by
    intro child hchild hname
    obtain ⟨name, item', hinside⟩ := (hfound child).1 hchild
    rw [h.fileName_of_inside hl hinside] at hname
    obtain ⟨d, hd, -⟩ := hdescribe hinside hname
    exact ⟨d, hd⟩
  obtain ⟨hpatches, hobserved, hedges⟩ :=
    @foldl_collectChild μ { settings, files := fs } collectorName n found hall {}
  refine ⟨hpatches, fun o ho => ?_, fun e he => ?_, fun name l' item' hinside hname => ?_⟩
  · obtain ⟨e, child, hchild, hname, d, hd, rfl, -⟩ := ((hobserved o).1 ho).resolve_left List.not_mem_nil
    obtain ⟨name, item', hinside⟩ := (hfound child).1 hchild
    rw [h.fileName_of_inside hl hinside] at hname
    obtain ⟨d', hd', hkind⟩ := hdescribe hinside hname
    cases hd.symm.trans hd'
    obtain ⟨hfresh, hparent⟩ := fresh_childNode (n := n) child d
    refine ⟨name, child, item', hinside, hname, (id_resourceNode child d).1, ?_, hid ▸ hparent, hfresh⟩
    exact (id_resourceNode child d).2.trans hkind
  · obtain ⟨o, child, hchild, hname, d, hd, -, rfl⟩ := ((hedges e).1 he).resolve_left List.not_mem_nil
    obtain ⟨name, item', hinside⟩ := (hfound child).1 hchild
    rw [h.fileName_of_inside hl hinside] at hname
    exact ⟨name, child, item', hinside, hname, by rw [hid]⟩
  · obtain ⟨d, hd, -⟩ := hdescribe hinside hname
    have hcollected : Collected { settings, files := fs } n found (childNode n l' d)
        ⟨l.uri, l'.uri, "contains", none⟩ := by
      refine ⟨l', (hfound l').2 ⟨name, item', hinside⟩, ?_, d, hd, rfl, by rw [hid]⟩
      rw [h.fileName_of_inside hl hinside]
      exact hname
    refine ⟨⟨_, (hobserved _).2 (.inr ⟨_, hcollected⟩), (id_resourceNode l' d).1⟩, ?_⟩
    exact (hedges _).2 (.inr ⟨_, hcollected⟩)

end Tree

end FactGraph
