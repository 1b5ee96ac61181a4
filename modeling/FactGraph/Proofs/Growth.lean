import FactGraph.Proofs.Commits

/-!
# What is gathered stays

A commit adds tags, property keys and edges and loses none: writing over a value keeps its key, and
an edge that is there is not written again (`Commit.keptIn_committed`).  Only a metric can go, when
what it adds up to is not finite and storage does not keep it.  A commit that loses no metric
therefore makes the store GROW in everything that the fact counter counts (`Commit.grows_committed`).

Growing is what the counter can see.  It never falls (`Store.Grows.factCount_le`), and if it stands
still the store has not grown at all: the same nodes, tags, property keys, metric keys and edges
(`Store.Grows.symm_of_factCount_eq`).  Values under keys, kinds and labels are not among them.

Which tags a node gains, and when its kind may change, is said write by write
(`Commit.hasTag_committed`, `Commit.kind_committed`).  Which nodes and edges there are afterwards is
said of the whole commit (`Commit.contains_committed_iff`, `Commit.contains_edges_committed`).
-/

namespace FactGraph

variable {μ : Type}

/-! ## 1. Keeping -/

/-- A node has all tags and property keys of another. -/
structure Node.KeptIn (n n' : Node μ) : Prop where
  tags : ∀ tag, n.tags.contains tag = true → n'.tags.contains tag = true
  properties : ∀ key, n.properties.contains key = true → n'.properties.contains key = true

theorem Node.KeptIn.refl (n : Node μ) : n.KeptIn n := ⟨fun _ h => h, fun _ h => h⟩

theorem Node.KeptIn.trans {a b c : Node μ} (h : a.KeptIn b) (h' : b.KeptIn c) : a.KeptIn c :=
  ⟨fun tag ha => h'.tags tag (h.tags tag ha),
    fun key ha => h'.properties key (h.properties key ha)⟩

namespace Store

/-- **A store has all that another has gathered**, metrics apart: its nodes with their tags and
property keys, its edges as they are, and the pairs of its ledger. -/
structure KeptIn (s t : Store μ) : Prop where
  nodes : ∀ id n, s.node? id = some n → ∃ n', t.node? id = some n' ∧ n.KeptIn n'
  edges : ∀ key metadata, s.edges.get? key = some metadata → t.edges.get? key = some metadata
  ledger : ∀ pair, s.ledger.contains pair = true → t.ledger.contains pair = true

theorem KeptIn.refl (s : Store μ) : s.KeptIn s :=
  ⟨fun _ n h => ⟨n, h, Node.KeptIn.refl n⟩, fun _ _ h => h, fun _ h => h⟩

theorem KeptIn.trans {s t u : Store μ} (h : s.KeptIn t) (h' : t.KeptIn u) : s.KeptIn u where
  nodes id n hn := by
    obtain ⟨n', hn', hkept⟩ := h.nodes id n hn
    obtain ⟨n'', hn'', hkept'⟩ := h'.nodes id n' hn'
    exact ⟨n'', hn'', hkept.trans hkept'⟩
  edges key metadata hkey := h'.edges key metadata (h.edges key metadata hkey)
  ledger pair hpair := h'.ledger pair (h.ledger pair hpair)

theorem get?_addEdge (s : Store μ) (e : Edge) (key : EdgeKey) :
    (s.addEdge e).1.edges.get? key =
      (s.edges.get? key).or (if e.key = key then some (e.metadata.map Value.stored) else none) := by
  unfold addEdge
  split
  · next hthere =>
    split
    · next hkey =>
      obtain ⟨metadata, hmetadata⟩ := Table.contains_iff.mp hthere
      rw [← hkey, hmetadata, Option.some_or]
    · rw [Option.or_none]
  · next habsent =>
    split
    · next hkey =>
      have hnone := Table.contains_eq_false_iff.mp (Bool.eq_false_iff.mpr habsent)
      rw [← hkey, hnone, Option.none_or, Table.get?_insert_self]
    · next hkey => rw [Option.or_none, Table.get?_insert_of_ne _ _ (Ne.symm hkey)]

/-- **An edge that is stored stays, and of several new ones the first is stored.** -/
theorem get?_addEdges (s : Store μ) (edges : List Edge) (key : EdgeKey) :
    (s.addEdges edges).1.edges.get? key =
      (s.edges.get? key).or
        ((edges.find? fun e => e.key = key).map fun e => e.metadata.map Value.stored) := by
  induction edges generalizing s with
  | nil => simp [addEdges]
  | cons e rest ih =>
    rw [addEdges, ih, get?_addEdge, Option.or_assoc, List.find?_cons]
    by_cases hkey : e.key = key
    · simp [hkey]
    · simp [hkey]

/-- An edge that is there is left as it is. -/
theorem get?_edges_addEdges (s : Store μ) (edges : List Edge) {key : EdgeKey}
    {metadata : Option Value} (h : s.edges.get? key = some metadata) :
    (s.addEdges edges).1.edges.get? key = some metadata := by
  rw [get?_addEdges, h, Option.some_or]

/-- Adding edges adds those, and no others. -/
theorem contains_edges_addEdges (s : Store μ) (edges : List Edge) (key : EdgeKey) :
    (s.addEdges edges).1.edges.contains key = true ↔
      s.edges.contains key = true ∨ ∃ e ∈ edges, e.key = key := by
  rw [Table.contains, get?_addEdges, Option.isSome_or, Bool.or_eq_true, Option.isSome_map,
    List.find?_isSome]
  simp [Table.contains]

end Store

/-! ## 2. Growing -/

/-- A node has all that another has gathered, under the same keys. -/
structure Node.Grows (n n' : Node μ) : Prop extends n.KeptIn n' where
  metrics : ∀ key, n.metrics.contains key = true → n'.metrics.contains key = true

namespace Node.Grows

theorem refl (n : Node μ) : n.Grows n := ⟨KeptIn.refl n, fun _ h => h⟩

theorem trans {a b c : Node μ} (h : a.Grows b) (h' : b.Grows c) : a.Grows c :=
  ⟨h.toKeptIn.trans h'.toKeptIn, fun key ha => h'.metrics key (h.metrics key ha)⟩

theorem factCount_le {n n' : Node μ} (h : n.Grows n') : n.factCount ≤ n'.factCount := by
  have htags := Table.size_le_of_contains h.tags
  have hproperties := Table.size_le_of_contains h.properties
  have hmetrics := Table.size_le_of_contains h.metrics
  rw [factCount, factCount]
  omega

theorem symm_of_factCount_eq {n n' : Node μ} (h : n.Grows n') (heq : n.factCount = n'.factCount) :
    n'.Grows n := by
  have htags := Table.size_le_of_contains h.tags
  have hproperties := Table.size_le_of_contains h.properties
  have hmetrics := Table.size_le_of_contains h.metrics
  rw [factCount, factCount] at heq
  exact ⟨⟨fun _ => Table.contains_of_size_le h.tags (by omega),
    fun _ => Table.contains_of_size_le h.properties (by omega)⟩,
    fun _ => Table.contains_of_size_le h.metrics (by omega)⟩

end Node.Grows

namespace Store

/-- A store has all that another has gathered. -/
structure Grows (s t : Store μ) : Prop where
  nodes : ∀ id n, s.node? id = some n → ∃ n', t.node? id = some n' ∧ n.Grows n'
  edges : ∀ key, s.edges.contains key = true → t.edges.contains key = true

namespace Grows

theorem weight_le {s t : Store μ} (h : s.Grows t) (id : String) :
    Table.weight Node.factCount (s.nodes.get? id) ≤
      Table.weight Node.factCount (t.nodes.get? id) := by
  rw [get?_nodes, get?_nodes]
  cases hn : s.node? id with
  | none => exact Nat.zero_le _
  | some n =>
    obtain ⟨n', hn', hgrows⟩ := h.nodes id n hn
    rw [hn']
    exact hgrows.factCount_le

/-- **The fact counter does not fall.** -/
theorem factCount_le {s t : Store μ} (h : s.Grows t) (hs : s.Keyed) (ht : t.Keyed) :
    s.factCount ≤ t.factCount := by
  rw [hs.factCount_eq, ht.factCount_eq]
  exact Nat.add_le_add (Table.sum_values_le h.weight_le) (Table.size_le_of_contains h.edges)

/-- **If the fact counter stands still, nothing has grown.** -/
theorem symm_of_factCount_eq {s t : Store μ} (h : s.Grows t) (hs : s.Keyed) (ht : t.Keyed)
    (heq : s.factCount = t.factCount) : t.Grows s := by
  rw [hs.factCount_eq, ht.factCount_eq] at heq
  have hnodes : (s.nodes.values.map Node.factCount).sum ≤ (t.nodes.values.map Node.factCount).sum :=
    Table.sum_values_le h.weight_le
  have hedges : s.edges.size ≤ t.edges.size := Table.size_le_of_contains h.edges
  have hweight := Table.weight_eq_of_sum_values_eq h.weight_le (by omega)
  refine ⟨fun id n' hn' => ?_, fun key => Table.contains_of_size_le h.edges (by omega)⟩
  have hid := hweight id
  rw [get?_nodes, get?_nodes, hn', Table.weight_some] at hid
  cases hn : s.node? id with
  | none =>
    -- a node that was not there would have been counted
    rw [hn, Table.weight_none, Node.factCount] at hid
    omega
  | some n =>
    rw [hn, Table.weight_some] at hid
    obtain ⟨m, hm, hgrows⟩ := h.nodes id n hn
    rw [hn'] at hm
    cases hm
    exact ⟨n, rfl, hgrows.symm_of_factCount_eq hid⟩

end Grows

/-- No metric of a stored node is lost. -/
def KeepsMetrics (s t : Store μ) : Prop :=
  ∀ id n n', s.node? id = some n → t.node? id = some n' →
    ∀ key, n.metrics.contains key = true → n'.metrics.contains key = true

/-- What is kept grows, if no metric is lost. -/
theorem KeptIn.grows {s t : Store μ} (h : s.KeptIn t) (hmetrics : s.KeepsMetrics t) : s.Grows t where
  nodes id n hn := by
    obtain ⟨n', hn', hkept⟩ := h.nodes id n hn
    exact ⟨n', hn', hkept, hmetrics id n n' hn hn'⟩
  edges key hkey := by
    obtain ⟨metadata, hmetadata⟩ := Table.contains_iff.mp hkey
    exact Table.contains_iff.mpr ⟨metadata, h.edges key metadata hmetadata⟩

end Store

/-! ## 3. Single writes -/

theorem Node.grows_absorb (n newer : Node μ) : n.Grows (n.absorb newer) :=
  ⟨⟨fun tag h => (Table.contains_overlay _ _ tag).mpr (.inl h),
    fun key h => (Table.contains_overlay _ _ key).mpr (.inl h)⟩,
    fun key h => (Table.contains_overlay _ _ key).mpr (.inl h)⟩

section Writes

variable [Measure μ]

/-- Storage may drop metrics and nothing else. -/
theorem Node.keptIn_stored (n : Node μ) : n.KeptIn n.stored := by
  refine ⟨fun _ h => h, fun key h => ?_⟩
  rw [n.contains_properties_stored]
  exact h

theorem Patch.grows_foldl_addSum (rows : List (String × Tally μ)) (n : Node μ) :
    n.Grows (rows.foldl (fun n row => addSum n row.1 row.2) n) := by
  induction rows generalizing n with
  | nil => exact Node.Grows.refl n
  | cons row rest ih =>
    have hsum : n.Grows (addSum n row.1 row.2) :=
      ⟨⟨fun _ h => h, fun key h => (Table.contains_insert _ _ _ _).mpr (.inr h)⟩,
        fun key h => (Table.contains_insert _ _ _ _).mpr (.inr h)⟩
    exact hsum.trans (ih _)

theorem Patch.grows_apply (p : Patch μ) (n : Node μ) : n.Grows (p.apply n) := by
  refine Node.Grows.trans ?_ (grows_foldl_addSum p.sums.rows _)
  exact ⟨⟨fun tag h => (Table.contains_overlay _ _ tag).mpr (.inl h),
    fun key h => (Table.contains_overlay _ _ key).mpr (.inl h)⟩,
    fun key h => (Table.contains_overlay _ _ key).mpr (.inl h)⟩

/-- A write keeps a node and lets it grow. -/
theorem Write.grows_onto (id : String) (n : Node μ) (w : Write μ) :
    ∃ n', w.onto id (some n) = some n' ∧ n.Grows n' := by
  cases w with
  | observe seen =>
    rw [onto]
    split
    · exact ⟨_, rfl, n.grows_absorb seen⟩
    · exact ⟨n, rfl, Node.Grows.refl n⟩
  | patch target changes =>
    rw [onto]
    split
    · exact ⟨_, rfl, changes.grows_apply n⟩
    · exact ⟨n, rfl, Node.Grows.refl n⟩

/-- A write gives a node the tags it names, and no others. -/
theorem Write.hasTag_onto {id tag : String} {n n' : Node μ} {w : Write μ}
    (h : w.onto id (some n) = some n') :
    n'.hasTag tag = true ↔ n.hasTag tag = true ∨ w.Marks id tag := by
  cases w with
  | observe seen =>
    rw [onto] at h
    split at h
    · next hid =>
      cases h
      rw [Option.elim_some, Node.hasTag_absorb, Marks, and_iff_right hid]
    · next hid =>
      cases h
      rw [Marks, or_iff_left fun hmarks => hid hmarks.1]
  | patch target changes =>
    rw [onto] at h
    split at h
    · next hid =>
      cases h
      rw [Patch.hasTag_apply, Marks, and_iff_right hid]
    · next hid =>
      cases h
      rw [Marks, or_iff_left fun hmarks => hid hmarks.1]

theorem Write.hasTag_foldl_onto {id tag : String} {ws : List (Write μ)} {n n' : Node μ}
    (h : ws.foldl (Write.onto id) (some n) = some n') :
    n'.hasTag tag = true ↔ n.hasTag tag = true ∨ ∃ w ∈ ws, w.Marks id tag := by
  induction ws generalizing n with
  | nil =>
    cases h
    simp
  | cons w rest ih =>
    obtain ⟨m, hm, -⟩ := w.grows_onto id n
    rw [List.foldl_cons, hm] at h
    rw [ih h, hasTag_onto hm, List.exists_mem_cons_iff, or_assoc]

/-! ## 4. The whole commit -/

namespace Commit

variable {s : Store μ} {results : List (Completion μ)} {number : Nat} {id : String} {n n' : Node μ}

/-- A stored node is seen to grow. -/
theorem grows_viewed (results : List (Completion μ)) (h : s.node? id = some n) :
    ∃ m, viewed s results id = some m ∧ n.Grows m := by
  refine viewed_induction (fun o => ∃ m, o = some m ∧ n.Grows m) ⟨n, h, Node.Grows.refl n⟩ ?_
  rintro w - o ⟨m, rfl, hgrows⟩
  obtain ⟨m', hm', hgrows'⟩ := w.grows_onto id m
  exact ⟨m', hm', hgrows.trans hgrows'⟩

/-- A node after a commit is the one that is seen, stored or untouched. -/
theorem eq_or_eq_stored (hs : s.Keyed) {m : Node μ} (hm : viewed s results id = some m)
    (h : (committed s results number).node? id = some n') : n' = m ∨ n' = m.stored := by
  rw [node?_committed] at h
  rcases node?_written_cases hs results id with hw | hw
  · rw [hw, hm] at h
    exact .inl (Option.some.inj h).symm
  · rw [hw, hm] at h
    exact .inr (Option.some.inj h).symm

/-- Once the nodes of a commit are written, a node that was stored is kept. -/
theorem keptIn_written (hs : s.Keyed) (results : List (Completion μ)) (h : s.node? id = some n) :
    ∃ n', (written s results).node? id = some n' ∧ n.KeptIn n' := by
  obtain ⟨m, hm, hgrows⟩ := grows_viewed results h
  rcases node?_written_cases hs results id with hw | hw
  · exact ⟨m, hw.trans hm, hgrows.toKeptIn⟩
  · refine ⟨m.stored, ?_, hgrows.toKeptIn.trans m.keptIn_stored⟩
    rw [hw, hm, Option.map_some]

/-- **What is gathered is kept by a commit.** -/
theorem keptIn_committed (hs : s.Keyed) (results : List (Completion μ)) (number : Nat) :
    s.KeptIn (committed s results number) where
  nodes id n hn := by
    rw [node?_committed]
    exact keptIn_written hs results hn
  edges key metadata hkey := by
    refine Store.get?_edges_addEdges _ _ ?_
    rw [written, Store.edges_mergeNodes]
    exact hkey
  ledger pair hpair := (contains_ledger_committed s results number pair).mpr (.inr hpair)

/-- **A commit that loses no metric lets the store grow.** -/
theorem grows_committed (hs : s.Keyed) (results : List (Completion μ)) (number : Nat)
    (hmetrics : s.KeepsMetrics (committed s results number)) :
    s.Grows (committed s results number) :=
  (keptIn_committed hs results number).grows hmetrics

/-- What no patch touches is seen as it is stored, unless the node is observed. -/
theorem viewed_unchanged {β : Type} (field : Node μ → β) (h : s.node? id = some n)
    (hobs : ¬ Observes results id)
    (hpatch : ∀ target changes, Write.patch target changes ∈ writes results →
      ∀ a, field (changes.apply a) = field a) {m : Node μ} (hm : viewed s results id = some m) :
    field m = field n := by
  refine viewed_induction (fun o => ∀ m, o = some m → field m = field n) ?_ ?_ m hm
  · intro m hm
    rw [h] at hm
    cases hm
    rfl
  · intro w hw o ho m hm
    cases w with
    | observe seen =>
      have hid : seen.id ≠ id := fun hid => hobs (hid ▸ observes_of_mem_writes hw)
      rw [Write.onto, if_neg hid] at hm
      exact ho m hm
    | patch target changes =>
      rw [Write.onto] at hm
      split at hm
      · obtain ⟨a, ha, rfl⟩ := Option.map_eq_some_iff.mp hm
        rw [hpatch target changes hw]
        exact ho a ha
      · exact ho m hm

/-- A commit that touches no metric loses none. -/
theorem keepsMetrics_committed (hs : s.Keyed) (hfinite : s.FiniteMetrics)
    (hobs : ∀ id, ¬ Observes results id)
    (hpatches : ∀ c ∈ results, ∀ id p, c.findings.patches.get? id = some p →
      p.metrics = ∅ ∧ p.sums = ∅) :
    s.KeepsMetrics (committed s results number) := by
  intro id n n' hn hn' key hkey
  obtain ⟨m, hm, -⟩ := grows_viewed results hn
  have hmetrics : m.metrics = n.metrics := by
    refine viewed_unchanged Node.metrics hn (hobs id) (fun target changes hw a => ?_) hm
    obtain ⟨c, hc, hrow⟩ := exists_patch_of_mem_writes hw
    obtain ⟨hmetrics, hsums⟩ := hpatches c hc target changes hrow
    rw [Patch.apply, hmetrics, hsums]
    rfl
  rcases eq_or_eq_stored hs hm hn' with rfl | rfl
  · rw [hmetrics]
    exact hkey
  · obtain ⟨x, hx⟩ := Table.contains_iff.mp hkey
    refine Node.contains_metrics_stored (x := x) ?_ (hfinite id n hn key x hx)
    rw [hmetrics]
    exact hx

/-- **Which tags a node has after a commit**: those it had, and those that a result gives it. -/
theorem hasTag_committed (hs : s.Keyed) (h : s.node? id = some n)
    (h' : (committed s results number).node? id = some n') (tag : String) :
    n'.hasTag tag = true ↔
      n.hasTag tag = true ∨ ∃ c ∈ results, ∃ w ∈ c.writes, w.Marks id tag := by
  obtain ⟨m, hm, -⟩ := grows_viewed results h
  have hviewed := hm
  rw [viewed, h] at hviewed
  have hstored : n'.hasTag tag = m.hasTag tag := by
    rcases eq_or_eq_stored hs hm h' with rfl | rfl <;> rfl
  have hwrites : (∃ w ∈ writes results, w.Marks id tag) ↔
      ∃ c ∈ results, ∃ w ∈ c.writes, w.Marks id tag := by
    constructor
    · rintro ⟨w, hw, hmarks⟩
      obtain ⟨c, hc, hwc⟩ := mem_writes.mp hw
      exact ⟨c, hc, w, hwc, hmarks⟩
    · rintro ⟨c, hc, w, hwc, hmarks⟩
      exact ⟨w, mem_writes.mpr ⟨c, hc, hwc⟩, hmarks⟩
  rw [hstored, Write.hasTag_foldl_onto hviewed, hwrites]

/-- Only what is observed changes its kind. -/
theorem kind_committed (hs : s.Keyed) (h : s.node? id = some n)
    (h' : (committed s results number).node? id = some n') (hobs : ¬ Observes results id) :
    n'.kind = n.kind := by
  obtain ⟨m, hm, -⟩ := grows_viewed results h
  have hkind : m.kind = n.kind :=
    viewed_unchanged Node.kind h hobs (fun _ changes _ a => changes.kind_apply a) hm
  rcases eq_or_eq_stored hs hm h' with rfl | rfl
  · exact hkind
  · exact hkind

/-- Only what is observed appears. -/
theorem contains_of_committed (hs : s.Keyed) (hobs : ¬ Observes results id)
    (h : (committed s results number).contains id = true) : s.contains id = true := by
  rw [contains_committed hs] at h
  refine Classical.byContradiction fun hnot => ?_
  have habsent : s.node? id = none := by
    rw [Store.contains_eq_isSome] at hnot
    simpa using hnot
  have hnone : viewed s results id = none := by
    refine viewed_induction (fun o => o = none) habsent ?_
    rintro w hw o rfl
    cases w with
    | observe seen =>
      have hid : seen.id ≠ id := fun hid => hobs (hid ▸ observes_of_mem_writes hw)
      rw [Write.onto, if_neg hid]
    | patch target changes => rw [Write.onto, Option.map_none, ite_self]
  rw [hnone] at h
  cases h

/-- What is observed is stored. -/
theorem contains_of_observes (hs : s.Keyed) {id : String} (h : Observes results id) :
    (committed s results number).contains id = true := by
  obtain ⟨c, hc, seen, hseen, rfl⟩ := h
  have hw : Write.observe seen ∈ writes results :=
    mem_writes.mpr ⟨c, hc, List.mem_append_left _ (List.mem_map_of_mem hseen)⟩
  obtain ⟨before, after, hsplit⟩ := List.append_of_mem hw
  rw [contains_committed hs, viewed, hsplit, List.foldl_append, List.foldl_cons]
  refine Write.isSome_foldl_onto ?_
  rw [Write.onto, if_pos rfl]
  rfl

theorem contains_committed_iff (hs : s.Keyed) {id : String} :
    (committed s results number).contains id = true ↔ s.contains id = true ∨ Observes results id := by
  constructor
  · intro hafter
    by_cases hobs : Observes results id
    · exact .inr hobs
    · exact .inl (contains_of_committed hs hobs hafter)
  · rintro (hbefore | hobs)
    · rw [contains_committed hs]
      exact isSome_viewed results hbefore
    · exact contains_of_observes hs hobs

/-- Edges are judged when all nodes are written, and no node comes or goes after that. -/
theorem holdsEnds_committed (s : Store μ) (results : List (Completion μ)) (number : Nat) :
    (committed s results number).holdsEnds = (written s results).holdsEnds := by
  funext e
  exact congrArg₂ (· && ·) (Store.contains_addEdges (written s results) _ e.source)
    (Store.contains_addEdges (written s results) _ e.target)

/-- **Which edges there are after a commit**: those that were, and those that a result asks for if both
ends are stored. -/
theorem contains_edges_committed {key : EdgeKey} :
    (committed s results number).edges.contains key = true ↔ s.edges.contains key = true ∨
      ∃ c ∈ results, ∃ e ∈ c.findings.edges,
        (committed s results number).holdsEnds e = true ∧ e.key = key := by
  have hedges : (committed s results number).edges.contains key =
      (joined s results).1.edges.contains key := rfl
  rw [hedges, holdsEnds_committed, joined, Store.contains_edges_addEdges, written,
    Store.edges_mergeNodes]
  refine or_congr Iff.rfl ?_
  constructor
  · rintro ⟨e, he, hkey⟩
    obtain ⟨hmem, hends⟩ := List.mem_filter.mp he
    obtain ⟨c, hc, hec⟩ := List.mem_flatMap.mp hmem
    exact ⟨c, List.mem_mergeSort.mp hc, e, hec, hends, hkey⟩
  · rintro ⟨c, hc, e, hec, hends, hkey⟩
    refine ⟨e, List.mem_filter.mpr ⟨List.mem_flatMap.mpr ⟨c, ?_, hec⟩, hends⟩, hkey⟩
    exact List.mem_mergeSort.mpr hc

end Commit

end Writes

end FactGraph
