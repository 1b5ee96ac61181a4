import FactGraph.Proofs.ResourceStores
import Mathlib

/-!
# Metrics of resources

The fact counter of a store can fall, for a sum may grow beyond what can be represented and storage does
not keep it then.  In a store of resources this is the sum of a container, and it changes only if a file
in the container is measured in the same pass.  That file gets a metric, and it had none before.  So for
every metric that is lost there is a new one (`card_gauges_le`), and a pass that leaves the fact
counter as it was has added no node (`Weighed.contains_of_factCount_eq`), whatever the numbers are.
-/

namespace FactGraph

open FileSystem (Item)
open Builtin

variable {μ : Type}

/-! ## 1. Counting metrics -/

/-- The number of metrics in a store. -/
def Store.metricCount (s : Store μ) : Nat := (s.nodes.values.map (·.metrics.size)).sum

/-- **If the fact counter stands still and there are no fewer metrics than before, no node is new.** -/
theorem Store.KeptIn.contains_of_factCount_eq {s t : Store μ} (h : s.KeptIn t) (hs : s.Keyed)
    (ht : t.Keyed) (hmetrics : s.metricCount ≤ t.metricCount) (hfacts : t.factCount = s.factCount)
    {id : String}
    (hid : t.contains id = true) : s.contains id = true := by
  -- without its metrics a node only grows, and it counts at least itself
  let plain (n : Node μ) : Nat := 1 + n.tags.size + n.properties.size
  have hsplit : ∀ u : Store μ, u.Keyed → u.factCount = (u.nodes.values.map plain).sum +
      u.metricCount + u.edges.size := by
    intro u hu
    rw [hu.factCount_eq, Store.metricCount, ← List.sum_map_add]
    rfl
  have hweight : ∀ id, Table.weight plain (s.nodes.get? id) ≤ Table.weight plain (t.nodes.get? id) := by
    intro id
    rw [Store.get?_nodes, Store.get?_nodes]
    cases hn : s.node? id with
    | none => exact Nat.zero_le _
    | some n =>
      obtain ⟨n', hn', hkept⟩ := h.nodes id n hn
      have htags := Table.size_le_of_contains hkept.tags
      have hproperties := Table.size_le_of_contains hkept.properties
      rw [hn']
      simp only [Table.weight_some, plain]
      omega
  have hedges : s.edges.size ≤ t.edges.size := by
    refine Table.size_le_of_contains fun key hkey => ?_
    obtain ⟨metadata, hmetadata⟩ := Table.contains_iff.1 hkey
    exact Table.contains_iff.2 ⟨metadata, h.edges key metadata hmetadata⟩
  have hsum := Table.sum_values_le hweight
  rw [hsplit t ht, hsplit s hs] at hfacts
  have hequal := Table.weight_eq_of_sum_values_eq hweight (by omega) id
  obtain ⟨n', hn'⟩ := Store.contains_iff.1 hid
  rw [Store.get?_nodes, Store.get?_nodes, hn', Table.weight_some] at hequal
  cases hn : s.node? id with
  | none =>
    rw [hn, Table.weight_none] at hequal
    simp only [plain] at hequal
    omega
  | some n => exact Store.contains_iff.2 ⟨n, hn⟩

/-- The ids of nodes that have a number of lines. -/
def Store.gauges (s : Store μ) : Finset String :=
  s.nodes.keys.toFinset.filter fun id => (s.node? id).any (·.metrics.contains linesKey)

theorem Store.mem_gauges {s : Store μ} {id : String} :
    id ∈ s.gauges ↔ ∃ n, s.node? id = some n ∧ n.metrics.contains linesKey = true := by
  rw [gauges, Finset.mem_filter, List.mem_toFinset, Table.mem_keys, Store.contains_nodes]
  constructor
  · rintro ⟨-, hany⟩
    exact (Option.any_eq_true _ _).1 hany
  · rintro ⟨n, hn, hlines⟩
    exact ⟨Store.contains_iff.2 ⟨n, hn⟩, (Option.any_eq_true _ _).2 ⟨n, hn, hlines⟩⟩

/-- If there are no other metrics, this counts them all. -/
theorem Store.card_gauges {s : Store μ} (hkeys : ∀ id n key, s.node? id = some n →
    n.metrics.contains key = true → key = linesKey) : s.gauges.card = s.metricCount := by
  rw [metricCount, Table.sum_values_eq, gauges, Finset.card_filter]
  refine Finset.sum_congr rfl fun id _ => ?_
  rw [Store.get?_nodes]
  cases hn : s.node? id with
  | none => rfl
  | some n =>
    rw [Table.weight_some, Option.any_some]
    have hsub : n.metrics.keys ⊆ [linesKey] :=
      fun key hkey => List.mem_singleton.2 (hkeys id n key hn (Table.mem_keys.1 hkey))
    have hle := n.metrics.nodup_keys.length_le_of_subset hsub
    have hsize : n.metrics.size = n.metrics.keys.length := (List.length_map _).symm
    rw [hsize]
    split_ifs with hlines
    · have hpos := List.length_pos_of_mem (Table.mem_keys.2 hlines)
      rw [List.length_singleton] at hle
      omega
    · rw [eq_comm, List.length_eq_zero_iff, List.eq_nil_iff_forall_not_mem]
      intro key hkey
      rw [List.mem_singleton.1 (hsub hkey)] at hkey
      exact hlines (Table.mem_keys.1 hkey)

/-! ## 2. Metrics in a commit -/

section Commits

variable [Measure μ] {fs : FileSystem} {settings : Settings} {excludes : String → Bool}
  {root : Location} {tree : Item} {s : Store μ} {results : List (Completion μ)} {id : String}

/-- A file with a number of lines that can be represented is counted in a container. -/
def Feeds (fs : FileSystem) (s : Store μ) (results : List (Completion μ)) (id : String)
    (file : Node μ) : Prop :=
  (∃ c ∈ results, CountsLines fs s c file) ∧ parentOf? file = some id ∧
    Measure.isFinite (Measure.ofNat (linesAt fs file.id) : μ) = true

/-- **A store of resources and its metrics.**  All metrics are numbers of lines, a file that has one has
been counted, and all are finite. -/
structure Weighed (s : Store μ) : Prop where
  keys : ∀ id n key, s.node? id = some n → n.metrics.contains key = true → key = linesKey
  recorded : ∀ id n, s.node? id = some n → n.kind = fileKind → n.metrics.contains linesKey = true →
    s.ledger.contains ⟨(lineCounter (μ := μ)).name, id⟩ = true
  finite : s.FiniteMetrics

/-- What is known of the metrics of a node while the results of a commit are written. -/
structure Metered (fs : FileSystem) (excludes : String → Bool) (root : Location) (tree : Item)
    (s : Store μ) (results : List (Completion μ)) (id : String) (m : Node μ) : Prop where
  placed : Placed fs excludes root tree id m ∧ ∀ p, parentOf? m = some p → s.contains p = true
  keys : ∀ key, m.metrics.contains key = true → key = linesKey
  /-- A file that has one had it before, or is counted now. -/
  origin : m.kind = fileKind → m.metrics.contains linesKey = true →
    (∃ n, s.node? id = some n ∧ n.metrics.contains linesKey = true) ∨
      ∃ c ∈ results, ∃ file, CountsLines fs s c file ∧ file.id = id
  /-- What gets no lines from a file stays finite. -/
  finite : (∀ file, ¬ Feeds fs s results id file) →
    ∀ x, m.metrics.get? linesKey = some x → Measure.isFinite x = true

theorem Asks.metered_onto (h : Readable fs excludes root tree) (hs : Charted fs excludes root tree s)
    {w : Write μ} (hw : Asks fs excludes root tree s results w) {o : Option (Node μ)}
    (ho : ∀ n, o = some n → Metered fs excludes root tree s results id n) {m : Node μ}
    (hm : w.onto id o = some m) : Metered fs excludes root tree s results id m := by
  have hplaced := hw.placed_onto h (fun n hn => (ho n hn).placed) m hm
  cases o with
  | none =>
    have hbare : ∀ key, m.metrics.get? key = none := by
      intro key
      rw [(hw.fresh_of_onto_none hm).metrics]
      rfl
    refine ⟨hplaced, fun key hkey => ?_, fun _ hkey => ?_, fun _ x hx => ?_⟩
    · rw [Table.contains, hbare] at hkey
      cases hkey
    · rw [Table.contains, hbare] at hkey
      cases hkey
    · rw [hbare] at hx
      cases hx
  | some n =>
    have hn := ho n rfl
    rcases hw.onto_cases h hs hn.placed.1 hm with ⟨hkind, hmetrics, -⟩ |
      ⟨c, hc, file, hfile, hid, -, rfl⟩ | ⟨c, hc, file, hfile, hparent, hfinite, hkind, rfl⟩
    · refine ⟨hplaced, ?_, ?_, ?_⟩
      · rw [hmetrics]
        exact hn.keys
      · rw [hmetrics, hkind]
        exact hn.origin
      · rw [hmetrics]
        exact hn.finite
    · refine ⟨hplaced, fun key hkey => ?_, fun _ _ => .inr ⟨c, hc, file, hfile, hid⟩,
        fun hfeeds x hx => ?_⟩
      · by_contra hother
        rw [Table.contains, get?_metrics_measuring, if_neg fun hboth => hother hboth.1] at hkey
        exact hother (hn.keys key hkey)
      · rw [get?_metrics_measuring] at hx
        split at hx
        · next hboth =>
          cases hx
          exact hboth.2
        · exact hn.finite hfeeds x hx
    · refine ⟨hplaced, fun key hkey => ?_, fun hfileKind => absurd hfileKind hkind, fun hfeeds => ?_⟩
      · by_contra hother
        rw [Table.contains, get?_metrics_sharing _ hother] at hkey
        exact hother (hn.keys key hkey)
      · exact absurd ⟨⟨c, hc, hfile⟩, hparent, hfinite⟩ (hfeeds file)

theorem metered_viewed (h : Readable fs excludes root tree) (hs : Charted fs excludes root tree s)
    (hweighed : Weighed s)
    (hexcludes : ∀ name, settings.excludes name = false → excludes name = false)
    (hreports : ∀ c ∈ results, Reports fs settings excludes root tree s c) {m : Node μ}
    (hm : Commit.viewed s results id = some m) : Metered fs excludes root tree s results id m := by
  refine Commit.viewed_induction (fun o : Option (Node μ) => ∀ m, o = some m →
    Metered fs excludes root tree s results id m) ?_ ?_ m hm
  · exact fun n hn => ⟨⟨hs.placed id n hn, fun p => hs.parents id n p hn⟩, fun key =>
      hweighed.keys id n key hn, fun _ hlines => .inl ⟨n, hn, hlines⟩, fun _ =>
      hweighed.finite id n hn linesKey⟩
  · intro w hw o ho m hm
    exact (asks_of_mem_writes h hs hexcludes hreports hw).metered_onto h hs ho hm

/-! ## 3. A metric for a metric -/

variable {number : Nat}

/-- A number of lines that is finite is stored. -/
theorem mem_gauges_committed (hs : s.Keyed) {m : Node μ} (hm : Commit.viewed s results id = some m)
    {x : μ} (hx : m.metrics.get? linesKey = some x) (hfinite : Measure.isFinite x = true) :
    id ∈ (Commit.committed s results number).gauges := by
  rw [Store.mem_gauges, Commit.node?_committed]
  rcases Commit.node?_written_cases hs results id with hw | hw
  · exact ⟨m, hw.trans hm, Table.contains_iff.2 ⟨x, hx⟩⟩
  · rw [hw, hm]
    exact ⟨m.stored, rfl, Node.contains_metrics_stored hx hfinite⟩

/-- A node only grows by writes. -/
theorem Write.grows_foldl_onto (ws : List (Write μ)) (id : String) (n : Node μ) :
    ∃ m, ws.foldl (Write.onto id) (some n) = some m ∧ n.Grows m := by
  induction ws generalizing n with
  | nil => exact ⟨n, rfl, Node.Grows.refl n⟩
  | cons w rest ih =>
    obtain ⟨n', hn', hgrows⟩ := w.grows_onto id n
    obtain ⟨m, hm, hgrows'⟩ := ih n'
    refine ⟨m, ?_, hgrows.trans hgrows'⟩
    rw [List.foldl_cons, hn', hm]

/-- Once a write has set a metric, it is there. -/
theorem Commit.contains_metrics_viewed {n : Node μ} (hn : s.node? id = some n) {p : Patch μ}
    (hw : Write.patch id p ∈ Commit.writes results) {key : String}
    (hkey : p.metrics.contains key = true) :
    ∃ m, Commit.viewed s results id = some m ∧ m.metrics.contains key = true := by
  obtain ⟨before, after, hsplit⟩ := List.append_of_mem hw
  obtain ⟨n', hn', -⟩ := Write.grows_foldl_onto before id n
  obtain ⟨m, hm, hgrows⟩ := Write.grows_foldl_onto after id (p.apply n')
  refine ⟨m, ?_, hgrows.metrics key ?_⟩
  · rw [Commit.viewed, hsplit, List.foldl_append, List.foldl_cons, hn, hn', Write.onto, if_pos rfl,
      Option.map_some, hm]
  · obtain ⟨x, hx⟩ := Table.contains_iff.1 hkey
    rw [Table.contains, Patch.get?_metrics_apply, Patch.meter, hx, Option.some_or]
    cases p.sums.get? key <;> rfl

/-- A file that is counted has no metric before the commit. -/
theorem Feeds.not_mem_gauges (hweighed : Weighed s) {file : Node μ} (h : Feeds fs s results id file) :
    file.id ∉ s.gauges := by
  obtain ⟨⟨c, -, hcounts⟩, -⟩ := h
  intro hgauge
  obtain ⟨n, hn, hlines⟩ := Store.mem_gauges.1 hgauge
  rw [hcounts.stored] at hn
  cases hn
  have hrecorded := hweighed.recorded file.id file hcounts.stored hcounts.kind hlines
  rw [← hcounts.pair, hcounts.unrecorded] at hrecorded
  cases hrecorded

/-- It has one after the commit. -/
theorem Feeds.mem_gauges (h : Readable fs excludes root tree) (hs : Charted fs excludes root tree s)
    (hweighed : Weighed s)
    (hexcludes : ∀ name, settings.excludes name = false → excludes name = false)
    (hreports : ∀ c ∈ results, Reports fs settings excludes root tree s c) {file : Node μ}
    (hfile : Feeds fs s results id file) :
    file.id ∈ (Commit.committed s results number).gauges := by
  obtain ⟨⟨c, hc, hcounts⟩, -, hfinite⟩ := hfile
  have hplaced := hs.placed file.id file hcounts.stored
  have hpatch : c.findings.patches.get? file.id = some (measuring (linesAt fs file.id)) := by
    rw [hcounts.get?_patches h hs, if_neg fun hself => hplaced.parentOf?_ne h hself.1, if_pos rfl]
  have hw : Write.patch file.id (measuring (linesAt fs file.id)) ∈ Commit.writes results :=
    Commit.mem_writes.2 ⟨c, hc, List.mem_append_right _
      (List.mem_map.2 ⟨_, Table.mem_rows.2 hpatch, rfl⟩)⟩
  have hsets : (measuring (linesAt fs file.id) : Patch μ).metrics.contains linesKey = true := by
    rw [measuring, if_pos hfinite, Table.contains_insert]
    exact .inl rfl
  obtain ⟨m, hm, hlines⟩ := Commit.contains_metrics_viewed hcounts.stored hw hsets
  obtain ⟨x, hx⟩ := Table.contains_iff.1 hlines
  refine mem_gauges_committed hs.keyed hm hx
    ((metered_viewed h hs hweighed hexcludes hreports hm).finite ?_ x hx)
  -- a file contains nothing, so nothing is added to its number
  rintro other ⟨⟨c', -, hother⟩, hparent, -⟩
  exact (hs.placed other.id other hother.stored).kind_container h hparent hplaced hcounts.kind

/-- A node that loses its number gets lines from a file. -/
theorem exists_feeds_of_lost (h : Readable fs excludes root tree) (hs : Charted fs excludes root tree s)
    (hweighed : Weighed s)
    (hexcludes : ∀ name, settings.excludes name = false → excludes name = false)
    (hreports : ∀ c ∈ results, Reports fs settings excludes root tree s c) (hid : id ∈ s.gauges)
    (hlost : id ∉ (Commit.committed s results number).gauges) : ∃ file, Feeds fs s results id file := by
  by_contra hnone
  obtain ⟨n, hn, hlines⟩ := Store.mem_gauges.1 hid
  obtain ⟨m, hm, hgrows⟩ := Commit.grows_viewed results hn
  obtain ⟨x, hx⟩ := Table.contains_iff.1 (hgrows.metrics linesKey hlines)
  refine hlost (mem_gauges_committed hs.keyed hm hx ?_)
  exact (metered_viewed h hs hweighed hexcludes hreports hm).finite (not_exists.1 hnone) x hx

/-- A file feeds one container. -/
theorem Feeds.eq {other : String} {file file' : Node μ} (h : Feeds fs s results id file)
    (h' : Feeds fs s results other file') (heq : file.id = file'.id) : id = other := by
  obtain ⟨⟨c, -, hcounts⟩, hparent, -⟩ := h
  obtain ⟨⟨c', -, hcounts'⟩, hparent', -⟩ := h'
  have hstored := hcounts.stored
  rw [heq, hcounts'.stored] at hstored
  cases hstored
  rw [hparent] at hparent'
  exact Option.some.inj hparent'

/-- **The number of metrics does not fall.** -/
theorem card_gauges_le (h : Readable fs excludes root tree) (hs : Charted fs excludes root tree s)
    (hweighed : Weighed s)
    (hexcludes : ∀ name, settings.excludes name = false → excludes name = false)
    (hreports : ∀ c ∈ results, Reports fs settings excludes root tree s c) :
    s.gauges.card ≤ (Commit.committed s results number).gauges.card := by
  -- what keeps its number stands for itself, and what loses it for a file that feeds it
  have hstand : ∀ id, ∃ stand, id ∈ s.gauges → (stand = id ∧
      id ∈ (Commit.committed s results number).gauges) ∨
        ∃ file, Feeds fs s results id file ∧ stand = file.id := by
    intro id
    by_cases hkept : id ∈ (Commit.committed s results number).gauges
    · exact ⟨id, fun _ => .inl ⟨rfl, hkept⟩⟩
    by_cases hid : id ∈ s.gauges
    · obtain ⟨file, hfile⟩ := exists_feeds_of_lost h hs hweighed hexcludes hreports hid hkept
      exact ⟨file.id, fun _ => .inr ⟨file, hfile, rfl⟩⟩
    · exact ⟨id, fun hid' => absurd hid' hid⟩
  choose stand hstand using hstand
  refine Finset.card_le_card_of_injOn stand (fun a ha => ?_) (fun a ha b hb heq => ?_)
  · rcases hstand a ha with ⟨hself, hkept⟩ | ⟨file, hfile, hstands⟩
    · rw [hself]
      exact hkept
    · rw [hstands]
      exact hfile.mem_gauges h hs hweighed hexcludes hreports
  · rcases hstand a ha with ⟨hself, -⟩ | ⟨file, hfile, hstands⟩ <;>
      rcases hstand b hb with ⟨hself', -⟩ | ⟨file', hfile', hstands'⟩
    · rw [← hself, heq, hself']
    · have hnew := hfile'.not_mem_gauges hweighed
      rw [← hstands', ← heq, hself] at hnew
      exact absurd ha hnew
    · have hnew := hfile.not_mem_gauges hweighed
      rw [← hstands, heq, hself'] at hnew
      exact absurd hb hnew
    · exact hfile.eq hfile' (hstands.symm.trans (heq.trans hstands'))

end Commits

/-! ## 4. Runs -/

section Runs

variable [Measure μ] {fs : FileSystem} {settings : Settings} {excludes : String → Bool}
  {root : Location} {tree : Item} {s : Store μ}

theorem weighed_empty : Weighed (Store.empty : Store μ) where
  keys := by
    rintro id n key ⟨⟩
  recorded := by
    rintro id n ⟨⟩
  finite := by
    rintro id n ⟨⟩

/-- **One step: writing keeps a store weighed**, if the pairs that count are recorded. -/
theorem Weighed.step (h : Readable fs excludes root tree) (hs : Charted fs excludes root tree s)
    (hweighed : Weighed s)
    (hexcludes : ∀ name, settings.excludes name = false → excludes name = false)
    {results : List (Completion μ)}
    (hreports : ∀ c ∈ results, Reports fs settings excludes root tree s c) {s' : Store μ}
    (hnodes : ∀ id, s'.node? id = (Commit.written s results).node? id)
    (hkept : ∀ pair, s.ledger.contains pair = true → s'.ledger.contains pair = true)
    (hdone : ∀ c ∈ results, ∀ n, CountsLines fs s c n → s'.ledger.contains c.pair = true) :
    Weighed s' := by
  -- what is stored has no metric that was not seen before it was stored
  have hstored : ∀ id n, s'.node? id = some n → ∃ m, Metered fs excludes root tree s results id m ∧
      n.kind = m.kind ∧ ∀ key, n.metrics.contains key = true → m.metrics.contains key = true := by
    intro id n hn
    rw [hnodes] at hn
    rcases Commit.node?_written_cases hs.keyed results id with hw | hw
    · exact ⟨n, metered_viewed h hs hweighed hexcludes hreports (hw.symm.trans hn), rfl,
        fun _ hkey => hkey⟩
    · rw [hw] at hn
      obtain ⟨m, hm, rfl⟩ := Option.map_eq_some_iff.1 hn
      refine ⟨m, metered_viewed h hs hweighed hexcludes hreports hm, rfl, fun key hkey => ?_⟩
      rw [Node.stored, Table.contains_mapValues] at hkey
      obtain ⟨x, hx⟩ := Table.contains_iff.1 hkey
      rw [Table.get?_filter] at hx
      exact Table.contains_iff.2 ⟨x, (Option.filter_eq_some_iff.1 hx).1⟩
  refine ⟨fun id n key hn hkey => ?_, fun id n hn hkind hlines => ?_, ?_⟩
  · obtain ⟨m, hm, -, hkeys⟩ := hstored id n hn
    exact hm.keys key (hkeys key hkey)
  · obtain ⟨m, hm, hsame, hkeys⟩ := hstored id n hn
    rcases hm.origin (hsame.symm.trans hkind) (hkeys linesKey hlines) with
      ⟨n₀, hn₀, hbefore⟩ | ⟨c, hc, file, hfile, rfl⟩
    · have hkind₀ : n₀.kind = fileKind := by
        rw [((hs.placed id n₀ hn₀).congr h hm.placed.1).1, ← hsame, hkind]
      exact hkept _ (hweighed.recorded id n₀ hn₀ hkind₀ hbefore)
    · rw [← hfile.pair]
      exact hdone c hc file hfile
  · intro id n hn
    refine Commit.finiteMetrics_committed hweighed.finite results 0 id n ?_
    rw [Commit.node?_committed, ← hnodes]
    exact hn

theorem Weighed.advance (h : Readable fs excludes root tree) (hs : Charted fs excludes root tree s)
    (hweighed : Weighed s)
    (hexcludes : ∀ name, settings.excludes name = false → excludes name = false)
    {active : List (Run.Active Context μ)} (hactive : ∀ x ∈ active, x.analyzer ∈ roster.analyzers)
    (number : Nat) : Weighed (Run.advance active { settings, files := fs } number s) := by
  refine hweighed.step h hs hexcludes
    (fun c hc => hs.reports_of_finishing h hexcludes hactive hc)
    (Commit.node?_committed s _ number) ?_ ?_
  · exact fun pair hpair => (Run.contains_ledger_advance number pair).2 (.inr hpair)
  · exact fun c hc _ _ => (Run.contains_ledger_advance number _).2 (.inl (List.mem_map_of_mem hc))

theorem Weighed.after (h : Readable fs excludes root tree) (hs : Charted fs excludes root tree s)
    (hweighed : Weighed s)
    (hexcludes : ∀ name, settings.excludes name = false → excludes name = false)
    {active : List (Run.Active Context μ)} (hactive : ∀ x ∈ active, x.analyzer ∈ roster.analyzers)
    (k : Nat) : Weighed (Run.after active { settings, files := fs } s k) := by
  induction k with
  | zero => exact hweighed
  | succ k ih => exact ih.advance h (hs.after h hexcludes hactive k) hexcludes hactive (k + 1)

theorem Weighed.seed (h : Readable fs excludes root tree) (hs : Charted fs excludes root tree s)
    (hweighed : Weighed s)
    (hexcludes : ∀ name, settings.excludes name = false → excludes name = false) {d : Description}
    (hkind : kindOf root d = resourceKind root tree) :
    Weighed (Commit.written s [seeding root d]) := by
  have hledger : (Commit.written s [seeding root d]).ledger = s.ledger := Store.ledger_mergeNodes s _
  refine hweighed.step h hs hexcludes (reports_seeding hkind) (fun _ => rfl) ?_ ?_
  · intro pair hpair
    rw [hledger]
    exact hpair
  · intro c hc n hn
    cases List.mem_singleton.1 hc
    exact absurd hn not_countsLines_seeding

/-- **A pass that leaves the fact counter as it was has added no node.** -/
theorem Weighed.contains_of_factCount_eq (h : Readable fs excludes root tree)
    (hs : Charted fs excludes root tree s) (hweighed : Weighed s)
    (hexcludes : ∀ name, settings.excludes name = false → excludes name = false)
    {active : List (Run.Active Context μ)} (hactive : ∀ x ∈ active, x.analyzer ∈ roster.analyzers)
    {number : Nat}
    (hfacts : (Run.advance active { settings, files := fs } number s).factCount = s.factCount)
    {id : String}
    (hid : (Run.advance active { settings, files := fs } number s).contains id = true) :
    s.contains id = true := by
  refine (Commit.keptIn_committed hs.keyed _ number).contains_of_factCount_eq hs.keyed
    (Commit.keyed_committed hs.keyed _ number) ?_ hfacts hid
  have hafter := hweighed.advance h hs hexcludes hactive number
  rw [Run.advance] at hafter
  rw [← Store.card_gauges hweighed.keys, ← Store.card_gauges hafter.keys]
  exact card_gauges_le h hs hweighed hexcludes
    fun c hc => hs.reports_of_finishing h hexcludes hactive hc

end Runs

end FactGraph
