import FactGraph.Proofs.Growth

/-!
# Metrics that are lost

A metric is the one thing that a commit can lose.  Analyzers may only set and add finite values, but
what values add up to need not be finite, and neither need the metrics of a node that was seen be.
Storage does not keep such a value, and with it goes the value that was there before: the fact
counter falls (`factCount_falls_in_commit`).

`Commit.metered` is what a commit makes of a metric, from its old value and the results alone.  A
metric is lost if and only if that is not finite, and the fact counter falls by no more than the number
of metrics that are lost (`metrics_and_facts_of_commit`).
-/

namespace FactGraph

open Session

variable {μ : Type} [Measure μ]

/-! ## 1. What becomes of a metric -/

/-- What a patch makes of a metric: a value of its own goes over the old one, and a sum is added. -/
def Patch.meter (p : Patch μ) (key : String) (before : Option μ) : Option μ :=
  let value := (p.metrics.get? key).or before
  (p.sums.get? key).elim value fun sum => some (Measure.add (value.getD Measure.zero) sum.total)

/-- What a write makes of a metric of a node. -/
def Write.meter (id key : String) (before : Option μ) : Write μ → Option μ
  | .observe seen => if seen.id = id then (seen.metrics.get? key).or before else before
  | .patch target changes => if target = id then changes.meter key before else before

theorem Patch.get?_metrics_addSum (n : Node μ) (metric key : String) (sum : Tally μ) :
    (addSum n metric sum).metrics.get? key =
      if key = metric then some (Measure.add ((n.metrics.get? metric).getD Measure.zero) sum.total)
      else n.metrics.get? key := by
  rw [addSum, Table.get?_insert]
  simp only [Std.compare_eq_iff_eq]

/-- Sums under different keys do not meet. -/
theorem Patch.get?_metrics_foldl_addSum (rows : List (String × Tally μ)) (n : Node μ)
    (hasc : rows.Pairwise fun a b => compare a.1 b.1 = .lt) (key : String) :
    (rows.foldl (fun n row => addSum n row.1 row.2) n).metrics.get? key =
      (Table.find key rows).elim (n.metrics.get? key) fun sum =>
        some (Measure.add ((n.metrics.get? key).getD Measure.zero) sum.total) := by
  induction rows generalizing n with
  | nil => rfl
  | cons head rest ih =>
    obtain ⟨metric, sum⟩ := head
    have hpair := List.pairwise_cons.mp hasc
    rw [List.foldl_cons, ih _ hpair.2, get?_metrics_addSum, Table.find]
    simp only [Std.compare_eq_iff_eq]
    by_cases h : key = metric
    · -- the later sums all lie above `metric`
      rw [if_pos h, if_pos h, h, Table.find_eq_none_of_lt hpair.1]
      rfl
    · rw [if_neg h, if_neg h]

theorem Patch.get?_metrics_apply (p : Patch μ) (n : Node μ) (key : String) :
    (p.apply n).metrics.get? key = p.meter key (n.metrics.get? key) := by
  rw [apply, get?_metrics_foldl_addSum _ _ p.sums.ascending, Table.get?_overlay]
  rfl

theorem Write.get?_metrics_onto {id key : String} {n n' : Node μ} {w : Write μ}
    (h : w.onto id (some n) = some n') :
    n'.metrics.get? key = w.meter id key (n.metrics.get? key) := by
  cases w with
  | observe seen =>
    rw [onto] at h
    rw [meter]
    split at h
    · next hid =>
      cases h
      rw [if_pos hid]
      exact Table.get?_overlay _ _ _
    · next hid =>
      cases h
      rw [if_neg hid]
  | patch target changes =>
    rw [onto] at h
    rw [meter]
    split at h
    · next hid =>
      cases h
      rw [if_pos hid]
      exact changes.get?_metrics_apply n key
    · next hid =>
      cases h
      rw [if_neg hid]

theorem Write.get?_metrics_foldl_onto {id key : String} {ws : List (Write μ)} {n n' : Node μ}
    (h : ws.foldl (Write.onto id) (some n) = some n') :
    n'.metrics.get? key = ws.foldl (Write.meter id key) (n.metrics.get? key) := by
  induction ws generalizing n with
  | nil =>
    cases h
    rfl
  | cons w rest ih =>
    obtain ⟨m, hm, -⟩ := w.grows_onto id n
    rw [List.foldl_cons, hm] at h
    rw [ih h, get?_metrics_onto hm, List.foldl_cons]

/-! ## 2. Which metrics a commit loses -/

namespace Commit

/-- **What a commit makes of a metric** of a stored node. -/
def metered (s : Store μ) (results : List (Completion μ)) (id key : String) : Option μ :=
  (writes results).foldl (Write.meter id key) ((s.node? id).bind (·.metrics.get? key))

/-- Whether a commit spoils a metric: what it makes of it is not finite. -/
def spoils (s : Store μ) (results : List (Completion μ)) (id key : String) : Bool :=
  !(metered s results id key).any Measure.isFinite

/-- How many metrics of stored nodes a commit spoils. -/
def spoiled (s : Store μ) (results : List (Completion μ)) : Nat :=
  (s.nodes.rows.map fun row => (row.2.metrics.filter fun key _ => spoils s results row.1 key).size).sum

variable {s : Store μ} {results : List (Completion μ)} {number : Nat} {id key : String}
  {n n' : Node μ}

/-- **A metric is lost if and only if it is spoiled.** -/
theorem contains_metrics_committed (hs : s.Keyed) (hfinite : s.FiniteMetrics)
    (hn : s.node? id = some n) (hn' : (committed s results number).node? id = some n')
    (hkey : n.metrics.contains key = true) :
    n'.metrics.contains key = true ↔ spoils s results id key = false := by
  obtain ⟨m, hm, hgrows⟩ := grows_viewed results hn
  obtain ⟨x, hx⟩ := Table.contains_iff.mp (hgrows.metrics key hkey)
  have hmetered : metered s results id key = some x := by
    have hviewed := hm
    rw [viewed, hn] at hviewed
    rw [metered, hn, Option.bind_some, ← Write.get?_metrics_foldl_onto hviewed, hx]
  rw [spoils, hmetered, Option.any_some, Bool.not_eq_false_eq_eq_true]
  rcases eq_or_eq_stored hs hm hn' with rfl | rfl
  · -- a node that was not written is stored already
    have hxfinite := finiteMetrics_committed hfinite results number id n' hn' key x hx
    exact iff_of_true (Table.contains_iff.mpr ⟨x, hx⟩) hxfinite
  · constructor
    · intro hstored
      rw [Node.stored, Table.contains_mapValues, Table.contains_iff] at hstored
      obtain ⟨y, hy⟩ := hstored
      rw [Table.get?_filter, hx] at hy
      obtain ⟨hxy, hyfinite⟩ := Option.filter_eq_some_iff.mp hy
      rw [Option.some.inj hxy]
      exact hyfinite
    · exact Node.contains_metrics_stored hx

/-- A store without the metrics that a commit spoils. -/
def unspoiled (s : Store μ) (results : List (Completion μ)) : Store μ :=
  s.mapRows fun id row =>
    { row with metrics := row.metrics.filter fun key _ => !spoils s results id key }

theorem nodes_unspoiled (s : Store μ) (results : List (Completion μ)) :
    (unspoiled s results).nodes = s.nodes.mapValues fun id n =>
      { n with metrics := n.metrics.filter fun key _ => !spoils s results id key } :=
  s.nodes_mapRows fun _ _ _ => rfl

/-- All that is not spoiled is there after a commit. -/
theorem unspoiled_grows (hs : s.Keyed) (hfinite : s.FiniteMetrics) (results : List (Completion μ))
    (number : Nat) : (unspoiled s results).Grows (committed s results number) where
  nodes id m hm := by
    rw [← Store.get?_nodes, nodes_unspoiled, Table.get?_mapValues, Store.get?_nodes,
      Option.map_eq_some_iff] at hm
    obtain ⟨n, hn, rfl⟩ := hm
    obtain ⟨n', hn', hkept⟩ := (keptIn_committed hs results number).nodes id n hn
    refine ⟨n', hn', ⟨hkept.tags, hkept.properties⟩, fun key hkey => ?_⟩
    obtain ⟨x, hx⟩ := Table.contains_iff.mp hkey
    rw [Table.get?_filter] at hx
    obtain ⟨hx, hunspoiled⟩ := Option.filter_eq_some_iff.mp hx
    rw [Bool.not_eq_true'] at hunspoiled
    have hkey := Table.contains_iff.mpr ⟨x, hx⟩
    exact (contains_metrics_committed hs hfinite hn hn' hkey).mpr hunspoiled
  edges key hkey := by
    obtain ⟨metadata, hmetadata⟩ := Table.contains_iff.mp hkey
    exact Table.contains_iff.mpr
      ⟨metadata, (keptIn_committed hs results number).edges key metadata hmetadata⟩

theorem keyed_unspoiled (hs : s.Keyed) (results : List (Completion μ)) :
    (unspoiled s results).Keyed :=
  hs.mapRows fun _ _ => rfl

theorem factCount_unspoiled (hs : s.Keyed) (results : List (Completion μ)) :
    s.factCount = (unspoiled s results).factCount + spoiled s results := by
  have hnode : ∀ (drop : String → Bool) (n : Node μ), n.factCount =
      { n with metrics := n.metrics.filter fun key _ => !drop key }.factCount +
        (n.metrics.filter fun key _ => drop key).size := by
    intro drop n
    have hsplit := List.length_eq_length_filter_add (l := n.metrics.rows) fun row => drop row.1
    show 1 + n.tags.size + n.properties.size + n.metrics.rows.length =
      1 + n.tags.size + n.properties.size +
        (n.metrics.rows.filter fun row => !drop row.1).length +
        (n.metrics.rows.filter fun row => drop row.1).length
    omega
  have hedges : (unspoiled s results).edges = s.edges := rfl
  rw [hs.factCount_eq, (keyed_unspoiled hs results).factCount_eq, nodes_unspoiled, hedges, spoiled,
    Table.values, Table.values, Table.mapValues, List.map_map, List.map_map, List.map_map,
    Nat.add_right_comm, ← List.sum_map_add]
  congr 3
  funext row
  exact hnode (spoils s results row.1) row.2

end Commit

/-! ## 3. Metrics and facts after a commit -/

/-- **What a commit does to metrics, and to the fact counter.**  All metrics that are kept are finite.
A metric that a node had is still there if and only if what the commit makes of it is finite.  The
fact counter falls by no more than the number of metrics that are lost. -/
theorem metrics_and_facts_of_commit {results : List (Completion μ)} {number size : Nat}
    {σ σ' : State μ} {summary : CommitSummary} (hs : σ.store.Keyed) (hfinite : σ.store.FiniteMetrics)
    (h : Returns (Commit.pass results number size) σ summary σ') :
    σ'.store.FiniteMetrics ∧
      (∀ id n, σ.store.node? id = some n → ∃ n', σ'.store.node? id = some n' ∧
        ∀ key, n.metrics.contains key = true →
          (n'.metrics.contains key = true ↔ Commit.spoils σ.store results id key = false)) ∧
      σ.store.factCount ≤ σ'.store.factCount + Commit.spoiled σ.store results := by
  obtain ⟨hanswer, hcore⟩ :=
    (Commit.computes_pass results number size σ.store σ.cancelled).of_returns rfl h
  have hstore : σ'.store = Commit.committed σ.store results number := by
    refine (congrArg Core.store hcore).trans ?_
    rw [Commit.left, (Commit.of_answer_eq_ok hanswer).1]
    rfl
  rw [hstore]
  refine ⟨Commit.finiteMetrics_committed hfinite results number, fun id n hn => ?_, ?_⟩
  · obtain ⟨n', hn', -⟩ := (Commit.keptIn_committed hs results number).nodes id n hn
    exact ⟨n', hn', fun key => Commit.contains_metrics_committed hs hfinite hn hn'⟩
  · have hgrows := Commit.unspoiled_grows hs hfinite results number
    rw [Commit.factCount_unspoiled hs results]
    exact Nat.add_le_add_right (hgrows.factCount_le (Commit.keyed_unspoiled hs results)
      (Commit.keyed_committed hs results number)) _

/-- A document with two sums, one of them close to the largest number there is. -/
def brimful : Node Float :=
  ((((Node.new "doc" "file").property "size_count" (.int 1)).property "lines_count" (.int 1)).metric
    "size" 1.7e308).metric "lines" 3.0

/-- Storage with that document. -/
def laden : State Float := { store := Store.empty.mergeNodes [brimful] }

/-- Adds the same once more to both sums. -/
def doubling : Completion Float where
  position := 0
  pair := ⟨"scales", "doc"⟩
  outcome := .ran
  findings := (Findings.sum {} "doc" "size" 1.7e308).sum "doc" "lines" 3.0
  message := none

theorem exists_returns_doubling : ∃ summary, Returns (Commit.pass [doubling] 1 10) laden summary
    ((Commit.pass [doubling] 1 10).run laden).2 := by
  have hanswers : answers (Commit.pass [doubling] 1 10) laden (fun _ => true) = true := by
    decide +kernel
  obtain ⟨summary, hreturns, -⟩ := exists_returns hanswers
  exact ⟨summary, hreturns⟩

/-- One of the two sums is spoiled, and it is lost; the other one is kept. -/
theorem metrics_and_facts_of_commit_doubling : ∃ summary σ' n',
    Returns (Commit.pass [doubling] 1 10) laden summary σ' ∧
    σ'.store.node? "doc" = some n' ∧ n'.metrics.contains "size" = false ∧
    n'.metrics.contains "lines" = true ∧ laden.store.factCount ≤ σ'.store.factCount + 1 := by
  obtain ⟨summary, hreturns⟩ := exists_returns_doubling
  have hs : laden.store.Keyed := Store.keyed_empty.mergeNodes _
  have hfinite : laden.store.FiniteMetrics := Store.finiteMetrics_empty.mergeNodes _
  obtain ⟨-, hmetrics, hfacts⟩ := metrics_and_facts_of_commit hs hfinite hreturns
  have hdoc : (laden.store.node? "doc").any
      (fun n => n.metrics.contains "size" && n.metrics.contains "lines") = true := by decide +kernel
  obtain ⟨n, hn, hboth⟩ := (Option.any_eq_true _ _).mp hdoc
  obtain ⟨hnsize, hnlines⟩ := Bool.and_eq_true_iff.mp hboth
  obtain ⟨n', hn', hkept⟩ := hmetrics "doc" n hn
  have hsize : Commit.spoils laden.store [doubling] "doc" "size" = true := by decide +kernel
  have hlines : Commit.spoils laden.store [doubling] "doc" "lines" = false := by decide +kernel
  have hlost : ¬ n'.metrics.contains "size" = true := by
    rw [hkept "size" hnsize, hsize]
    exact Bool.noConfusion
  have hspoiled : Commit.spoiled laden.store [doubling] = 1 := by decide +kernel
  rw [hspoiled] at hfacts
  exact ⟨summary, _, n', hreturns, hn', Bool.eq_false_iff.mpr hlost,
    (hkept "lines" hnlines).mpr hlines, hfacts⟩

/-- **The fact counter can fall.**  A commit goes through, a metric is gone that a stored node had,
and there are fewer facts than before. -/
theorem factCount_falls_in_commit : ∃ summary σ',
    Returns (Commit.pass [doubling] 1 10) laden summary σ' ∧
    (laden.store.node? "doc").map (·.metrics.contains "size") = some true ∧
    (σ'.store.node? "doc").map (·.metrics.contains "size") = some false ∧
    σ'.store.factCount < laden.store.factCount := by
  obtain ⟨summary, hreturns⟩ := exists_returns_doubling
  refine ⟨summary, _, hreturns, ?_, ?_, ?_⟩
  · decide +kernel
  · decide +kernel
  · decide +kernel

end FactGraph
