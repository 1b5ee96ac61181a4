import FactGraph.Proofs.Runs

/-!
# What a stop for want of progress leaves behind

A run that stops for want of progress counts as a fixed point.  One would take that to mean that
nothing that is still pending could be done.  It does not: progress is measured by the fact counter,
which counts keys, while an analyzer may look at values.  `woken_of_noProgress` is a run in which
one analyzer writes a property over, the counter stands still, and another that waited for that very
value is never asked again.

Such a stop is a fixed point exactly when its last pass has WOKEN no pair, that is, has left none
that it could not do and that could be done afterwards (`deferred_of_noProgress_iff`).  Everything
else that could be done was done by the last pass or before it.  What it takes to wake a pair is
said too.  Unless a metric was lost, the counter stood still because nothing has grown; then the
node was there with the tags it has now, and what woke the pair is a new kind of the node, or a new
answer of the analyzer to values written over.
-/

namespace FactGraph

open Session

namespace Run

variable {γ μ : Type} {active : List (Active γ μ)} {context : γ} {s : Store μ}

theorem evaluate_ne_deferred {t : Task γ μ} : evaluate context t ≠ .deferred ↔ t.Applies := by
  rcases evaluate_cases context t with ⟨he, hnot⟩ | ⟨happ, message, he⟩ | ⟨happ, -, he⟩ <;> rw [he]
  · exact ⟨fun h => absurd rfl h, fun h => absurd h hnot⟩
  · simp [happ]
  · simp [happ]

/-- A pass over a store has woken a pair: the pair was not finished before and the pass could not do
it, but with what its node has become it could be done. -/
structure Woken (x : Active γ μ) (s : Store μ) (n : Node μ) : Prop where
  unfinished : s.ledger.contains ⟨x.analyzer.name, n.id⟩ = false
  blocked : Blocked x s n.id
  targets : x.analyzer.targetsKind n.kind = true
  applies : (⟨x, n⟩ : Task γ μ).Applies

/-- **A pass leaves behind exactly what it has woken.** -/
theorem woken_iff [Measure μ] (hs : s.Keyed) (hnames : (active.map (·.analyzer.name)).Nodup)
    {x : Active γ μ} (hx : x ∈ active) {number : Nat} {n : Node μ} :
    Woken x s n ↔ x.analyzer.targetsKind n.kind = true ∧
      (advance active context number s).ledger.contains ⟨x.analyzer.name, n.id⟩ = false ∧
      evaluate context ⟨x, n⟩ ≠ .deferred := by
  rw [evaluate_ne_deferred]
  constructor
  · intro h
    exact ⟨h.targets, pending_of_blocked hs hnames hx h.unfinished h.blocked, h.applies⟩
  · rintro ⟨htargets, hpending, happ⟩
    have hblocked : Blocked x s n.id := blocked_of_pending hs hx hpending
    refine ⟨Bool.eq_false_iff.mpr fun hheld => ?_, hblocked, htargets, happ⟩
    rw [(contains_ledger_advance number _).mpr (.inr hheld)] at hpending
    cases hpending

/-- A pair of a node that had the tags it has now could not be done because the kind of the node was
not looked at, or because it was put off. -/
theorem blocked_iff {x : Active γ μ} {id : String} {m n : Node μ} (hm : s.node? id = some m)
    (htags : m.tags = n.tags) (happ : (⟨x, n⟩ : Task γ μ).Applies) :
    Blocked x s id ↔
      x.analyzer.targetsKind m.kind = false ∨ x.analyzer.supports m = .ok false := by
  constructor
  · intro hblocked
    cases htargets : x.analyzer.targetsKind m.kind with
    | false => exact .inl rfl
    | true =>
      refine .inr (Classical.byContradiction fun hsupports => ?_)
      refine hblocked m hm htargets ⟨List.all_eq_true.mpr fun tag htag => ?_, hsupports⟩
      rw [Node.hasTag, htags]
      exact List.all_eq_true.mp happ.1 tag htag
  · intro hnot m' hm' htargets happ'
    rw [hm] at hm'
    cases hm'
    rcases hnot with hkind | hsupports
    · rw [hkind] at htargets
      cases htargets
    · exact happ'.2 hsupports

end Run

section Whole

variable {γ μ : Type} [Measure μ] {roster : Roster γ μ} {context : γ} {limits : Limits}
  {stop : Nat → Bool} {σ σ' : State μ} {report : Report} {trace : Trace μ}

/-- **A stop for want of progress is a fixed point exactly when the last pass has woken no pair.**
Everything that is still pending would be put off in the final store, for every analyzer that takes
part and every stored node of a kind it looks at, if and only if none of these pairs was woken.  If
the last pass lost no metric, every node was there before it with the same tags, and a pair was
woken exactly when it was not finished, could be done now and, before the last pass, the kind of the
node was not looked at or the analyzer put it off. -/
theorem deferred_of_noProgress_iff (hreg : roster.Registered) (hs : σ.store.Keyed)
    (hrun : Returns (runTraced roster context limits stop) σ (report, trace) σ')
    (hstop : report.stop = .noProgress) :
    ∃ last, trace.passes.getLast? = some last ∧
      ((∀ x ∈ Run.active roster context limits, ∀ n ∈ σ'.store.allNodes,
          x.analyzer.targetsKind n.kind = true →
          σ'.store.ledger.contains ⟨x.analyzer.name, n.id⟩ = false →
          Run.evaluate context ⟨x, n⟩ = .deferred) ↔
        ∀ x ∈ Run.active roster context limits, ∀ n ∈ σ'.store.allNodes,
          ¬ Run.Woken x last.store n) ∧
      (last.store.KeepsMetrics σ'.store →
        ∀ x ∈ Run.active roster context limits, ∀ n ∈ σ'.store.allNodes,
          ∃ m, last.store.node? n.id = some m ∧ m.tags = n.tags ∧
            (Run.Woken x last.store n ↔
              last.store.ledger.contains ⟨x.analyzer.name, n.id⟩ = false ∧
              x.analyzer.targetsKind n.kind = true ∧ (⟨x, n⟩ : Run.Task γ μ).Applies ∧
              (x.analyzer.targetsKind m.kind = false ∨ x.analyzer.supports m = .ok false))) := by
  obtain ⟨rfl, hstore, hends⟩ := returns_runTraced hs hrun
  obtain ⟨j, hlength, hfacts⟩ := hends.noProgress hstop
  have hnames : ((Run.active roster context limits).map (·.analyzer.name)).Nodup :=
    Run.nodup_active_names hreg.nodup_names
  have hkeyed : (Run.after (Run.active roster context limits) context σ.store j).Keyed :=
    Run.keyed_after hs j
  have hkeyed' : σ'.store.Keyed := hstore ▸ Run.keyed_after hs _
  rw [hlength, Run.after_succ] at hstore
  rw [hlength]
  refine ⟨_, Run.getLast?_traceOf j, ⟨fun hdeferred x hx n hn hwoken => ?_,
    fun hnone x hx n hn htargets hpending => ?_⟩, fun hmetrics x hx n hn => ?_⟩
  · obtain ⟨htargets, hpending, hdone⟩ := (Run.woken_iff hkeyed hnames hx).mp hwoken
    exact hdone (hdeferred x hx n hn htargets (hstore ▸ hpending))
  · by_contra hdone
    rw [hstore] at hpending
    exact hnone x hx n hn ((Run.woken_iff hkeyed hnames hx).mpr ⟨htargets, hpending, hdone⟩)
  · have hnode : σ'.store.node? n.id = some n := hkeyed'.mem_allNodes.mp hn
    rw [hstore] at hnode hmetrics
    obtain ⟨m, hm, htags⟩ := Run.same_tags_of_factCount_eq hkeyed hmetrics hfacts hnode
    refine ⟨m, hm, htags, ?_, ?_⟩
    · intro h
      exact ⟨h.unfinished, h.targets, h.applies, (Run.blocked_iff hm htags h.applies).mp h.blocked⟩
    · rintro ⟨hopen, htargets, happ, hnot⟩
      exact ⟨hopen, (Run.blocked_iff hm htags happ).mpr hnot, htargets, happ⟩

end Whole

/-- Makes every document ready. -/
def promote : Analyzer Unit Float where
  name := "promote"
  inspect _ n := { findings := Findings.property {} n.id "state" (.str "ready"), verdict := .done }

/-- Publishes documents once they are ready. -/
def publish : Analyzer Unit Float where
  name := "publish"
  contract := { produces := KeySet.ofMembers ["published"] }
  supports n :=
    match n.properties.get? "state" with
    | some (.str "ready") => .ok true
    | _ => .ok false
  inspect _ n := { findings := Findings.tag {} n.id "published", verdict := .done }

/-- Those who make documents ready and those who publish them. -/
def desk : Roster Unit Float := ⟨[promote, publish]⟩

/-- A run of the desk. -/
def press : Session Float (Report × Trace Float) :=
  runTraced desk () { maxPasses := 9, batchSize := 1 } fun _ => false

/-- A single draft. -/
def draft : State Float :=
  { store := Store.empty.mergeNodes [(Node.new "doc" "file").property "state" (.str "draft")] }

/-- The draft is made ready, and the run stops. -/
theorem deferred_of_noProgress_iff_draft : ∃ report trace σ',
    Returns press draft (report, trace) σ' ∧ report.stop = .noProgress ∧
    ∃ last, trace.passes.getLast? = some last ∧
      ((∀ x ∈ Run.active desk () { maxPasses := 9, batchSize := 1 }, ∀ n ∈ σ'.store.allNodes,
          x.analyzer.targetsKind n.kind = true →
          σ'.store.ledger.contains ⟨x.analyzer.name, n.id⟩ = false →
          Run.evaluate () ⟨x, n⟩ = .deferred) ↔
        ∀ x ∈ Run.active desk () { maxPasses := 9, batchSize := 1 }, ∀ n ∈ σ'.store.allNodes,
          ¬ Run.Woken x last.store n) := by
  have hanswers : answers press draft (fun a => a.1.stop = .noProgress) = true := by decide +kernel
  obtain ⟨⟨report, trace⟩, hrun, hstop⟩ := exists_returns hanswers
  have hstop : report.stop = .noProgress := of_decide_eq_true hstop
  have hs : draft.store.Keyed := Store.keyed_empty.mergeNodes _
  obtain ⟨last, hlast, hiff, -⟩ := deferred_of_noProgress_iff ⟨desk.analyzers, rfl⟩ hs hrun hstop
  exact ⟨report, trace, _, hrun, hstop, last, hlast, hiff⟩

/-- **A stop for want of progress need not be a fixed point**: it is reported as one while a pair
that is still pending could be done. -/
theorem woken_of_noProgress : ∃ report trace σ', Returns press draft (report, trace) σ' ∧
    report.stop = .noProgress ∧ report.stop.isFixedPoint = true ∧
    ∃ x ∈ Run.active desk () { maxPasses := 9, batchSize := 1 }, ∃ n ∈ σ'.store.allNodes,
      x.analyzer.targetsKind n.kind = true ∧
        σ'.store.ledger.contains ⟨x.analyzer.name, n.id⟩ = false ∧
        Run.evaluate () ⟨x, n⟩ ≠ .deferred := by
  have hanswers : answers press draft (fun a => a.1.stop = .noProgress) = true := by decide +kernel
  have hwoken : ((press.run draft).2.store.allNodes.any fun n =>
      publish.targetsKind n.kind &&
        (!(press.run draft).2.store.ledger.contains ⟨publish.name, n.id⟩ &&
          !(Run.evaluate () ⟨⟨1, publish⟩, n⟩).isDeferred)) = true := by decide +kernel
  obtain ⟨⟨report, trace⟩, hrun, hstop⟩ := exists_returns hanswers
  have hstop : report.stop = .noProgress := of_decide_eq_true hstop
  obtain ⟨n, hn, htest⟩ := List.any_eq_true.mp hwoken
  rw [Bool.and_eq_true, Bool.and_eq_true, Bool.not_eq_true', Bool.not_eq_true'] at htest
  refine ⟨report, trace, _, hrun, hstop, by rw [hstop]; rfl, ⟨1, publish⟩,
    Run.mem_active.mpr ⟨rfl, rfl, rfl⟩, n, hn, htest.1, htest.2.1, fun h => ?_⟩
  rw [h] at htest
  cases htest.2.2

end FactGraph
