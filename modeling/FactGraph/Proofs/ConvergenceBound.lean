import FactGraph.Proofs.Runs

/-!
# Without circles a run ends within its depth

The depth of a plan is the number of analyzers on the longest chain of dependencies.  It is computed
from declarations alone, and a run does not look at it.  Still, if analyzers keep to what they
declare and no dependency goes round in a circle, a run makes at most one pass more than the depth.

The two are tied by ranks: `Plan.exists_rank` numbers the positions from one to the depth so that
every dependency goes up.  The claim about a run is then that a pair is finished in an early pass or
never: in the pass with index `i`, counted from zero, only analyzers of a rank above `i` finish
anything (`Run.lt_rank_of_applies`).  For a pair that applies in a pass and did not in the one
before misses nothing but a tag there, that tag was given in the one before, and whoever gave it
produces what the pair consumes and has a lower rank.  So the pass whose index is the depth finishes
nothing, and a pass that finishes nothing adds no fact.
-/

namespace FactGraph

open Session

/-! ## 1. Keeping to what is declared -/

/-- Analyzers keep to what they declare: they observe no nodes and give no tags but those they
produce and those of errors, and none waits for an error. -/
structure Roster.KeepsContracts {γ μ : Type} (roster : Roster γ μ) (context : γ) : Prop where
  observed : ∀ a ∈ roster.analyzers, ∀ n, (a.inspect context n).findings.observed = []
  produces : ∀ a ∈ roster.analyzers, ∀ n id tag, (a.inspect context n).findings.Gives id tag →
    a.contract.produces.contains tag = true ∨ tag = Findings.errorTag ∨
      tag = Findings.errorKey a.name
  consumes : ∀ a ∈ roster.analyzers, a.contract.consumes.contains Findings.errorTag = false ∧
    ∀ b ∈ roster.analyzers, a.contract.consumes.contains (Findings.errorKey b.name) = false

/-- In all passes of a run analyzers answer alike, for each id, whether they put a node off. -/
def Trace.Steady {γ μ : Type} (t : Trace μ) (roster : Roster γ μ) : Prop :=
  ∀ a ∈ roster.analyzers, ∀ p ∈ t.passes, ∀ q ∈ t.passes, ∀ n ∈ p.store.allNodes,
    ∀ m ∈ q.store.allNodes, n.id = m.id → (a.supports n = .ok false ↔ a.supports m = .ok false)

namespace Run

variable {γ μ : Type} {roster : Roster γ μ} {context : γ} {limits : Limits}

/-- Who produces what another consumes comes before it. -/
theorem edge_of_produces {x y : Active γ μ} (hx : x ∈ active roster context limits)
    (hy : y ∈ active roster context limits) {tag : String}
    (hproduces : x.analyzer.contract.produces.contains tag = true)
    (hconsumes : tag ∈ y.analyzer.contract.consumes.members) :
    Plan.Edge roster.declarations x.position y.position := by
  have hdeclared : ∀ {z : Active γ μ}, z ∈ active roster context limits →
      roster.declarations[z.position]? = some z.analyzer.declaration := by
    intro z hz
    rw [Roster.declarations, List.getElem?_map, (mem_active.mp hz).1]
    rfl
  refine Plan.edge_iff.mpr ⟨.tag tag, Declarations.tag_mem_links.mpr ⟨?_, ?_⟩⟩
  · rw [Declarations.producesAt, hdeclared hx]
    exact hproduces
  · rw [Declarations.consumesAt, hdeclared hy]
    exact KeySet.mem_members.mp hconsumes

theorem quiet_active (h : roster.KeepsContracts context) :
    Quiet (active roster context limits) context :=
  fun x hx => h.observed x.analyzer (analyzer_mem hx)

/-- What is given in a pass and consumed by someone is produced by whoever gave it. -/
theorem produces_of_gives (h : roster.KeepsContracts context) {t u : Task γ μ}
    (ht : t.active ∈ active roster context limits) (hu : u.active ∈ active roster context limits)
    {c : Completion μ} (hc : (evaluate context u).completion? = some c) {id tag : String}
    (hgives : c.findings.Gives id tag)
    (hconsumes : tag ∈ t.active.analyzer.contract.consumes.members) :
    u.active.analyzer.contract.produces.contains tag = true := by
  have hcontains := KeySet.mem_members.mp hconsumes
  have hnoerror := h.consumes t.active.analyzer (analyzer_mem ht)
  have hnot : ¬ (tag = Findings.errorTag ∨ tag = Findings.errorKey u.active.analyzer.name) := by
    rintro (rfl | rfl)
    · rw [hnoerror.1] at hcontains
      cases hcontains
    · rw [hnoerror.2 _ (analyzer_mem hu)] at hcontains
      cases hcontains
  rcases findings_of_completion hc with hf | hf | ⟨message, hf⟩ <;> rw [hf] at hgives
  · exact (h.produces _ (analyzer_mem hu) _ _ _ hgives).resolve_right hnot
  · obtain ⟨p, hp, -⟩ := hgives
    cases hp
  · exact absurd (Findings.tag_of_gives_failure hgives) hnot

/-! ## 2. Pairs finish early or never -/

section Bound

variable [Measure μ] {s : Store μ}

/-- In the first passes analyzers answer alike, for each id, whether they put a node off. -/
def SteadyFor (active : List (Active γ μ)) (context : γ) (s : Store μ) (n : Nat) : Prop :=
  ∀ x ∈ active, ∀ i < n, ∀ j < n, ∀ id a b, (after active context s i).node? id = some a →
    (after active context s j).node? id = some b →
    (x.analyzer.supports a = .ok false ↔ x.analyzer.supports b = .ok false)

/-- What newly applies in a pass misses just a tag in the pass before. -/
theorem exists_missing_tag {active : List (Active γ μ)} (hquiet : Quiet active context)
    (hs : s.Keyed) {n i : Nat} (hsteady : SteadyFor active context s n) (hi : i + 1 < n)
    {t : Task γ μ} (ht : t ∈ agenda active (after active context s (i + 1))) (happ : t.Applies) :
    ∃ a, (after active context s i).node? t.node.id = some a ∧
      ∃ tag ∈ t.active.analyzer.contract.consumes.members, a.hasTag tag = false := by
  obtain ⟨hactive, hnode, htargets, hledger⟩ := (mem_agenda (keyed_after hs (i + 1))).mp ht
  obtain ⟨a, ha, hkind⟩ := exists_node?_between hquiet hs hnode i
  -- had it applied before, the ledger would hold it
  have hblocked : Blocked t.active (after active context s i) t.node.id :=
    blocked_of_pending (keyed_after hs i) hactive hledger
  have hsupports : t.active.analyzer.supports a ≠ .ok false := fun h =>
    happ.2 ((hsteady _ hactive i (by omega) (i + 1) hi _ _ _ ha hnode).mp h)
  refine ⟨a, ha, ?_⟩
  by_contra hall
  refine hblocked a ha (hkind ▸ htargets) ⟨List.all_eq_true.mpr fun tag htag => ?_, hsupports⟩
  by_contra hmissing
  exact hall ⟨tag, htag, Bool.eq_false_iff.mpr hmissing⟩

/-- **Pairs finish early or never**: in the pass with index `i` only analyzers of a rank above `i`
finish anything. -/
theorem lt_rank_of_applies (h : roster.KeepsContracts context) (hs : s.Keyed) {rank : Nat → Nat}
    (hedge : ∀ i j, Plan.Edge roster.declarations i j → rank i < rank j)
    (hpos : ∀ i < roster.declarations.length, 0 < rank i) {n : Nat}
    (hsteady : SteadyFor (active roster context limits) context s n) {i : Nat} (hi : i < n)
    {t : Task γ μ}
    (ht : t ∈ agenda (active roster context limits)
      (after (active roster context limits) context s i))
    (happ : t.Applies) : i < rank t.active.position := by
  induction i generalizing t with
  | zero =>
    refine hpos _ ?_
    obtain ⟨hlt, -⟩ := List.getElem?_eq_some_iff.mp (mem_active.mp ((mem_agenda hs).mp ht).1).1
    rw [Roster.declarations, List.length_map]
    exact hlt
  | succ i ih =>
    have hquiet : Quiet (active roster context limits) context := quiet_active h
    have hkeyed : (after (active roster context limits) context s i).Keyed := keyed_after hs i
    obtain ⟨hactive, hnode, -⟩ := (mem_agenda (keyed_after hs (i + 1))).mp ht
    obtain ⟨a, ha, tag, htag, hmissing⟩ := exists_missing_tag hquiet hs hsteady hi ht happ
    have hnow : t.node.hasTag tag = true := List.all_eq_true.mp happ.1 tag htag
    rcases (hasTag_advance hquiet hkeyed ha hnode tag).mp hnow with hold | ⟨c, hc, hgives⟩
    · rw [hmissing] at hold
      cases hold
    · -- someone gave the tag in the pass before, and has a lower rank
      obtain ⟨u, hu, hcompletion⟩ := mem_completions.mp hc
      have huactive := ((mem_agenda hkeyed).mp hu).1
      have hproduces := produces_of_gives h hactive huactive hcompletion hgives htag
      have hlower := hedge _ _ (edge_of_produces huactive hactive hproduces htag)
      have hearlier := ih (by omega) hu ((exists_completion context).mp ⟨c, hcompletion⟩)
      omega

/-- The pass whose index is the depth adds no fact. -/
theorem factCount_at_depth (h : roster.KeepsContracts context)
    (hacyclic : (Plan.ofDeclarations roster.declarations).hasCycles = false) (hs : s.Keyed)
    {n : Nat} (hsteady : SteadyFor (active roster context limits) context s n)
    (hdepth : (Plan.ofDeclarations roster.declarations).depth < n) :
    (after (active roster context limits) context s
        ((Plan.ofDeclarations roster.declarations).depth + 1)).factCount =
      (after (active roster context limits) context s
        (Plan.ofDeclarations roster.declarations).depth).factCount := by
  obtain ⟨rank, hedge, hrank⟩ :=
    Plan.exists_rank (Plan.ofDeclarations_eq_greedy roster.declarations ▸ hacyclic)
  rw [← Plan.ofDeclarations_eq_greedy] at hrank
  have hkeyed : (after (active roster context limits) context s
    (Plan.ofDeclarations roster.declarations).depth).Keyed := keyed_after hs _
  rw [after_succ, advance_of_finishing_nil]
  rw [List.eq_nil_iff_forall_not_mem]
  intro c hc
  obtain ⟨t, ht, hcompletion⟩ := mem_completions.mp hc
  have hlow := lt_rank_of_applies h hs hedge (fun i hi => (hrank i hi).1) hsteady hdepth ht
    ((exists_completion context).mp ⟨c, hcompletion⟩)
  obtain ⟨hlt, -⟩ := List.getElem?_eq_some_iff.mp (mem_active.mp ((mem_agenda hkeyed).mp ht).1).1
  have hhigh := (hrank t.active.position (by rwa [Roster.declarations, List.length_map])).2
  omega

end Bound

end Run

/-! ## 3. The bound -/

section Whole

variable {γ μ : Type} [Measure μ] {roster : Roster γ μ} {context : γ} {σ : State μ}

theorem Run.steadyFor_of_trace {active : List (Run.Active γ μ)} {s : Store μ} (hs : s.Keyed)
    (hactive : ∀ x ∈ active, x.analyzer ∈ roster.analyzers) {n : Nat}
    (h : (Run.traceOf active context s n).Steady roster) : Run.SteadyFor active context s n := by
  intro x hx i hi j hj id a b ha hb
  have hlog : ∀ k < n, Run.passLog active context s k ∈ (Run.traceOf active context s n).passes :=
    fun k hk => List.mem_map_of_mem (List.mem_range.mpr hk)
  have hkeyed : ∀ k, (Run.after active context s k).Keyed := Run.keyed_after hs
  have haid : a.id = id := (hkeyed i).own id a ha
  have hbid : b.id = id := (hkeyed j).own id b hb
  refine h x.analyzer (hactive x hx) _ (hlog i hi) _ (hlog j hj) a ?_ b ?_ (haid.trans hbid.symm)
  · exact (hkeyed i).mem_allNodes.mpr (haid ▸ ha)
  · exact (hkeyed j).mem_allNodes.mpr (hbid ▸ hb)

/-- **Without circles a run ends within its depth.**  If no dependencies go round in a circle and
analyzers keep to what they declare, then, whatever the store and its ledger hold, a run in which
nobody changes their mind about an id makes at most one pass more than the depth of the plan; and if
its ceiling allows that many and it is not asked to stop, it stops at a fixed point.  It does answer
if storage does not fail. -/
theorem passes_le_depth (limits : Limits) (stop : Nat → Bool) (hs : σ.store.Keyed)
    (hacyclic : (Plan.ofDeclarations roster.declarations).hasCycles = false)
    (hkeeps : roster.KeepsContracts context) :
    (σ.Reliable → ∃ report trace σ',
      Returns (runTraced roster context limits stop) σ (report, trace) σ') ∧
    ∀ report trace σ', Returns (runTraced roster context limits stop) σ (report, trace) σ' →
      trace.Steady roster →
      report.passes.length ≤ (Plan.ofDeclarations roster.declarations).depth + 1 ∧
      ((Plan.ofDeclarations roster.declarations).depth + 1 ≤ limits.maxPasses →
        report.stop ≠ .cancelled → report.stop = .converged ∨ report.stop = .noProgress) := by
  constructor
  · intro hσ
    obtain ⟨report, σ', hrun⟩ := exists_returns_run roster context limits stop hs hσ
    obtain ⟨trace, hrun⟩ := returns_run_iff.mp hrun
    exact ⟨report, trace, σ', hrun⟩
  · intro report trace σ' hrun hsteady
    obtain ⟨rfl, -, hends⟩ := returns_runTraced hs hrun
    have hsteady := Run.steadyFor_of_trace hs (fun x hx => Run.analyzer_mem hx) hsteady
    have hflat := Run.factCount_at_depth hkeeps hacyclic hs hsteady
    generalize (Plan.ofDeclarations roster.declarations).depth = depth at hflat ⊢
    constructor
    · by_contra hlong
      exact (hends.underway depth (by omega)).2 (hflat (by omega))
    · intro hceiling hcancelled
      cases hstop : report.stop with
      | converged => exact .inl rfl
      | noProgress => exact .inr rfl
      | cancelled => exact absurd hstop hcancelled
      | passCeiling =>
        -- the last pass allowed would have added a fact
        obtain ⟨hall, hunderway, -⟩ := hends.passCeiling hstop
        exact absurd (hflat (by omega)) (hunderway depth (by omega)).2

end Whole

/-- A chain of two rules, and one that waits for what nobody produces. -/
def chain : Roster Unit Float :=
  ⟨[Analyzer.rule "never" ["missing"] ["done"], Analyzer.rule "second" ["one"] ["two"],
    Analyzer.rule "first" [] ["one"]]⟩

theorem Analyzer.produces_of_gives_rule {γ μ : Type} (name : String) (consumes adds : List String)
    (context : γ) (n : Node μ) (id tag : String)
    (h : ((rule name consumes adds : Analyzer γ μ).inspect context n).findings.Gives id tag) :
    (rule name consumes adds : Analyzer γ μ).contract.produces.contains tag = true :=
  (KeySet.contains_foldl_add adds ∅ tag).mpr (.inl (Findings.gives_tagged.mp h).2)

/-- The chain has depth two, and its run makes three passes: the bound is reached. -/
theorem passes_le_depth_chain :
    (Plan.ofDeclarations chain.declarations).hasCycles = false ∧
    (Plan.ofDeclarations chain.declarations).depth = 2 ∧
    ∃ report trace σ',
      Returns (runTraced chain () { maxPasses := 3, batchSize := 1 } fun _ => false)
        { store := Store.empty.mergeNodes [Node.new "n" "number"] } (report, trace) σ' ∧
      report.passes.length = 3 ∧ report.passes.length ≤ 2 + 1 ∧
      (report.stop = .converged ∨ report.stop = .noProgress) := by
  let limits : Limits := { maxPasses := 3, batchSize := 1 }
  let σ : State Float := { store := Store.empty.mergeNodes [Node.new "n" "number"] }
  have hacyclic : (Plan.ofDeclarations chain.declarations).hasCycles = false := by decide +kernel
  have hdepth : (Plan.ofDeclarations chain.declarations).depth = 2 := by decide +kernel
  have hrules : ∀ a ∈ chain.analyzers, ∃ name consumes adds,
      a = Analyzer.rule name consumes adds := by
    intro a ha
    fin_cases ha <;> exact ⟨_, _, _, rfl⟩
  have hkeeps : chain.KeepsContracts () := by
    refine ⟨fun a ha n => ?_, fun a ha n id tag hgives => ?_, by decide +kernel⟩
    · obtain ⟨name, consumes, adds, rfl⟩ := hrules a ha
      exact Findings.observed_tagged _ _
    · obtain ⟨name, consumes, adds, rfl⟩ := hrules a ha
      exact .inl (Analyzer.produces_of_gives_rule name consumes adds () n id tag hgives)
  have hanswers : answers (runTraced chain () limits fun _ => false) σ
      (fun a => a.1.passes.length = 3 ∧ a.1.stop ≠ .cancelled) = true := by decide +kernel
  obtain ⟨⟨report, trace⟩, hrun, htest⟩ := exists_returns hanswers
  obtain ⟨hlength, hstop⟩ := of_decide_eq_true htest
  have hsteady : trace.Steady chain := by
    intro a ha p _ q _ n _ m _ _
    obtain ⟨name, consumes, adds, rfl⟩ := hrules a ha
    exact Iff.rfl
  have hs : σ.store.Keyed := Store.keyed_empty.mergeNodes _
  obtain ⟨-, hbound⟩ := passes_le_depth limits (fun _ => false) hs hacyclic hkeeps
  obtain ⟨hle, hfixed⟩ := hbound report trace _ hrun hsteady
  rw [hdepth] at hle hfixed
  exact ⟨hacyclic, hdepth, report, trace, _, hrun, hlength, hle, hfixed (Nat.le_refl 3) hstop⟩

end FactGraph
