import FactGraph.Proofs.Courses

/-!
# Neither the order of evaluation nor the size of batches shows

The pairs of a pass may be evaluated in any order, on one thread or on many, and what they find is
written in batches of any size.  Nothing of that is left in the graph.

A commit sorts its results before it does anything else, and no two results of a pass have the same
place in that order.  So a commit is the same SESSION whatever order its results come in
(`Commit.pass_eq_of_perm`), failing calls included.  Batches are another matter: two sizes make
different calls.  But the store that a commit leaves does not mention them, and of its report only
their number does (`Commit.unbatched_answer`, `Commit.batchesCommitted_summary`).

Everything else that a pass takes from its evaluations is a count, a set or a test
(`Run.computes_onePass_of_perm`).  `Run.loopArranged` is the loop in which every pass is evaluated in
an order of its own, and it follows the course of the loop as it is (`Run.computes_loopArranged`).
What does show is the order in which failures are listed, and nothing else
(`commit_and_run_in_any_order`).
-/

namespace FactGraph

open Session

/-- What a commit did, apart from the number of its batches. -/
def CommitSummary.unbatched (c : CommitSummary) : CommitSummary := { c with batchesCommitted := 0 }

/-- What happened in a pass, apart from the number of batches. -/
def PassSummary.unbatched (p : PassSummary) : PassSummary := { p with commit := p.commit.unbatched }

/-! ## 1. The order of results -/

namespace Commit

variable {μ : Type} {results results' : List (Completion μ)}

/-- The place of a result in the order of writing. -/
def place (c : Completion μ) : Nat × String := (c.position, c.pair.node)

theorem before_iff {a b : Completion μ} :
    before a b = true ↔ toLex (place a) ≤ toLex (place b) := by
  rw [Prod.Lex.toLex_le_toLex]
  simp [before, place]

theorem pairwise_mergeSort (results : List (Completion μ)) :
    (results.mergeSort before).Pairwise fun a b => before a b = true := by
  refine List.pairwise_mergeSort (fun a b c hab hbc => ?_) (fun a b => ?_) results
  · rw [before_iff] at hab hbc ⊢
    exact hab.trans hbc
  · rw [Bool.or_eq_true, before_iff, before_iff]
    exact le_total _ _

/-- Results with places of their own are sorted in one way. -/
theorem mergeSort_eq_of_perm (hperm : results.Perm results') (hplaces : (results.map place).Nodup) :
    results.mergeSort before = results'.mergeSort before := by
  refine List.Perm.eq_of_pairwise ?_ (pairwise_mergeSort results) (pairwise_mergeSort results') ?_
  · intro a b ha hb hab hba
    rw [before_iff] at hab hba
    have hplace : place a = place b := toLex.injective (le_antisymm hab hba)
    have ha : a ∈ results := (List.mergeSort_perm results before).mem_iff.mp ha
    have hb : b ∈ results' := (List.mergeSort_perm results' before).mem_iff.mp hb
    exact List.inj_on_of_nodup_map hplaces ha (hperm.mem_iff.mpr hb) hplace
  · exact (List.mergeSort_perm results before).trans
      (hperm.trans (List.mergeSort_perm results' before).symm)

/-- **A commit does not see the order of its results**: it makes the same calls. -/
theorem pass_eq_of_perm [Measure μ] (hperm : results.Perm results')
    (hplaces : (results.map place).Nodup) (number size : Nat) :
    pass results number size = pass results' number size := by
  rw [pass, pass, mergeSort_eq_of_perm hperm hplaces]

/-! ## 2. The size of batches -/

/-- **The number of batches**: a size of zero counts as one. -/
theorem length_batches {α : Type} (size : Nat) (xs : List α) :
    (batches size xs).length = xs.length ⌈/⌉ max size 1 := by
  induction xs using batches.induct size with
  | case1 =>
    rw [batches]
    simp
  | case2 x rest ih =>
    have hsize : size - 1 = max size 1 - 1 := by omega
    have hpos : 0 < max size 1 := by omega
    rw [batches, List.length_cons, ih, List.length_drop, List.length_cons, hsize,
      Nat.ceilDiv_eq_add_pred_div, Nat.ceilDiv_eq_add_pred_div]
    generalize max size 1 = b at hpos
    -- the first batch takes `b` of the list, or all of it
    rcases Nat.lt_or_ge rest.length (b - 1) with hshort | hlong
    · rw [show rest.length - (b - 1) + b - 1 = b - 1 by omega, Nat.div_eq_of_lt (by omega),
        show rest.length + 1 + b - 1 = rest.length + b by omega, Nat.add_div_right _ hpos,
        Nat.div_eq_of_lt (by omega)]
    · rw [show rest.length - (b - 1) + b - 1 = rest.length by omega,
        show rest.length + 1 + b - 1 = rest.length + b by omega, Nat.add_div_right _ hpos]

section Batches

variable [Measure μ]

/-- The edges that some results ask for and whose ends a store holds. -/
def live (s : Store μ) (results : List (Completion μ)) : List Edge :=
  (results.flatMap (·.findings.edges)).filter s.holdsEnds

omit [Measure μ] in
theorem edges_perm (results : List (Completion μ)) :
    (edges results).Perm (results.flatMap (·.findings.edges)) :=
  (List.mergeSort_perm results before).flatMap_right _

omit [Measure μ] in
theorem length_filter_edges (s : Store μ) (results : List (Completion μ)) :
    ((edges results).filter s.holdsEnds).length = (live s results).length :=
  ((edges_perm results).filter _).length_eq

theorem contains_left (s : Store μ) (results : List (Completion μ)) (number : Nat) (id : String) :
    (left s results number).contains id = (written s results).contains id := by
  rw [left]
  split
  · exact Store.contains_addEdges (written s results) _ id
  · exact Store.contains_addEdges (written s results) _ id

/-- The number of batches follows from what is written. -/
theorem batchesCommitted_summary (s : Store μ) (results : List (Completion μ)) (number size : Nat) :
    (summary s results number size).batchesCommitted =
      (summary s results number size).nodesWritten ⌈/⌉ max size 1 +
        (live (left s results number) results).length ⌈/⌉ max size 1 := by
  have hends : (left s results number).holdsEnds = (written s results).holdsEnds := by
    funext e
    rw [Store.holdsEnds, Store.holdsEnds, contains_left, contains_left]
  rw [summary, ← length_filter_edges, hends]
  dsimp only
  rw [length_batches, length_batches]

/-- Apart from the number of batches, what a commit answers does not depend on their size. -/
theorem unbatched_answer (s : Store μ) (results : List (Completion μ)) (number size size' : Nat) :
    (answer s results number size').map CommitSummary.unbatched =
      (answer s results number size).map CommitSummary.unbatched := by
  rw [answer, answer]
  split
  · rfl
  · rfl

/-- If storage does not fail, a commit does what it means. -/
theorem exists_run_pass {σ : State μ} (hσ : σ.Reliable) (results : List (Completion μ))
    (number size : Nat) :
    ∃ σ', (pass results number size).run σ = (answer σ.store results number size, σ') ∧
      σ'.store = left σ.store results number := by
  obtain ⟨σ', hrun, hcore, -⟩ :=
    (computes_pass results number size σ.store σ.cancelled).run_eq (σ := σ) rfl hσ
  exact ⟨σ', hrun, congrArg Core.store hcore⟩

/-- If storage does not fail, a commit of results about stored nodes goes through. -/
theorem exists_returns_pass {σ : State μ} (hσ : σ.Reliable) (hs : σ.store.Keyed)
    {results : List (Completion μ)} (h : ∀ c ∈ results, σ.store.contains c.pair.node = true)
    (number size : Nat) :
    ∃ σ', Returns (pass results number size) σ (summary σ.store results number size) σ' := by
  obtain ⟨σ', hrun, -⟩ := exists_run_pass hσ results number size
  rw [answer, grounded_of_contains hs h] at hrun
  exact ⟨σ', hrun⟩

end Batches

end Commit

/-! ## 3. Passes in any order -/

namespace Run

variable {γ μ : Type}

/-- An order in which the tasks of each pass are evaluated. -/
structure Arrangement (γ μ : Type) where
  arrange : Nat → List (Task γ μ) → List (Task γ μ)
  perm : ∀ number tasks, (arrange number tasks).Perm tasks

/-- The order in which the tasks are listed. -/
def Arrangement.asListed : Arrangement γ μ := ⟨fun _ tasks => tasks, fun _ _ => List.Perm.refl _⟩

theorem completed_of_perm {done done' : List (Completion μ)} (hperm : done'.Perm done)
    (completed : KeySet Pair) :
    done'.foldl (fun all c => all.add c.pair) completed =
      done.foldl (fun all c => all.add c.pair) completed := by
  have hfold : ∀ done : List (Completion μ), done.foldl (fun all c => all.add c.pair) completed =
      (done.map Completion.pair).foldl KeySet.add completed := fun done => List.foldl_map.symm
  refine KeySet.ext_contains fun pair => ?_
  rw [hfold, hfold, KeySet.contains_foldl_add, KeySet.contains_foldl_add,
    (hperm.map Completion.pair).mem_iff]

variable [Measure μ] {active : List (Active γ μ)} {context : γ} {limits : Limits} {s : Store μ}

omit [Measure μ] in
theorem completions_perm (context : γ) {tasks : List (Task γ μ)}
    (hperm : tasks.Perm (agenda active s)) :
    (completions context tasks).Perm (finishing active context s) :=
  (hperm.map (evaluate context)).filterMap Evaluation.completion?

/-- **A pass does not see the order of its tasks**, but for the order of the failures it lists. -/
theorem computes_onePass_of_perm (context : γ) (limits : Limits)
    (hactive : (active.map (·.position)).Nodup) (hs : s.Keyed) {tasks : List (Task γ μ)}
    (hperm : tasks.Perm (agenda active s)) (p : Progress) (b : Bool) :
    Computes (onePass context limits p tasks) ⟨s, b⟩
      (.ok ({ p.next active context limits s with
          diagnostics := p.diagnostics ++ (completions context tasks).filterMap failureOf? },
        summaryOf active context limits (p.passes.length + 1) s))
      ⟨advance active context (p.passes.length + 1) s, b || cancelling active context s⟩ := by
  have hevaluated := hperm.map (evaluate context)
  have hdone : (completions context tasks).Perm (finishing active context s) :=
    completions_perm context hperm
  have hplaces : ((completions context tasks).map Commit.place).Nodup :=
    (hdone.map Commit.place).nodup_iff.mpr (nodup_places_finishing hs hactive)
  have hcommit := Commit.computes_pass (finishing active context s) (p.passes.length + 1)
    limits.batchSize s (b || cancelling active context s)
  rw [Commit.answer, Commit.left, grounded_finishing hs,
    ← Commit.pass_eq_of_perm hdone hplaces] at hcommit
  have hcancels : (tasks.map (evaluate context)).any Evaluation.cancels = cancelling active context s :=
    hevaluated.any_eq
  have hcount : ∀ outcome, countOutcome (completions context tasks) outcome =
      countOutcome (finishing active context s) outcome :=
    fun outcome => (hdone.filter _).length_eq
  have hdeferred := (hevaluated.filter Evaluation.isDeferred).length_eq
  rw [← hcancels] at hcommit ⊢
  refine (Computes.factCount _).bind (Computes.cancelIf ?_)
  refine hcommit.bind ((Computes.factCount _).bind ?_)
  rw [Progress.next, summaryOf, ← hcount, ← hcount, ← hcount, ← hdeferred,
    ← completed_of_perm hdone]
  exact Computes.pure _ _

/-- Two runs stand at the same point, but for the size of their batches and for the order in which
they list failures.  `same` says that the batches are of one size. -/
structure Progress.Agrees (same : Prop) (p p' : Progress) : Prop where
  completed : p'.completed = p.completed
  unbatched : p'.passes.map PassSummary.unbatched = p.passes.map PassSummary.unbatched
  passes : same → p'.passes = p.passes
  diagnostics : p'.diagnostics.Perm p.diagnostics

namespace Progress.Agrees

variable {same : Prop} {p p' : Progress}

omit [Measure μ] in
theorem length (h : p.Agrees same p') : p'.passes.length = p.passes.length := by
  rw [← List.length_map PassSummary.unbatched, h.unbatched, List.length_map]

theorem refl (p : Progress) : p.Agrees same p := ⟨rfl, rfl, fun _ => rfl, List.Perm.refl _⟩

theorem note (h : p.Agrees same p') (d : Diagnostic) : (p.note d).Agrees same (p'.note d) :=
  ⟨h.completed, h.unbatched, h.passes, h.diagnostics.append_right [d]⟩

/-- Runs that stand at the same point do so after another pass. -/
theorem next {size : Nat} (h : p.Agrees (size = limits.batchSize) p') {failures : List Diagnostic}
    (hfailures : failures.Perm ((finishing active context s).filterMap failureOf?)) :
    (p.next active context limits s).Agrees (size = limits.batchSize)
      { p'.next active context { limits with batchSize := size } s with
        diagnostics := p'.diagnostics ++ failures } where
  completed := by
    rw [Progress.next, Progress.next, h.completed]
  unbatched := by
    show List.map _ (summaryOf active context _ (p'.passes.length + 1) s :: p'.passes) =
      List.map _ (summaryOf active context limits (p.passes.length + 1) s :: p.passes)
    rw [List.map_cons, List.map_cons, h.unbatched, h.length]
    rfl
  passes hsame := by
    show summaryOf active context _ (p'.passes.length + 1) s :: p'.passes =
      summaryOf active context limits (p.passes.length + 1) s :: p.passes
    rw [h.passes hsame, hsame]
  diagnostics := h.diagnostics.append hfailures

end Progress.Agrees

/-! ## 4. Runs in any order -/

/-- Repeat passes, each evaluated in an order of its own. -/
def loopArranged (w : Arrangement γ μ) (active : List (Active γ μ)) (context : γ) (limits : Limits)
    (stop : Nat → Bool) (left : Nat) (p : Progress) : Session μ (Progress × StopReason) := do
  if stop p.passes.length then Session.cancel
  if ← Session.isCancelled then
    return (p.note (cancelledDiagnostic p.passes.length), .cancelled)
  let snapshot ← Session.allNodes
  let tasks := pending active snapshot p.completed
  if tasks.isEmpty then return (p, .converged)
  match left with
  | 0 => return (p.note (ceilingDiagnostic limits.maxPasses tasks.length), .passCeiling)
  | left + 1 =>
    let (p, summary) ← onePass context limits p (w.arrange (p.passes.length + 1) tasks)
    if summary.factsAfter = summary.factsBefore then return (p, .noProgress)
    else loopArranged w active context limits stop left p
termination_by left

theorem loopArranged_asListed (active : List (Active γ μ)) (context : γ) (limits : Limits)
    (stop : Nat → Bool) (left : Nat) (p : Progress) :
    loopArranged .asListed active context limits stop left p =
      loop active context limits stop left p := by
  induction left generalizing p with
  | zero => rw [loopArranged, loop]
  | succ left ih =>
    rw [loopArranged, loop]
    simp only [ih]
    rfl

/-- **A loop follows its course in whatever order its passes are evaluated**, and with batches of
any size. -/
theorem computes_loopArranged (w : Arrangement γ μ) (hactive : (active.map (·.position)).Nodup)
    (context : γ) (limits : Limits) (size : Nat) (stop : Nat → Bool) (left : Nat) (p p' : Progress)
    (κ : Core μ) (hs : κ.store.Keyed) (hp : p.completed = κ.store.finished)
    (h : p.Agrees (size = limits.batchSize) p') :
    ∃ q, (course active context limits stop left p κ).1.1.Agrees (size = limits.batchSize) q ∧
      Computes (loopArranged w active context { limits with batchSize := size } stop left p') κ
        (.ok (q, (course active context limits stop left p κ).1.2))
        (course active context limits stop left p κ).2 := by
  -- on the passes that are left; the invariant is that both stand at the same point
  induction left using Nat.strong_induction_on generalizing p p' κ with
  | _ left ih =>
  obtain ⟨s, b⟩ := κ
  rw [loopArranged, course.eq_def, h.length]
  cases hc : (b || stop p.passes.length) with
  | true =>
    refine ⟨_, h.note _, Computes.cancelIf ((Computes.isCancelled _).bind ?_)⟩
    rw [hc]
    exact Computes.pure _ _
  | false =>
    have htasks : pending active s.allNodes p'.completed = agenda active s := by
      rw [h.completed, hp]
      rfl
    rw [if_neg Bool.false_ne_true]
    by_cases hempty : agenda active s = []
    · rw [if_pos hempty]
      refine ⟨p', h, computes_gate hc ?_⟩
      rw [htasks, hempty]
      exact Computes.pure _ _
    have hsome : ¬ (agenda active s).isEmpty = true := fun hnil => hempty (List.isEmpty_iff.mp hnil)
    rw [if_neg hempty]
    cases left with
    | zero =>
      refine ⟨_, h.note _, computes_gate hc ?_⟩
      rw [htasks]
      dsimp only
      rw [if_neg hsome]
      exact Computes.pure _ _
    | succ left =>
      have hperm := w.perm (p.passes.length + 1) (agenda active s)
      have hpass := computes_onePass_of_perm context { limits with batchSize := size } hactive hs
        hperm p' false
      have hnext := h.next ((completions_perm context hperm).filterMap failureOf?)
      -- whether to go on is read off a summary, and facts do not come in batches
      generalize hsummary : summaryOf active context { limits with batchSize := size } _ s = summary
        at hpass
      have hstill : summary.factsAfter = summary.factsBefore ↔
          (advance active context (p.passes.length + 1) s).factCount = s.factCount := by
        rw [← hsummary, h.length]
        exact Iff.rfl
      rw [h.length, Bool.false_or] at hpass
      dsimp only
      by_cases hfacts : (advance active context (p.passes.length + 1) s).factCount = s.factCount
      · rw [if_pos hfacts]
        refine ⟨_, hnext, computes_gate hc ?_⟩
        rw [htasks]
        dsimp only
        rw [if_neg hsome]
        refine hpass.bind ?_
        dsimp only
        rw [if_pos (hstill.mpr hfacts)]
        exact Computes.pure _ _
      · rw [if_neg hfacts]
        obtain ⟨q, hq, hrest⟩ := ih left (Nat.lt_succ_self left) (p.next active context limits s) _
          ⟨advance active context (p.passes.length + 1) s, cancelling active context s⟩
          (Commit.keyed_committed hs _ _) (completed_next active context limits hp _) hnext
        refine ⟨q, hq, computes_gate hc ?_⟩
        rw [htasks, if_neg hsome]
        refine hpass.bind ?_
        dsimp only
        rw [if_neg fun hsame => hfacts (hstill.mp hsame)]
        exact hrest

end Run

/-- Run all analyzers of a roster, every pass in an order of its own. -/
def runArranged {γ μ : Type} [Measure μ] (w : Run.Arrangement γ μ) (roster : Roster γ μ) (context : γ)
    (limits : Limits) (stop : Nat → Bool) : Session μ Report := do
  let declarations := roster.declarations
  let plan := Plan.ofDeclarations declarations
  let (active, notReady) := Run.activate roster context limits plan.order
  let completed ← Session.completedRuns
  let start : Run.Progress :=
    { completed, diagnostics := Roster.validate declarations ++ plan.diagnostics ++ notReady }
  let (final, reason) ← Run.loopArranged w active context limits stop limits.maxPasses start
  let unresolved ← Run.unresolved active final.completed
  return {
    passes := final.passes.reverse
    stop := reason
    diagnostics := final.diagnostics ++ unresolved.map Run.Unresolved.diagnostic
    order := active.map (·.analyzer.name)
    unresolved }

section Whole

variable {γ μ : Type} [Measure μ]

/-- Evaluated in the order in which tasks are listed, this is the run itself. -/
theorem runArranged_asListed (roster : Roster γ μ) (context : γ) (limits : Limits)
    (stop : Nat → Bool) :
    runArranged .asListed roster context limits stop = run roster context limits stop := by
  rw [runArranged, run]
  simp only [Run.loopArranged_asListed]

/-- **A run follows its course in whatever order its passes are evaluated.** -/
theorem computes_runArranged (w : Run.Arrangement γ μ) (roster : Roster γ μ) (context : γ)
    (limits : Limits) (size : Nat) (stop : Nat → Bool) {κ : Core μ} (hs : κ.store.Keyed)
    {ended : (Run.Progress × StopReason) × Core μ}
    (hended : Run.courseOf roster context limits stop κ = ended) {found : List Unresolved}
    (hfound : Computes (Run.unresolved (Run.active roster context limits) ended.1.1.completed)
      ended.2 (.ok found) ended.2) :
    ∃ q, ended.1.1.Agrees (size = limits.batchSize) q ∧
      Computes (runArranged w roster context { limits with batchSize := size } stop) κ
        (.ok (q.report (Run.active roster context limits) ended.1.2 found)) ended.2 := by
  have hpositions : ((Run.active roster context limits).map (·.position)).Nodup :=
    Run.nodup_active_positions
  obtain ⟨q, hq, hloop⟩ := Run.computes_loopArranged w hpositions context limits size stop
    limits.maxPasses (Run.start roster context limits κ.store)
    (Run.start roster context limits κ.store) κ hs rfl (Run.Progress.Agrees.refl _)
  rw [← Run.courseOf, hended] at hq hloop
  rw [← hq.completed] at hfound
  exact ⟨q, hq, (Computes.completedRuns _).bind
    (hloop.bind (hfound.bind (Computes.pure _ _)))⟩

/-- Two reports are the same, but for the number of batches and for the order of the diagnostics.
`same` says that the batches are of one size. -/
structure Report.Agrees (same : Prop) (r r' : Report) : Prop where
  unbatched : r'.passes.map PassSummary.unbatched = r.passes.map PassSummary.unbatched
  passes : same → r'.passes = r.passes
  stop : r'.stop = r.stop
  order : r'.order = r.order
  unresolved : r'.unresolved = r.unresolved
  diagnostics : r'.diagnostics.Perm r.diagnostics

omit [Measure μ] in
theorem Run.Progress.Agrees.report {same : Prop} {p p' : Run.Progress} (h : p.Agrees same p')
    (active : List (Run.Active γ μ)) (reason : StopReason) (found : List Unresolved) :
    (p.report active reason found).Agrees same (p'.report active reason found) where
  unbatched := by
    show p'.passes.reverse.map _ = p.passes.reverse.map _
    rw [List.map_reverse, List.map_reverse, h.unbatched]
  passes hsame := congrArg List.reverse (h.passes hsame)
  stop := rfl
  order := rfl
  unresolved := rfl
  diagnostics := h.diagnostics.append_right _

/-- **Neither the order of evaluation nor the size of batches shows**, if storage does not fail.
A commit of the same results in another order and in batches of another size leaves the same store and
answers the same, error or summary, but for the number of batches, which is what the sizes make it.  A
run in which every pass is evaluated in some order of its own leaves the same store and reports the
same passes. -/
theorem commit_and_run_in_any_order {σ : State μ} (hσ : σ.Reliable) :
    (∀ (results results' : List (Completion μ)) (number size size' : Nat),
      results.Perm results' → (results.map Commit.place).Nodup → ∃ answer answer' τ τ',
        (Commit.pass results number size).run σ = (answer, τ) ∧
        (Commit.pass results' number size').run σ = (answer', τ') ∧
        τ'.store = τ.store ∧
        answer'.map CommitSummary.unbatched = answer.map CommitSummary.unbatched ∧
        ∀ summary, answer = .ok summary → summary.batchesCommitted =
          summary.nodesWritten ⌈/⌉ max size 1 +
            (Commit.live τ.store results).length ⌈/⌉ max size 1) ∧
    ∀ (w : Run.Arrangement γ μ) (roster : Roster γ μ) (context : γ) (limits : Limits) (size : Nat)
      (stop : Nat → Bool), σ.store.Keyed → ∃ report report' τ τ',
        Returns (run roster context limits stop) σ report τ ∧
        Returns (runArranged w roster context { limits with batchSize := size } stop) σ report' τ' ∧
        τ'.store = τ.store ∧ report.Agrees (size = limits.batchSize) report' := by
  constructor
  · intro results results' number size size' hperm hplaces
    obtain ⟨τ, hτ, hstore⟩ := Commit.exists_run_pass hσ results number size
    obtain ⟨τ', hτ', hstore'⟩ := Commit.exists_run_pass hσ results number size'
    rw [Commit.pass_eq_of_perm hperm hplaces] at hτ'
    refine ⟨_, _, τ, τ', hτ, hτ', hstore'.trans hstore.symm, Commit.unbatched_answer _ _ _ _ _, ?_⟩
    intro summary hsummary
    rw [hstore, ← (Commit.of_answer_eq_ok hsummary).2]
    exact Commit.batchesCommitted_summary _ _ _ _
  · intro w roster context limits size stop hs
    obtain ⟨found, hfound⟩ := Run.computes_unresolved (Run.active roster context limits)
      (Run.courseOf roster context limits stop σ.core).1.1.completed _
    obtain ⟨τ, hτ, hcore, -⟩ :=
      (computes_run roster context limits stop hs rfl hfound).run_eq (σ := σ) rfl hσ
    obtain ⟨q, hq, hrun⟩ := computes_runArranged w roster context limits size stop hs rfl hfound
    obtain ⟨τ', hτ', hcore', -⟩ := hrun.run_eq (σ := σ) rfl hσ
    exact ⟨_, _, τ, τ', hτ, hτ', congrArg Core.store (hcore'.trans hcore.symm), hq.report _ _ _⟩

end Whole

/-- The last task first. -/
def Run.Arrangement.reversed {γ μ : Type} : Run.Arrangement γ μ :=
  ⟨fun _ tasks => tasks.reverse, fun _ tasks => tasks.reverse_perm⟩

/-- Sees a node, sets a property of it, adds to one of its sums, and has its own word on how it is
reached. -/
def rival (name : String) : Analyzer Unit Float where
  name := name
  inspect _ n :=
    { findings := (((Findings.observe {} (Node.new "c" "file")).property "c" "owner" (.str name)).sum
        "c" "claims" 1.5).edge ⟨n.id, "c", "near", some (.str name)⟩
      verdict := .done }

/-- A node that two rivals look at. -/
def contested : State Float := { store := Store.empty.mergeNodes [Node.new "a" "folder"] }

/-- What a rival has found on the contested node. -/
def claimed (position : Nat) (name : String) : Completion Float where
  position
  pair := ⟨name, "a"⟩
  outcome := .ran
  findings := ((rival name).inspect () (Node.new "a" "folder")).findings
  message := none

/-- Two rivals write the same new node and the same edge, each in its way: it does not matter which of
them is looked at first, nor whether all is written at once. -/
theorem commit_and_run_in_any_order_rivals :
    (∃ answer answer' τ τ',
      (Commit.pass [claimed 0 "x", claimed 1 "y"] 1 0).run contested = (answer, τ) ∧
      (Commit.pass [claimed 1 "y", claimed 0 "x"] 1 3).run contested = (answer', τ') ∧
      τ'.store = τ.store ∧
      answer'.map CommitSummary.unbatched = answer.map CommitSummary.unbatched) ∧
    ∃ report report' τ τ',
      Returns (run ⟨[rival "x", rival "y"]⟩ () { maxPasses := 9, batchSize := 0 } fun _ => false)
        contested report τ ∧
      Returns (runArranged .reversed ⟨[rival "x", rival "y"]⟩ () { maxPasses := 9, batchSize := 3 }
        fun _ => false) contested report' τ' ∧
      τ'.store = τ.store ∧ report.Agrees (3 = 0) report' := by
  have hreliable : contested.Reliable := fun _ _ _ => rfl
  have hperm : [claimed 0 "x", claimed 1 "y"].Perm [claimed 1 "y", claimed 0 "x"] := .swap _ _ _
  have hplaces : ([claimed 0 "x", claimed 1 "y"].map Commit.place).Nodup := by decide
  have hs : contested.store.Keyed := Store.keyed_empty.mergeNodes _
  constructor
  · obtain ⟨answer, answer', τ, τ', hpass, hpass', hstore, hanswer, -⟩ :=
      (commit_and_run_in_any_order (γ := Unit) hreliable).1 _ _ 1 0 3 hperm hplaces
    exact ⟨answer, answer', τ, τ', hpass, hpass', hstore, hanswer⟩
  · exact (commit_and_run_in_any_order hreliable).2 .reversed ⟨[rival "x", rival "y"]⟩ ()
      { maxPasses := 9, batchSize := 0 } 3 (fun _ => false) hs

end FactGraph
