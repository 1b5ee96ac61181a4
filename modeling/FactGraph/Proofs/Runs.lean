import FactGraph.Proofs.Passes

/-!
# Runs

A report tells how many pairs a pass finished, not which.  To speak about what a run evaluated, the
run is given a log: `runTraced` is the run that also notes, before each pass, the store, the pairs
it takes for finished and what it evaluates to an end.  The log is never read, and dropping it gives
the run back (`fst_runTraced`); so what is proved of traces is proved of runs (`returns_run_iff`).

A run that answers is an iteration of passes that was stopped at some number of them, and everything
in its trace is the same iteration (`traceOf`).  `Run.Ends` says what is known about that number for
each of the four reasons to stop.  Storage that does not fail makes every run answer
(`exists_returns_run`), so nothing here holds for want of runs.
-/

namespace FactGraph

open Session

/-! ## 1. Traces -/

/-- Look at the store without making a call. -/
def Session.peek {μ : Type} : Session μ (Store μ) := return (← get).store

/-- What a run did in one pass. -/
structure PassLog (μ : Type) where
  /-- The store at the beginning of the pass. -/
  store : Store μ
  /-- The pairs that the run took for finished. -/
  completed : KeySet Pair
  /-- What was evaluated to an end. -/
  completions : List (Completion μ)

/-- What a run did. -/
structure Trace (μ : Type) where
  passes : List (PassLog μ)
  /-- The pairs that the run took for finished at its end. -/
  completed : KeySet Pair
  /-- The store at the end. -/
  store : Store μ

/-- The pairs that a run evaluated to an end, in order. -/
def Trace.pairs {μ : Type} (t : Trace μ) : List Pair :=
  t.passes.flatMap fun log => log.completions.map Completion.pair

namespace Run

variable {γ μ : Type} [Measure μ]

/-- Repeat passes and keep a log. -/
def loopTraced (active : List (Active γ μ)) (context : γ) (limits : Limits) (stop : Nat → Bool)
    (left : Nat) (p : Progress) : Session μ ((Progress × StopReason) × List (PassLog μ)) := do
  if stop p.passes.length then Session.cancel
  if ← Session.isCancelled then
    return ((p.note (cancelledDiagnostic p.passes.length), .cancelled), [])
  let snapshot ← Session.allNodes
  let tasks := pending active snapshot p.completed
  if tasks.isEmpty then return ((p, .converged), [])
  match left with
  | 0 => return ((p.note (ceilingDiagnostic limits.maxPasses tasks.length), .passCeiling), [])
  | left + 1 =>
    let log : PassLog μ := ⟨← Session.peek, p.completed, completions context tasks⟩
    let (p, summary) ← onePass context limits p tasks
    if summary.factsAfter = summary.factsBefore then return ((p, .noProgress), [log])
    else
      let (ended, logs) ← loopTraced active context limits stop left p
      return (ended, log :: logs)
termination_by left

end Run

/-- Run all analyzers of a roster and keep a log. -/
def runTraced {γ μ : Type} [Measure μ] (roster : Roster γ μ) (context : γ) (limits : Limits)
    (stop : Nat → Bool) : Session μ (Report × Trace μ) := do
  let declarations := roster.declarations
  let plan := Plan.ofDeclarations declarations
  let (active, notReady) := Run.activate roster context limits plan.order
  let completed ← Session.completedRuns
  let start : Run.Progress :=
    { completed, diagnostics := Roster.validate declarations ++ plan.diagnostics ++ notReady }
  let ((final, reason), logs) ← Run.loopTraced active context limits stop limits.maxPasses start
  let unresolved ← Run.unresolved active final.completed
  let report : Report :=
    { passes := final.passes.reverse
      stop := reason
      diagnostics := final.diagnostics ++ unresolved.map Run.Unresolved.diagnostic
      order := active.map (·.analyzer.name)
      unresolved }
  return (report, ⟨logs, final.completed, ← Session.peek⟩)

section Erasure

variable {γ μ α : Type} [Measure μ] {roster : Roster γ μ} {context : γ} {limits : Limits}
  {stop : Nat → Bool}

omit [Measure μ] in
theorem peek_bind (m : Session μ α) : (Session.peek >>= fun _ => m) = m := rfl

theorem Run.fst_loopTraced (active : List (Run.Active γ μ)) (left : Nat) (p : Run.Progress) :
    Prod.fst <$> Run.loopTraced active context limits stop left p =
      Run.loop active context limits stop left p := by
  induction left generalizing p with
  | zero =>
    rw [Run.loopTraced, Run.loop]
    simp only [apply_ite (Prod.fst <$> ·), map_bind, map_pure]
  | succ left ih =>
    rw [Run.loopTraced, Run.loop]
    simp only [apply_ite (Prod.fst <$> ·), map_bind, map_pure, ← ih, peek_bind]
    simp only [map_eq_pure_bind]

/-- **Dropping the log gives the run back.** -/
theorem fst_runTraced (roster : Roster γ μ) (context : γ) (limits : Limits) (stop : Nat → Bool) :
    Prod.fst <$> runTraced roster context limits stop = run roster context limits stop := by
  rw [runTraced, run]
  simp only [map_bind, map_pure, ← Run.fst_loopTraced, peek_bind, bind_map_left]

omit [Measure μ] in
theorem returns_map {β : Type} {f : α → β} {m : Session μ α} {σ σ' : State μ} {b : β} :
    Returns (f <$> m) σ b σ' ↔ ∃ a, Returns m σ a σ' ∧ f a = b := by
  rw [map_eq_pure_bind, returns_bind]
  constructor
  · rintro ⟨a, σ'', hm, hpure⟩
    obtain ⟨rfl, rfl⟩ := returns_pure.mp hpure
    exact ⟨a, hm, rfl⟩
  · rintro ⟨a, hm, rfl⟩
    exact ⟨a, σ', hm, returns_pure.mpr ⟨rfl, rfl⟩⟩

/-- A run answers exactly when the traced run does, with the same report and state. -/
theorem returns_run_iff {σ σ' : State μ} {report : Report} :
    Returns (run roster context limits stop) σ report σ' ↔
      ∃ trace, Returns (runTraced roster context limits stop) σ (report, trace) σ' := by
  rw [← fst_runTraced, returns_map]
  constructor
  · rintro ⟨⟨report, trace⟩, h, rfl⟩
    exact ⟨trace, h⟩
  · rintro ⟨trace, h⟩
    exact ⟨(report, trace), h, rfl⟩

end Erasure

/-! ## 2. One pass of a run -/

namespace Run

variable {γ μ : Type} [Measure μ] {active : List (Active γ μ)} {context : γ} {limits : Limits}
  {stop : Nat → Bool} {s : Store μ}

omit [Measure μ] in
theorem computes_peek (κ : Core μ) : Computes Session.peek κ (.ok κ.store) κ where
  of_returns hσ h := by
    subst hσ
    cases h
    exact ⟨rfl, rfl⟩
  run_eq hσ hrel := by
    subst hσ
    exact ⟨_, rfl, rfl, hrel⟩

/-- The summary of a pass over a store. -/
def summaryOf (active : List (Active γ μ)) (context : γ) (limits : Limits) (number : Nat)
    (s : Store μ) : PassSummary :=
  let done := finishing active context s
  { pass := number
    factsBefore := s.factCount
    factsAfter := (advance active context number s).factCount
    ran := countOutcome done .ran
    skipped := countOutcome done .skipped
    failed := countOutcome done .failed
    deferred := (((agenda active s).map (evaluate context)).filter Evaluation.isDeferred).length
    commit := Commit.summary s done number limits.batchSize }

/-- Where a run stands after a pass over a store. -/
def Progress.next (p : Progress) (active : List (Active γ μ)) (context : γ) (limits : Limits)
    (s : Store μ) : Progress :=
  let done := finishing active context s
  { completed := done.foldl (fun done c => done.add c.pair) p.completed
    passes := summaryOf active context limits (p.passes.length + 1) s :: p.passes
    diagnostics := p.diagnostics ++ done.filterMap failureOf? }

/-- Whether a pass over a store asks the run to stop. -/
def cancelling (active : List (Active γ μ)) (context : γ) (s : Store μ) : Bool :=
  ((agenda active s).map (evaluate context)).any Evaluation.cancels

theorem computes_onePass (active : List (Active γ μ)) (context : γ) (limits : Limits)
    (hs : s.Keyed) (p : Progress) (b : Bool) :
    Computes (onePass context limits p (agenda active s)) ⟨s, b⟩
      (.ok (p.next active context limits s,
        summaryOf active context limits (p.passes.length + 1) s))
      ⟨advance active context (p.passes.length + 1) s, b || cancelling active context s⟩ := by
  have hcommit := Commit.computes_pass (finishing active context s) (p.passes.length + 1)
    limits.batchSize s (b || cancelling active context s)
  rw [Commit.answer, Commit.left, grounded_finishing hs] at hcommit
  refine (Computes.factCount _).bind (Computes.cancelIf ?_)
  refine hcommit.bind ((Computes.factCount _).bind ?_)
  exact Computes.pure _ _

/-- What a run takes for finished goes on agreeing with the ledger. -/
theorem completed_next (active : List (Active γ μ)) (context : γ) (limits : Limits) {p : Progress}
    (hp : p.completed = s.finished) (number : Nat) :
    (p.next active context limits s).completed = (advance active context number s).finished := by
  refine KeySet.ext_contains fun pair => ?_
  have hfold : (p.next active context limits s).completed =
      ((finishing active context s).map Completion.pair).foldl KeySet.add p.completed :=
    List.foldl_map.symm
  rw [hfold, KeySet.contains_foldl_add, hp, Store.contains_finished, Store.contains_finished,
    contains_ledger_advance]

/-! ## 3. The loop -/

/-- Every one of the first passes had something to do and added a fact. -/
def Underway (active : List (Active γ μ)) (context : γ) (s : Store μ) (n : Nat) : Prop :=
  ∀ i < n, agenda active (after active context s i) ≠ [] ∧
    (after active context s (i + 1)).factCount ≠ (after active context s i).factCount

/-- **How a run ends**: what is known, for each reason to stop, about the number of passes. -/
structure Ends (active : List (Active γ μ)) (context : γ) (s : Store μ) (ceiling n : Nat)
    (reason : StopReason) : Prop where
  le_ceiling : n ≤ ceiling
  /-- Every pass but the last one added a fact. -/
  underway : Underway active context s (n - 1)
  /-- The last pass had something to do. -/
  busy : ∀ m, n = m + 1 → agenda active (after active context s m) ≠ []
  converged : reason = .converged → agenda active (after active context s n) = []
  noProgress : reason = .noProgress → ∃ m, n = m + 1 ∧
    (after active context s (m + 1)).factCount = (after active context s m).factCount
  passCeiling : reason = .passCeiling → n = ceiling ∧ Underway active context s n ∧
    agenda active (after active context s n) ≠ []

/-- The log of a pass of the iteration. -/
def passLog (active : List (Active γ μ)) (context : γ) (s : Store μ) (i : Nat) : PassLog μ :=
  ⟨after active context s i, (after active context s i).finished,
    finishing active context (after active context s i)⟩

/-- A session goes on with the iteration after `k` passes and ends after `n`. -/
def GoesOn (active : List (Active γ μ)) (context : γ) (s : Store μ) (ceiling k : Nat) (b : Bool)
    (m : Session μ ((Progress × StopReason) × List (PassLog μ))) : Prop :=
  ∃ n q reason b', k ≤ n ∧
    Computes m ⟨after active context s k, b⟩
      (.ok ((q, reason), (List.range' k (n - k)).map (passLog active context s)))
      ⟨after active context s n, b'⟩ ∧
    q.passes.length = n ∧ q.completed = (after active context s n).finished ∧
    Ends active context s ceiling n reason

theorem goesOn_stop {ceiling k : Nat} {b : Bool} (p : Progress) (reason : StopReason) (b' : Bool)
    {m : Session μ ((Progress × StopReason) × List (PassLog μ))}
    (hm : Computes m ⟨after active context s k, b⟩ (.ok ((p, reason), []))
      ⟨after active context s k, b'⟩)
    (hk : p.passes.length = k) (hp : p.completed = (after active context s k).finished)
    (hends : Ends active context s ceiling k reason) : GoesOn active context s ceiling k b m := by
  refine ⟨k, p, reason, b', Nat.le_refl k, ?_, hk, hp, hends⟩
  rw [Nat.sub_self]
  exact hm

omit [Measure μ] in
/-- A run that is not asked to stop goes on with the nodes. -/
theorem computes_gate {α : Type} {b c : Bool} {m : List (Node μ) → Session μ α} {a : α}
    {r : Result α} {κ : Core μ} (hc : (b || c) = false)
    (hm : Computes (m s.allNodes) ⟨s, false⟩ r κ) :
    Computes
      (if c then Session.cancel >>= fun _ => Session.isCancelled >>= fun d =>
          if d then pure a else Session.allNodes >>= m
        else Session.isCancelled >>= fun d => if d then pure a else Session.allNodes >>= m)
      ⟨s, b⟩ r κ := by
  refine Computes.cancelIf ?_
  rw [hc]
  exact (Computes.isCancelled _).bind ((Computes.allNodes _).bind hm)

theorem Underway.mono {m n : Nat} (h : Underway active context s n) (hmn : m ≤ n) :
    Underway active context s m :=
  fun i hi => h i (Nat.lt_of_lt_of_le hi hmn)

theorem Underway.busy {n : Nat} (h : Underway active context s n) :
    ∀ m, n = m + 1 → agenda active (after active context s m) ≠ [] :=
  fun m hm => (h m (by omega)).1

/-- A pass that adds no fact ends the run; after any other the rest goes on. -/
theorem goesOn_pass (hs : s.Keyed) {ceiling : Nat} (p : Progress) (b : Bool)
    (rest : Progress → Session μ ((Progress × StopReason) × List (PassLog μ)))
    (hp : p.completed = (after active context s p.passes.length).finished)
    (hceiling : p.passes.length + 1 ≤ ceiling) (hrun : Underway active context s p.passes.length)
    (hbusy : agenda active (after active context s p.passes.length) ≠ [])
    (hrest : Underway active context s (p.passes.length + 1) → ∀ asked,
      GoesOn active context s ceiling (p.passes.length + 1) asked
        (rest (p.next active context limits (after active context s p.passes.length)))) :
    GoesOn active context s ceiling p.passes.length b (do
      let tasks := agenda active (after active context s p.passes.length)
      let log : PassLog μ := ⟨← Session.peek, p.completed, completions context tasks⟩
      let (q, summary) ← onePass context limits p tasks
      if summary.factsAfter = summary.factsBefore then return ((q, .noProgress), [log])
      else
        let (ended, logs) ← rest q
        return (ended, log :: logs)) := by
  have hkeyed : (after active context s p.passes.length).Keyed := keyed_after hs _
  have hpass := computes_onePass active context limits hkeyed p b
  generalize (b || cancelling active context _) = asked at hpass
  generalize hsummary : summaryOf active context limits _ _ = summary at hpass
  have hstill : summary.factsAfter = summary.factsBefore ↔
      (after active context s (p.passes.length + 1)).factCount =
        (after active context s p.passes.length).factCount := by
    rw [← hsummary]
    exact Iff.rfl
  by_cases hfacts : (after active context s (p.passes.length + 1)).factCount =
      (after active context s p.passes.length).factCount
  · refine ⟨p.passes.length + 1, _, .noProgress, asked, Nat.le_succ _,
      (computes_peek _).bind (hpass.bind ?_), rfl,
      completed_next active context limits hp (p.passes.length + 1),
      ⟨hceiling, hrun, ?_, by simp, fun _ => ⟨_, rfl, hfacts⟩, by simp⟩⟩
    · dsimp only
      rw [if_pos (hstill.mpr hfacts), Nat.add_sub_cancel_left, hp]
      exact Computes.pure _ _
    · intro m hm
      rw [← Nat.succ.inj hm]
      exact hbusy
  · have hrun' : Underway active context s (p.passes.length + 1) := by
      intro i hi
      rcases Nat.lt_succ_iff_lt_or_eq.mp hi with hi | rfl
      · exact hrun i hi
      · exact ⟨hbusy, hfacts⟩
    obtain ⟨n, q, reason, b', hkn, hloop, hq⟩ := hrest hrun' asked
    have hlogs : n - p.passes.length = (n - (p.passes.length + 1)) + 1 := by omega
    refine ⟨n, q, reason, b', by omega, (computes_peek _).bind (hpass.bind ?_), hq⟩
    dsimp only
    rw [if_neg (fun h => hfacts (hstill.mp h)), hlogs, List.range'_succ, List.map_cons, hp]
    exact hloop.bind (Computes.pure _ _)

/-- **The loop is the iteration, stopped at some number of passes.**  The invariant is that the
first `k` passes are done, that the run agrees with the ledger about what is finished, and that no
reason to stop has come up so far. -/
theorem goesOn_loopTraced (active : List (Active γ μ)) (context : γ) (limits : Limits)
    (stop : Nat → Bool) (hs : s.Keyed) {ceiling : Nat} (left k : Nat) (p : Progress) (b : Bool)
    (hk : p.passes.length = k) (hp : p.completed = (after active context s k).finished)
    (hrun : Underway active context s k) (hceiling : k + left = ceiling) :
    GoesOn active context s ceiling k b (loopTraced active context limits stop left p) := by
  induction left using Nat.strong_induction_on generalizing k p b with
  | _ left ih =>
  have hearlier : Underway active context s (k - 1) := hrun.mono (Nat.sub_le k 1)
  rw [loopTraced]
  cases hc : (b || stop p.passes.length) with
  | true =>
    refine goesOn_stop (p.note (cancelledDiagnostic p.passes.length)) .cancelled true ?_ hk hp
      ⟨by omega, hearlier, hrun.busy, by simp, by simp, by simp⟩
    refine Computes.cancelIf ?_
    rw [hc]
    exact (Computes.isCancelled _).bind (Computes.pure _ _)
  | false =>
    suffices GoesOn active context s ceiling k false _ by
      obtain ⟨n, q, reason, b', hkn, hm, hq⟩ := this
      exact ⟨n, q, reason, b', hkn, computes_gate hc hm, hq⟩
    rw [hp, ← agenda]
    by_cases hempty : agenda active (after active context s k) = []
    · rw [hempty]
      exact goesOn_stop p .converged false (Computes.pure _ _) hk hp
        ⟨by omega, hearlier, hrun.busy, fun _ => hempty, by simp, by simp⟩
    · have htasks : ¬ (agenda active (after active context s k)).isEmpty = true :=
        fun h => hempty (List.isEmpty_iff.mp h)
      dsimp only
      rw [if_neg htasks]
      cases left with
      | zero =>
        exact goesOn_stop (p.note _) .passCeiling false (Computes.pure _ _) hk hp
          ⟨by omega, hearlier, hrun.busy, by simp, by simp, fun _ => ⟨by omega, hrun, hempty⟩⟩
      | succ left =>
        subst hk
        rw [← hp]
        exact goesOn_pass hs p false _ hp (by omega) hrun hempty fun hrun' asked =>
          ih left (Nat.lt_succ_self left) (p.passes.length + 1) _ asked rfl
            (completed_next active context limits hp (p.passes.length + 1)) hrun' (by omega)

/-! ## 4. The whole run -/

/-- The analyzers that never ran because some of their tags appear nowhere in a store. -/
def waiting (active : List (Active γ μ)) (completed : KeySet Pair) (s : Store μ) : List Unresolved :=
  let idle := active.filter fun a =>
    !a.analyzer.contract.isCollector && !completed.keys.any (·.analyzer == a.analyzer.name)
  let entries := idle.map fun a => (⟨a.analyzer.name, a.analyzer.contract.consumes.members.filter
    fun tag => (s.nodesWithTag tag).isEmpty⟩ : Unresolved)
  entries.filter fun u => !u.missing.isEmpty

omit [Measure μ] in
/-- Looking for analyzers that never ran finds those that wait, and changes nothing. -/
theorem computes_waiting (active : List (Active γ μ)) (completed : KeySet Pair) (κ : Core μ) :
    Computes (unresolved active completed) κ (.ok (waiting active completed κ.store)) κ := by
  refine Computes.bind (Computes.mapM_read
    (fun a => ⟨a.analyzer.name, a.analyzer.contract.consumes.members.filter fun tag =>
      (κ.store.nodesWithTag tag).isEmpty⟩) ?_ _) (Computes.pure _ κ)
  intro a
  refine (Computes.filterM_read _ ?_ _).bind (Computes.pure _ κ)
  intro tag
  exact (Computes.findByTag tag κ).bind (Computes.pure _ κ)

omit [Measure μ] in
theorem computes_unresolved (active : List (Active γ μ)) (completed : KeySet Pair) (κ : Core μ) :
    ∃ found, Computes (unresolved active completed) κ (.ok found) κ :=
  ⟨_, computes_waiting active completed κ⟩

/-- Where a run stands before its first pass. -/
def start (roster : Roster γ μ) (context : γ) (limits : Limits) (s : Store μ) : Progress :=
  let plan := Plan.ofDeclarations roster.declarations
  { completed := s.finished
    diagnostics := Roster.validate roster.declarations ++ plan.diagnostics ++
      (activate roster context limits plan.order).2 }

/-- The trace of an iteration of passes. -/
def traceOf (active : List (Active γ μ)) (context : γ) (s : Store μ) (n : Nat) : Trace μ :=
  ⟨(List.range n).map (passLog active context s), (after active context s n).finished,
    after active context s n⟩

theorem getLast?_traceOf (j : Nat) :
    (traceOf active context s (j + 1)).passes.getLast? = some (passLog active context s j) := by
  rw [traceOf, List.range_succ, List.map_append, List.map_singleton, List.getLast?_concat]

theorem pairs_traceOf (n : Nat) :
    (traceOf active context s n).pairs = pairsUpTo active context s n := by
  rw [Trace.pairs, traceOf, List.flatMap_map]
  rfl

end Run

section Whole

variable {γ μ : Type} [Measure μ] {roster : Roster γ μ} {context : γ} {limits : Limits}
  {stop : Nat → Bool}

/-- **A run is an iteration of passes**, and so is its trace. -/
theorem exists_computes_runTraced (roster : Roster γ μ) (context : γ) (limits : Limits)
    (stop : Nat → Bool) {s : Store μ} (hs : s.Keyed) (b : Bool) :
    ∃ n report b', Computes (runTraced roster context limits stop) ⟨s, b⟩
        (.ok (report, Run.traceOf (Run.active roster context limits) context s n))
        ⟨Run.after (Run.active roster context limits) context s n, b'⟩ ∧
      report.passes.length = n ∧
      Run.Ends (Run.active roster context limits) context s limits.maxPasses n report.stop := by
  have hloop := Run.goesOn_loopTraced (Run.active roster context limits) context limits stop hs
    limits.maxPasses 0 (Run.start roster context limits s) b rfl rfl nofun (Nat.zero_add _)
  obtain ⟨n, q, reason, b', -, hloop, hlength, hcompleted, hends⟩ := hloop
  obtain ⟨found, hfound⟩ := Run.computes_unresolved (Run.active roster context limits) q.completed
    ⟨Run.after (Run.active roster context limits) context s n, b'⟩
  rw [Nat.sub_zero, ← List.range_eq_range'] at hloop
  let report : Report :=
    { passes := q.passes.reverse
      stop := reason
      diagnostics := q.diagnostics ++ found.map Run.Unresolved.diagnostic
      order := (Run.active roster context limits).map (·.analyzer.name)
      unresolved := found }
  refine ⟨n, report, b', (Computes.completedRuns _).bind (hloop.bind
    (hfound.bind ((Run.computes_peek _).bind ?_))), (List.length_reverse).trans hlength, hends⟩
  rw [Run.traceOf, ← hcompleted]
  exact Computes.pure _ _

/-- What an answer says: the run made as many passes as it reports, and left what they leave. -/
theorem returns_runTraced {σ σ' : State μ} {report : Report} {trace : Trace μ}
    (hs : σ.store.Keyed) (h : Returns (runTraced roster context limits stop) σ (report, trace) σ') :
    trace = Run.traceOf (Run.active roster context limits) context σ.store report.passes.length ∧
      σ'.store =
        Run.after (Run.active roster context limits) context σ.store report.passes.length ∧
      Run.Ends (Run.active roster context limits) context σ.store limits.maxPasses
        report.passes.length report.stop := by
  obtain ⟨n, report', b', hrun, rfl, hends⟩ :=
    exists_computes_runTraced roster context limits stop hs σ.cancelled
  obtain ⟨hok, hcore⟩ := hrun.of_returns rfl h
  cases hok
  exact ⟨rfl, congrArg Core.store hcore, hends⟩

theorem returns_run {σ σ' : State μ} {report : Report} (hs : σ.store.Keyed)
    (h : Returns (run roster context limits stop) σ report σ') :
    σ'.store =
        Run.after (Run.active roster context limits) context σ.store report.passes.length ∧
      Run.Ends (Run.active roster context limits) context σ.store limits.maxPasses
        report.passes.length report.stop := by
  obtain ⟨trace, h⟩ := returns_run_iff.mp h
  exact (returns_runTraced hs h).2

/-- **If storage does not fail, every run answers.** -/
theorem exists_returns_run (roster : Roster γ μ) (context : γ) (limits : Limits)
    (stop : Nat → Bool) {σ : State μ} (hs : σ.store.Keyed) (hσ : σ.Reliable) :
    ∃ report σ', Returns (run roster context limits stop) σ report σ' := by
  obtain ⟨n, report, b', hrun, -⟩ :=
    exists_computes_runTraced roster context limits stop hs σ.cancelled
  obtain ⟨σ', hreturns, -⟩ := hrun.run_eq rfl hσ
  exact ⟨report, σ', returns_run_iff.mpr ⟨_, hreturns⟩⟩

end Whole

end FactGraph
