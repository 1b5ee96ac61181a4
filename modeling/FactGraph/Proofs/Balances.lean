import FactGraph.Proofs.Courses

/-!
# Reports that balance

The numbers of a report come from different places: the outcomes from what the pairs evaluated to, the
facts from the store before and after a pass, the recorded runs from the commit, the failures from the
diagnostics, and what is still pending from the ledger.  This module shows that they reconcile.

* In ONE PASS every task is put off or finished, and what is finished has one of three outcomes; so the
  outcomes add up to the tasks, and the tasks are counted by the pairs that are open in the store
  (`Run.encard_openPairs`), whose definition knows nothing of tasks.
* A RUN tells of its passes one by one, adds the failures of each to its diagnostics, and at its end says
  why it stopped (`Run.Tells`).  The induction is on the course of the run.

Main statement: `report_balances`.
-/

namespace FactGraph

open Session

namespace Run

variable {γ μ : Type} {active : List (Active γ μ)} {context : γ} {s : Store μ}

/-! ## 1. One pass -/

/-- The open pairs of a store: an analyzer that takes part, a stored node of a kind that it targets, and no
row in the ledger for the two. -/
def openPairs (active : List (Active γ μ)) (s : Store μ) : Set Pair :=
  {pair | (∃ x ∈ active, x.analyzer.name = pair.analyzer ∧
      ∃ n, s.node? pair.node = some n ∧ x.analyzer.targetsKind n.kind = true) ∧
    s.ledger.contains pair = false}

theorem mem_openPairs (hs : s.Keyed) {pair : Pair} :
    pair ∈ openPairs active s ↔ ∃ t ∈ agenda active s, t.pair = pair := by
  constructor
  · rintro ⟨⟨x, hx, hname, n, hn, hkind⟩, hopen⟩
    have hid : n.id = pair.node := hs.own _ n hn
    have hpair : Task.pair ⟨x, n⟩ = pair := by simp [Task.pair, hname, hid]
    exact ⟨⟨x, n⟩, (mem_agenda hs).mpr ⟨hx, hid ▸ hn, hkind, hpair ▸ hopen⟩, hpair⟩
  · rintro ⟨t, ht, rfl⟩
    obtain ⟨hx, hn, hkind, hopen⟩ := (mem_agenda hs).mp ht
    exact ⟨⟨t.active, hx, rfl, t.node, hn, hkind⟩, hopen⟩

/-- **The tasks of a pass are counted by the open pairs.** -/
theorem encard_openPairs (hs : s.Keyed) (hnames : (active.map (·.analyzer.name)).Nodup) :
    (openPairs active s).encard = (agenda active s).length := by
  have hnodup : ((agenda active s).map Task.pair).Nodup := by
    refine List.Nodup.of_map (fun pair : Pair => (pair.analyzer, pair.node)) ?_
    rw [List.map_map]
    exact nodup_agenda hs hnames
  have hset : openPairs active s = ((agenda active s).map Task.pair).toFinset := by
    ext pair
    simp [mem_openPairs hs]
  rw [hset, Set.encard_coe_eq_coe_finsetCard, List.toFinset_card_of_nodup hnodup, List.length_map]

/-- What is finished ran, was skipped or failed. -/
theorem countOutcome_add (done : List (Completion μ)) :
    countOutcome done .ran + countOutcome done .skipped + countOutcome done .failed = done.length := by
  induction done with
  | nil => rfl
  | cons c rest ih =>
    simp only [countOutcome] at ih ⊢
    cases hc : c.outcome <;> simp [hc] <;> omega

/-- A task is put off or finished. -/
theorem length_completions_add (context : γ) (tasks : List (Task γ μ)) :
    (completions context tasks).length +
      ((tasks.map (evaluate context)).filter Evaluation.isDeferred).length = tasks.length := by
  rw [completions, ← List.length_map (evaluate context)]
  induction tasks.map (evaluate context) with
  | nil => rfl
  | cons e rest ih =>
    cases e with
    | deferred =>
      rw [List.filterMap_cons_none rfl, List.filter_cons_of_pos rfl, List.length_cons, List.length_cons]
      omega
    | finished c cancels =>
      have hc : Evaluation.completion? (.finished c cancels) = some c := rfl
      rw [List.filterMap_cons_some hc, List.filter_cons_of_neg Bool.false_ne_true, List.length_cons,
        List.length_cons]
      omega

/-- Every failure is told. -/
theorem length_failures (done : List (Completion μ)) :
    (done.filterMap failureOf?).length = countOutcome done .failed := by
  induction done with
  | nil => rfl
  | cons c rest ih =>
    simp only [countOutcome] at ih ⊢
    cases hc : c.outcome <;> simp [failureOf?, hc, ih]

/-! ## 2. Diagnostics by kind -/

theorem kind_of_failureOf? {c : Completion μ} {d : Diagnostic} (h : failureOf? c = some d) :
    d.kind = .unitError := by
  unfold failureOf? at h
  split at h
  · cases h
    rfl
  · cases h

theorem kind_of_notReady {roster : Roster γ μ} {limits : Limits} {order : List Nat} {d : Diagnostic}
    (h : d ∈ (activate roster context limits order).2) : d.kind = .configurationError := by
  obtain ⟨o, ho, hd⟩ := List.mem_filterMap.mp h
  obtain ⟨position, -, hposition⟩ := List.mem_filterMap.mp ho
  obtain ⟨a, -, ha⟩ := Option.bind_eq_some_iff.mp hposition
  split at ha
  · cases ha
  · split at ha
    · cases ha
      cases hd
    · cases ha
      cases hd
      rfl

theorem kind_of_validate {ds : Declarations} {d : Diagnostic} (h : d ∈ Roster.validate ds) :
    d.kind = .unresolvedDependency ∨ d.kind = .duplicateProducer := by
  rcases List.mem_append.mp h with h | h
  · obtain ⟨declared, -, h⟩ := List.mem_flatMap.mp h
    refine .inl ?_
    rcases List.mem_append.mp h with h | h
    · split at h
      · cases h
      · cases List.mem_singleton.mp h
        rfl
    · obtain ⟨name, -, rfl⟩ := List.mem_map.mp h
      rfl
  · obtain ⟨tag, -, h⟩ := List.mem_filterMap.mp h
    unfold Roster.duplicate? at h
    split at h
    · cases h
    · cases h
    · cases h
      exact .inr rfl

/-- What is told before the first pass is no failure and no ceiling. -/
theorem kind_start {roster : Roster γ μ} {limits : Limits} {d : Diagnostic}
    (h : d ∈ (start roster context limits s).diagnostics) :
    d.kind ≠ .unitError ∧ d.kind ≠ .passCeilingReached := by
  rcases List.mem_append.mp h with h | h
  · rcases List.mem_append.mp h with h | h
    · rcases kind_of_validate h with h | h <;> simp [h]
    · obtain ⟨c, -, rfl⟩ := List.mem_map.mp h
      simp [Cycle.diagnostic]
  · simp [kind_of_notReady h]

/-- What a run says at its end about why it stopped. -/
def closing (active : List (Active γ μ)) (limits : Limits) (n : Nat) (s : Store μ) :
    StopReason → List Diagnostic
  | .cancelled => [cancelledDiagnostic n]
  | .passCeiling => [ceilingDiagnostic limits.maxPasses (agenda active s).length]
  | _ => []

theorem filter_kind_eq_nil {told : List Diagnostic} {kind : DiagnosticKind}
    (h : ∀ d ∈ told, d.kind ≠ kind) : told.filter (·.kind = kind) = [] := by
  simpa [List.filter_eq_nil_iff] using h

theorem filter_closing_unitError (limits : Limits) (n : Nat) (reason : StopReason) :
    (closing active limits n s reason).filter (·.kind = .unitError) = [] := by
  cases reason <;> simp [closing, cancelledDiagnostic, ceilingDiagnostic]

theorem filter_closing_passCeilingReached (limits : Limits) (n : Nat) (reason : StopReason) :
    (closing active limits n s reason).filter (·.kind = .passCeilingReached) =
      if reason = .passCeiling then [ceilingDiagnostic limits.maxPasses (agenda active s).length]
      else [] := by
  cases reason <;> simp [closing, cancelledDiagnostic, ceilingDiagnostic]

/-! ## 3. What a course tells -/

variable [Measure μ]

theorem finished_summaryOf (limits : Limits) (number : Nat) :
    (summaryOf active context limits number s).ran +
        (summaryOf active context limits number s).skipped +
        (summaryOf active context limits number s).failed = (finishing active context s).length :=
  countOutcome_add _

theorem runsRecorded_summaryOf (limits : Limits) (number : Nat) :
    (summaryOf active context limits number s).commit.runsRecorded =
      (finishing active context s).length := by
  simp [summaryOf, Commit.summary, Commit.rows]

theorem evaluated_summaryOf (limits : Limits) (number : Nat) :
    (finishing active context s).length + (summaryOf active context limits number s).deferred =
      (agenda active s).length :=
  length_completions_add context _

/-- The summary of the pass that comes after some passes. -/
def summaryAt (active : List (Active γ μ)) (context : γ) (limits : Limits) (s : Store μ) (i : Nat) :
    PassSummary :=
  summaryOf active context limits (i + 1) (after active context s i)

/-- The failures of the pass that comes after some passes. -/
def failuresAt (active : List (Active γ μ)) (context : γ) (s : Store μ) (i : Nat) : List Diagnostic :=
  (finishing active context (after active context s i)).filterMap failureOf?

theorem kind_failuresAt {i : Nat} {d : Diagnostic} (h : d ∈ failuresAt active context s i) :
    d.kind = .unitError := by
  obtain ⟨c, -, hc⟩ := List.mem_filterMap.mp h
  exact kind_of_failureOf? hc

theorem length_failuresAt (limits : Limits) (i : Nat) :
    (failuresAt active context s i).length = (summaryAt active context limits s i).failed := by
  rw [failuresAt, length_failures, summaryAt, summaryOf]

/-- **What a run tells** that goes on from `p` and stops after `n` passes: of every pass in its turn, of its
failures, and of why it stopped.  A pass that added no fact was the last one. -/
structure Tells (active : List (Active γ μ)) (context : γ) (limits : Limits) (s : Store μ)
    (p : Progress) (n : Nat) (q : Progress) (reason : StopReason) : Prop where
  le : p.passes.length ≤ n
  passes : q.passes.reverse = p.passes.reverse ++
    (List.range' p.passes.length (n - p.passes.length)).map (summaryAt active context limits s)
  diagnostics : q.diagnostics = p.diagnostics ++
    (List.range' p.passes.length (n - p.passes.length)).flatMap (failuresAt active context s) ++
    closing active limits n (after active context s n) reason
  still : ∀ i, p.passes.length ≤ i → i < n →
    (after active context s (i + 1)).factCount = (after active context s i).factCount →
    i + 1 = n ∧ reason = .noProgress

/-- A run that stops at once. -/
theorem Tells.stop {limits : Limits} {p q : Progress} {reason : StopReason} (hpasses : q.passes = p.passes)
    (hdiagnostics : q.diagnostics = p.diagnostics ++
      closing active limits p.passes.length (after active context s p.passes.length) reason) :
    Tells active context limits s p p.passes.length q reason where
  le := le_rfl
  passes := by simp [hpasses]
  diagnostics := by simp [hdiagnostics]
  still i hle hlt := absurd hlt (Nat.not_lt.mpr hle)

/-- A run that makes one more pass before the rest. -/
theorem Tells.pass {limits : Limits} {p q : Progress} {n : Nat} {reason : StopReason}
    (h : Tells active context limits s
      (p.next active context limits (after active context s p.passes.length)) n q reason)
    (hstill : (after active context s (p.passes.length + 1)).factCount =
      (after active context s p.passes.length).factCount → p.passes.length + 1 = n ∧ reason = .noProgress) :
    Tells active context limits s p n q reason := by
  have hlength : (p.next active context limits
      (after active context s p.passes.length)).passes.length = p.passes.length + 1 := rfl
  have hle : p.passes.length + 1 ≤ n := hlength ▸ h.le
  have hrange : List.range' p.passes.length (n - p.passes.length) =
      p.passes.length :: List.range' (p.passes.length + 1) (n - (p.passes.length + 1)) := by
    rw [← List.range'_succ]
    congr 1
    omega
  refine ⟨by omega, ?_, ?_, ?_⟩
  · rw [h.passes, hlength, hrange, List.map_cons, Progress.next, List.reverse_cons, List.append_assoc]
    rfl
  · rw [h.diagnostics, hlength, hrange, List.flatMap_cons, Progress.next]
    simp only [failuresAt, List.append_assoc]
  · intro i hi hlt hfacts
    rcases Nat.eq_or_lt_of_le hi with rfl | hi
    · exact hstill hfacts
    · exact h.still i hi hlt hfacts

/-- **A course tells of its passes and of its end.** -/
theorem exists_tells (active : List (Active γ μ)) (context : γ) (limits : Limits) (stop : Nat → Bool)
    (s : Store μ) (left : Nat) (p : Progress) (b : Bool) :
    ∃ n, Tells active context limits s p n
        (course active context limits stop left p ⟨after active context s p.passes.length, b⟩).1.1
        (course active context limits stop left p ⟨after active context s p.passes.length, b⟩).1.2 := by
  induction left generalizing p b with
  | zero =>
    rw [course]
    split_ifs
    · exact ⟨_, .stop rfl rfl⟩
    · exact ⟨_, .stop rfl (by simp [closing])⟩
    · exact ⟨_, .stop rfl rfl⟩
  | succ left ih =>
    rw [course]
    split_ifs with hstop hempty
    · exact ⟨_, .stop rfl rfl⟩
    · exact ⟨_, .stop rfl (by simp [closing])⟩
    · dsimp only
      split_ifs with hfacts
      · exact ⟨_, .pass (.stop rfl (by simp [closing])) fun _ => ⟨rfl, rfl⟩⟩
      · obtain ⟨n, hrest⟩ := ih (p.next active context limits (after active context s p.passes.length))
          (cancelling active context (after active context s p.passes.length))
        exact ⟨n, hrest.pass fun h => absurd h hfacts⟩

end Run

/-! ## 4. Whole runs -/

open Run

/-- **A report balances.**  `trace` says which store every pass began with, and `final` is the store at the
end. -/
structure Report.Balances {γ μ : Type} (report : Report) (active : List (Active γ μ)) (limits : Limits)
    (trace : Trace μ) (final : Store μ) : Prop where
  numbered : report.passes.map PassSummary.pass = List.range' 1 report.passes.length
  bounded : report.passes.length ≤ limits.maxPasses
  logged : trace.passes.length = report.passes.length
  /-- Every open pair ran, was skipped, failed or was put off. -/
  evaluated : ∀ summary log, (summary, log) ∈ report.passes.zip trace.passes →
    (openPairs active log.store).encard =
      ↑(summary.ran + summary.skipped + summary.failed + summary.deferred)
  recorded : ∀ summary ∈ report.passes,
    summary.commit.runsRecorded = summary.ran + summary.skipped + summary.failed
  /-- The facts are counted in the store that a pass began with, and at last in the final store. -/
  counted : ∀ summary log, (summary, log) ∈ report.passes.zip trace.passes →
    summary.factsBefore = log.store.factCount
  counted_last : ∀ summary, report.passes.getLast? = some summary → summary.factsAfter = final.factCount
  chained : report.passes.IsChain fun earlier later => later.factsBefore = earlier.factsAfter
  /-- Only the last pass can add no fact, and it does so exactly if that is why the run stopped. -/
  still_iff : ∀ i summary, report.passes[i]? = some summary →
    (summary.factsAfter = summary.factsBefore ↔
      i + 1 = report.passes.length ∧ report.stop = .noProgress)
  ne_nil : report.stop = .noProgress → report.passes ≠ []
  failures : (report.diagnostics.filter (·.kind = .unitError)).length =
    (report.passes.map PassSummary.failed).sum
  /-- What is said to be pending at the ceiling are the open pairs of the final store. -/
  ceiling : report.stop = .passCeiling → ∃ pairs : Nat, (openPairs active final).encard = pairs ∧
    report.diagnostics.filter (·.kind = .passCeilingReached) = [ceilingDiagnostic limits.maxPasses pairs]
  no_ceiling : report.stop ≠ .passCeiling →
    report.diagnostics.filter (·.kind = .passCeilingReached) = []

section Whole

variable {γ μ : Type} [Measure μ] {roster : Roster γ μ} {context : γ} {limits : Limits}
  {stop : Nat → Bool} {σ σ' : State μ} {report : Report}

/-- What a report tells is what the course of the run tells. -/
theorem exists_tells_run (hs : σ.store.Keyed)
    (h : Returns (run roster context limits stop) σ report σ') :
    ∃ q, ∃ found : List Unresolved, Tells (Run.active roster context limits) context limits σ.store
        (start roster context limits σ.store) report.passes.length q report.stop ∧
      report.passes = q.passes.reverse ∧
      report.diagnostics = q.diagnostics ++ found.map Unresolved.diagnostic := by
  obtain ⟨n, htells⟩ := exists_tells (Run.active roster context limits) context limits stop σ.store
    limits.maxPasses (start roster context limits σ.store) σ.cancelled
  have htells : Tells (Run.active roster context limits) context limits σ.store
      (start roster context limits σ.store) n (courseOf roster context limits stop σ.core).1.1
      (courseOf roster context limits stop σ.core).1.2 := htells
  generalize hended : courseOf roster context limits stop σ.core = ended at htells
  obtain ⟨found, hfound⟩ := computes_unresolved (Run.active roster context limits)
    ended.1.1.completed ended.2
  obtain ⟨hok, -⟩ := (computes_run roster context limits stop hs hended hfound).of_returns rfl h
  cases hok
  have hn : n = ended.1.1.passes.reverse.length := by simp [htells.passes, start]
  exact ⟨ended.1.1, found, hn ▸ htells, rfl, rfl⟩

/-- A report has one summary for each pass of the iteration. -/
theorem passes_eq_map_range (hs : σ.store.Keyed)
    (h : Returns (run roster context limits stop) σ report σ') :
    report.passes = (List.range report.passes.length).map
      (summaryAt (Run.active roster context limits) context limits σ.store) := by
  obtain ⟨q, found, htells, hpasses, -⟩ := exists_tells_run hs h
  conv_lhs => rw [hpasses, htells.passes]
  simp [start, List.range_eq_range']

theorem summaryAt_of_getElem? (hs : σ.store.Keyed)
    (h : Returns (run roster context limits stop) σ report σ') {i : Nat} {summary : PassSummary}
    (hget : report.passes[i]? = some summary) :
    i < report.passes.length ∧
      summaryAt (Run.active roster context limits) context limits σ.store i = summary := by
  have hlt := (List.getElem?_eq_some_iff.mp hget).1
  rw [passes_eq_map_range hs h, List.getElem?_map, List.getElem?_range hlt] at hget
  exact ⟨hlt, Option.some.inj hget⟩

/-- The summaries of a report and the log of its run go together. -/
theorem of_mem_zip (hs : σ.store.Keyed) (h : Returns (run roster context limits stop) σ report σ')
    {summary : PassSummary} {log : PassLog μ}
    (hmem : (summary, log) ∈ report.passes.zip (traceOf (Run.active roster context limits) context
      σ.store report.passes.length).passes) :
    ∃ i, summaryAt (Run.active roster context limits) context limits σ.store i = summary ∧
      log.store = after (Run.active roster context limits) context σ.store i := by
  obtain ⟨i, hget⟩ := List.mem_iff_getElem?.mp hmem
  obtain ⟨hget, hlog⟩ := List.getElem?_zip_eq_some.mp hget
  obtain ⟨hlt, hsummary⟩ := summaryAt_of_getElem? hs h hget
  rw [traceOf, List.getElem?_map, List.getElem?_range hlt] at hlog
  exact ⟨i, hsummary, congrArg PassLog.store (Option.some.inj hlog).symm⟩

/-- **Only the last pass can add no fact**, and it does exactly if that is why the run stopped. -/
theorem factCount_after_eq_iff (hs : σ.store.Keyed)
    (h : Returns (run roster context limits stop) σ report σ') {i : Nat}
    (hi : i < report.passes.length) :
    (after (Run.active roster context limits) context σ.store (i + 1)).factCount =
        (after (Run.active roster context limits) context σ.store i).factCount ↔
      i + 1 = report.passes.length ∧ report.stop = .noProgress := by
  obtain ⟨q, found, htells, -⟩ := exists_tells_run hs h
  refine ⟨htells.still i (Nat.zero_le i) hi, ?_⟩
  rintro ⟨hlast, hstop⟩
  obtain ⟨m, hm, hfacts⟩ := (returns_run hs h).2.noProgress hstop
  obtain rfl : i = m := by omega
  exact hfacts

/-- Failures and ceilings are told by the passes and at the end, and nowhere else. -/
theorem filter_diagnostics (hs : σ.store.Keyed)
    (h : Returns (run roster context limits stop) σ report σ') {kind : DiagnosticKind}
    (hkind : kind = .unitError ∨ kind = .passCeilingReached) :
    report.diagnostics.filter (·.kind = kind) =
      ((List.range report.passes.length).flatMap
        (failuresAt (Run.active roster context limits) context σ.store)).filter (·.kind = kind) ++
      (closing (Run.active roster context limits) limits report.passes.length σ'.store
        report.stop).filter (·.kind = kind) := by
  obtain ⟨q, found, htells, -, hdiagnostics⟩ := exists_tells_run hs h
  have hstart : (start roster context limits σ.store).diagnostics.filter (·.kind = kind) = [] := by
    refine filter_kind_eq_nil fun d hd => ?_
    rcases hkind with rfl | rfl
    · exact (kind_start hd).1
    · exact (kind_start hd).2
  have hfound : (found.map Unresolved.diagnostic).filter (·.kind = kind) = [] := by
    refine filter_kind_eq_nil fun d hd => ?_
    obtain ⟨u, -, rfl⟩ := List.mem_map.mp hd
    rcases hkind with rfl | rfl <;> simp [Unresolved.diagnostic, Diagnostic.unresolved]
  have hzero : (start roster context limits σ.store).passes.length = 0 := rfl
  rw [hdiagnostics, htells.diagnostics, (returns_run hs h).1, hzero, Nat.sub_zero,
    ← List.range_eq_range']
  simp only [List.filter_append, hstart, hfound, List.nil_append, List.append_nil]

theorem length_filter_unitError (hs : σ.store.Keyed)
    (h : Returns (run roster context limits stop) σ report σ') :
    (report.diagnostics.filter (·.kind = .unitError)).length =
      ((List.range report.passes.length).map fun i =>
        (summaryAt (Run.active roster context limits) context limits σ.store i).failed).sum := by
  have hall : ∀ d ∈ (List.range report.passes.length).flatMap
      (failuresAt (Run.active roster context limits) context σ.store),
      decide (d.kind = .unitError) = true := by
    intro d hd
    obtain ⟨i, -, hd⟩ := List.mem_flatMap.mp hd
    exact decide_eq_true (kind_failuresAt hd)
  rw [filter_diagnostics hs h (.inl rfl), filter_closing_unitError, List.append_nil,
    List.filter_eq_self.mpr hall, List.length_flatMap]
  exact congrArg List.sum (List.map_congr_left fun i _ => length_failuresAt limits i)

theorem filter_passCeilingReached (hs : σ.store.Keyed)
    (h : Returns (run roster context limits stop) σ report σ') :
    report.diagnostics.filter (·.kind = .passCeilingReached) =
      if report.stop = .passCeiling then
        [ceilingDiagnostic limits.maxPasses (agenda (Run.active roster context limits) σ'.store).length]
      else [] := by
  rw [filter_diagnostics hs h (.inr rfl), filter_closing_passCeilingReached, filter_kind_eq_nil,
    List.nil_append]
  intro d hd
  obtain ⟨i, -, hd⟩ := List.mem_flatMap.mp hd
  simp [kind_failuresAt hd]

/-- **Every report balances.**  If a run answers, then its passes are numbered from one and keep to the
ceiling; in each the outcomes add up to the pairs that were open at its start, and those that finished are
recorded; the facts after a pass are the facts before the next; only the last pass can add none, and does
exactly if the run stopped for that; each failure is told once; and what a ceiling leaves pending are the
pairs that are open in the final store. -/
theorem report_balances (hroster : roster.Registered) (hs : σ.store.Keyed)
    (h : Returns (run roster context limits stop) σ report σ') :
    ∃ trace, Returns (runTraced roster context limits stop) σ (report, trace) σ' ∧
      report.Balances (Run.active roster context limits) limits trace σ'.store := by
  have hnames : ((Run.active roster context limits).map (·.analyzer.name)).Nodup :=
    nodup_active_names hroster.nodup_names
  have hpasses := passes_eq_map_range hs h
  obtain ⟨trace, htraced⟩ := returns_run_iff.mp h
  obtain ⟨rfl, hfinal, hends⟩ := returns_runTraced hs htraced
  refine ⟨_, htraced,
    { numbered := ?_, bounded := hends.le_ceiling, logged := by simp [traceOf], evaluated := ?_,
      recorded := ?_, counted := ?_, counted_last := ?_, chained := ?_, still_iff := ?_, ne_nil := ?_,
      failures := ?_, ceiling := ?_, no_ceiling := ?_ }⟩
  · conv_lhs => rw [hpasses]
    rw [List.map_map, List.range'_eq_map_range]
    exact List.map_congr_left fun i _ => Nat.add_comm i 1
  · intro summary log hmem
    obtain ⟨i, rfl, hstore⟩ := of_mem_zip hs h hmem
    rw [hstore, encard_openPairs (keyed_after hs i) hnames, summaryAt, finished_summaryOf,
      evaluated_summaryOf]
  · intro summary hmem
    obtain ⟨i, hget⟩ := List.mem_iff_getElem?.mp hmem
    obtain ⟨-, rfl⟩ := summaryAt_of_getElem? hs h hget
    rw [summaryAt, runsRecorded_summaryOf, finished_summaryOf]
  · intro summary log hmem
    obtain ⟨i, rfl, hstore⟩ := of_mem_zip hs h hmem
    rw [hstore]
    rfl
  · intro summary hlast
    rw [List.getLast?_eq_getElem?] at hlast
    obtain ⟨hlt, rfl⟩ := summaryAt_of_getElem? hs h hlast
    rw [hfinal]
    obtain ⟨m, hm⟩ := Nat.exists_eq_add_one_of_ne_zero (Nat.ne_zero_of_lt hlt)
    rw [hm]
    rfl
  · rw [hpasses, List.isChain_map, List.isChain_range]
    intro i _
    rfl
  · intro i summary hget
    obtain ⟨hlt, rfl⟩ := summaryAt_of_getElem? hs h hget
    exact factCount_after_eq_iff hs h hlt
  · intro hstop
    obtain ⟨m, hm, -⟩ := hends.noProgress hstop
    exact List.ne_nil_of_length_eq_add_one hm
  · rw [length_filter_unitError hs h]
    conv_rhs => rw [hpasses]
    rw [List.map_map]
    rfl
  · intro hstop
    have hkeyed : σ'.store.Keyed := hfinal ▸ keyed_after hs _
    exact ⟨_, encard_openPairs hkeyed hnames, by rw [filter_passCeilingReached hs h, if_pos hstop]⟩
  · intro hstop
    rw [filter_passCeilingReached hs h, if_neg hstop]

end Whole

/-- An analyzer that fails on every node, and a rule that waits for a tag. -/
def triage : Roster Unit Float :=
  ⟨[{ name := "broken", inspect := fun _ _ => { findings := {}, verdict := .failed "broken" } },
    Analyzer.rule "second" ["one"] ["two"]]⟩

/-- One pass over one node, in which one pair fails and one is put off, and which reaches the ceiling. -/
theorem report_balances_triage :
    let limits : Limits := { maxPasses := 1, batchSize := 1 }
    let σ : State Float := { store := Store.empty.mergeNodes [Node.new "n" "number"] }
    ∃ report σ', Returns (run triage () limits fun _ => false) σ report σ' ∧
      (report.diagnostics.filter (·.kind = .unitError)).length = 1 ∧
      ∃ pairs : Nat, (openPairs (Run.active triage () limits) σ'.store).encard = pairs ∧
        report.diagnostics.filter (·.kind = .passCeilingReached) = [ceilingDiagnostic 1 pairs] := by
  intro limits σ
  have hs : σ.store.Keyed := Store.keyed_empty.mergeNodes _
  have hroster : triage.Registered := ⟨triage.analyzers, rfl⟩
  have hanswers : answers (run triage () limits fun _ => false) σ (fun a =>
      a.stop = .passCeiling ∧ a.passes.map PassSummary.failed = [1]) = true := by decide +kernel
  obtain ⟨report, hrun, htest⟩ := exists_returns hanswers
  generalize ((run triage () limits fun _ => false).run σ).2 = σ' at hrun
  obtain ⟨hstop, hfailed⟩ := of_decide_eq_true htest
  obtain ⟨trace, -, hbalances⟩ := report_balances hroster hs hrun
  exact ⟨report, σ', hrun, by rw [hbalances.failures, hfailed]; rfl, hbalances.ceiling hstop⟩

end FactGraph
