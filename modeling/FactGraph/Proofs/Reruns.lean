import FactGraph.Proofs.Courses

/-!
# Running again where nothing is left to do

A run that is started again knows nothing of the run before it: it takes what is finished from the
ledger and what is there from the store.  So if the run before it converged, it finds nothing to do
and makes no pass.  If the run before it stopped for want of progress, the store does not say so,
and a pass has to find out again.  If in the last pass every pair was put off, that pass has changed
nothing, and the new run meets the same pairs, puts them off and stops
(`rerun_at_fixed_point`).

The rest is about the wish to stop, which outlives a run.  A run that was not cancelled was not asked
to stop before its first pass (`Run.unasked_of_course`), one that converged is not asked to stop
now, and neither is one whose last pass put everything off, since only an inspection can ask
(`Run.cancelled_course`).
-/

namespace FactGraph

open Session

namespace Run

variable {γ μ : Type} [Measure μ] {active : List (Active γ μ)} {context : γ} {limits : Limits}
  {stop : Nat → Bool} {left : Nat} {p : Progress} {κ : Core μ} {s : Store μ}

/-! ## 1. Passes that put everything off -/

omit [Measure μ] in
theorem Evaluation.isDeferred_iff {e : Evaluation μ} : e.isDeferred = true ↔ e = .deferred := by
  cases e with
  | deferred => exact iff_of_true rfl rfl
  | finished c cancels => simp [isDeferred]

/-- Every pair that is pending is put off. -/
def Stalled (active : List (Active γ μ)) (context : γ) (s : Store μ) : Prop :=
  ∀ t ∈ agenda active s, evaluate context t = .deferred

namespace Stalled

omit [Measure μ] in
theorem map_evaluate (h : Stalled active context s) :
    (agenda active s).map (evaluate context) =
      List.replicate (agenda active s).length .deferred := by
  rw [List.eq_replicate_iff]
  refine ⟨List.length_map _, fun e he => ?_⟩
  obtain ⟨t, ht, rfl⟩ := List.mem_map.mp he
  exact h t ht

omit [Measure μ] in
theorem finishing_eq_nil (h : Stalled active context s) : finishing active context s = [] := by
  rw [finishing, completions, h.map_evaluate]
  exact List.filterMap_replicate_of_none rfl

theorem advance_eq (h : Stalled active context s) (number : Nat) :
    advance active context number s = s :=
  advance_of_finishing_nil number h.finishing_eq_nil

omit [Measure μ] in
theorem cancelling_eq_false (h : Stalled active context s) : cancelling active context s = false := by
  rw [cancelling, h.map_evaluate, List.any_replicate]
  split <;> rfl

/-- The summary of a pass in which everything is put off. -/
theorem summaryOf_eq (h : Stalled active context s) (limits : Limits) (number : Nat) :
    summaryOf active context limits number s =
      { pass := number
        factsBefore := s.factCount
        factsAfter := s.factCount
        ran := 0
        skipped := 0
        failed := 0
        deferred := (agenda active s).length
        commit := {} } := by
  have hdeferred : (((agenda active s).map (evaluate context)).filter Evaluation.isDeferred).length =
      (agenda active s).length := by
    rw [h.map_evaluate, List.filter_replicate_of_pos rfl, List.length_replicate]
  rw [summaryOf, h.advance_eq, h.finishing_eq_nil, hdeferred, Commit.summary_nil]
  rfl

end Stalled

/-! ## 2. The wish to stop -/

/-- A course that is not cancelled was not asked to stop at its start. -/
theorem unasked_of_course (h : (course active context limits stop left p κ).1.2 ≠ .cancelled) :
    (κ.cancelled || stop p.passes.length) = false := by
  cases hc : (κ.cancelled || stop p.passes.length) with
  | false => rfl
  | true =>
    rw [course.eq_def, if_pos hc] at h
    exact absurd rfl h

/-- **What remains of the wish to stop**: nothing if the course converged, and if it made no progress
what the last pass asked for. -/
theorem cancelled_course (left : Nat) (p : Progress) (κ : Core μ)
    (hκ : κ.store = after active context s p.passes.length) :
    ((course active context limits stop left p κ).1.2 = .converged →
      (course active context limits stop left p κ).2.cancelled = false) ∧
    ∀ m, (course active context limits stop left p κ).1.2 = .noProgress →
      (course active context limits stop left p κ).1.1.passes.length = m + 1 →
      (course active context limits stop left p κ).2.cancelled =
        cancelling active context (after active context s m) := by
  induction left generalizing p κ with
  | zero =>
    rw [course]
    split
    · exact ⟨by simp, by simp⟩
    · split
      · exact ⟨fun _ => rfl, by simp⟩
      · exact ⟨fun _ => rfl, by simp⟩
  | succ left ih =>
    rw [course]
    split
    · exact ⟨by simp, by simp⟩
    split
    · exact ⟨fun _ => rfl, by simp⟩
    dsimp only
    split
    · refine ⟨by simp, fun m _ hm => ?_⟩
      -- this was the last pass, so it is the one that `m` counts up to
      have hm : p.passes.length + 1 = m + 1 := hm
      rw [← Nat.succ.inj hm, ← hκ]
    · refine ih (p.next active context limits κ.store) ⟨_, _⟩ ?_
      show advance active context (p.passes.length + 1) κ.store =
        after active context s (p.passes.length + 1)
      rw [after_succ, hκ]

/-! ## 3. Courses without anything to do -/

theorem course_of_agenda_nil (hc : (κ.cancelled || stop p.passes.length) = false)
    (hnil : agenda active κ.store = []) :
    course active context limits stop left p κ = ((p, .converged), ⟨κ.store, false⟩) := by
  rw [course.eq_def, if_neg (Bool.eq_false_iff.mp hc), if_pos hnil]

theorem course_of_stalled (hc : (κ.cancelled || stop p.passes.length) = false)
    (hsome : agenda active κ.store ≠ []) (hstalled : Stalled active context κ.store) :
    course active context limits stop (left + 1) p κ =
      ((p.next active context limits κ.store, .noProgress), ⟨κ.store, false⟩) := by
  rw [course.eq_def, if_neg (Bool.eq_false_iff.mp hc), if_neg hsome]
  dsimp only
  rw [hstalled.advance_eq, if_pos rfl, hstalled.cancelling_eq_false]

end Run

/-! ## 4. Whole runs -/

section Whole

variable {γ μ : Type} [Measure μ] {roster : Roster γ μ} {context : γ} {limits : Limits}
  {stop : Nat → Bool} {σ σ' τ : State μ} {report : Report} {trace : Trace μ}

theorem unasked_of_returns_run (hs : σ.store.Keyed)
    (h : Returns (run roster context limits stop) σ report σ') (hreason : report.stop ≠ .cancelled) :
    stop 0 = false := by
  rw [(course_of_returns_run roster context limits stop hs h).2.1] at hreason
  exact (Bool.or_eq_false_iff.mp (Run.unasked_of_course hreason)).2

/-- A run that converged leaves no wish to stop. -/
theorem cancelled_of_converged (hs : σ.store.Keyed)
    (h : Returns (run roster context limits stop) σ report σ') (hreason : report.stop = .converged) :
    σ'.cancelled = false := by
  obtain ⟨-, hstop, hcore⟩ := course_of_returns_run roster context limits stop hs h
  rw [hreason] at hstop
  exact (congrArg Core.cancelled hcore).trans
    ((Run.cancelled_course limits.maxPasses _ σ.core rfl).1 hstop.symm)

/-- A run that made no progress leaves the wish to stop that its last pass asked for. -/
theorem cancelled_of_noProgress (hs : σ.store.Keyed)
    (h : Returns (run roster context limits stop) σ report σ') (hreason : report.stop = .noProgress)
    {m : Nat} (hm : report.passes.length = m + 1) :
    σ'.cancelled = Run.cancelling (Run.active roster context limits) context
      (Run.after (Run.active roster context limits) context σ.store m) := by
  obtain ⟨hpasses, hstop, hcore⟩ := course_of_returns_run roster context limits stop hs h
  rw [hreason] at hstop
  rw [hpasses, List.length_reverse] at hm
  exact (congrArg Core.cancelled hcore).trans
    ((Run.cancelled_course limits.maxPasses _ σ.core rfl).2 m hstop.symm hm)

/-- A run that finds nothing to do makes no pass. -/
theorem returns_run_of_agenda_nil (hs : τ.store.Keyed) (hreliable : τ.Reliable)
    (hc : (τ.cancelled || stop 0) = false)
    (hnil : Run.agenda (Run.active roster context limits) τ.store = []) :
    ∃ report τ', Returns (run roster context limits stop) τ report τ' ∧
      report.passes = [] ∧ report.stop = .converged ∧ τ'.store = τ.store := by
  obtain ⟨report, τ', hrun⟩ := exists_returns_run roster context limits stop hs hreliable
  obtain ⟨hpasses, hstop, hcore⟩ := course_of_returns_run roster context limits stop hs hrun
  have hcourse : Run.courseOf roster context limits stop τ.core =
      ((Run.start roster context limits τ.store, .converged), ⟨τ.store, false⟩) :=
    Run.course_of_agenda_nil hc hnil
  rw [hcourse] at hpasses hstop hcore
  exact ⟨report, τ', hrun, hpasses, hstop, congrArg Core.store hcore⟩

/-- A run that has to put everything off makes one pass. -/
theorem returns_runTraced_of_stalled (hs : τ.store.Keyed) (hreliable : τ.Reliable)
    (hc : (τ.cancelled || stop 0) = false) (hceiling : 0 < limits.maxPasses)
    (hsome : Run.agenda (Run.active roster context limits) τ.store ≠ [])
    (hstalled : Run.Stalled (Run.active roster context limits) context τ.store) :
    ∃ report trace τ', Returns (runTraced roster context limits stop) τ (report, trace) τ' ∧
      trace.passes = [Run.passLog (Run.active roster context limits) context τ.store 0] ∧
      report.passes = [Run.summaryOf (Run.active roster context limits) context limits 1 τ.store] ∧
      report.stop = .noProgress ∧ τ'.store = τ.store := by
  obtain ⟨report, τ', hrun⟩ := exists_returns_run roster context limits stop hs hreliable
  obtain ⟨hpasses, hstop, hcore⟩ := course_of_returns_run roster context limits stop hs hrun
  have hcourse : Run.courseOf roster context limits stop τ.core =
      (((Run.start roster context limits τ.store).next (Run.active roster context limits) context
        limits τ.store, .noProgress), ⟨τ.store, false⟩) := by
    rw [Run.courseOf, ← Nat.succ_pred_eq_of_pos hceiling]
    exact Run.course_of_stalled hc hsome hstalled
  rw [hcourse] at hpasses hstop hcore
  have hpasses : report.passes =
    [Run.summaryOf (Run.active roster context limits) context limits 1 τ.store] := hpasses
  obtain ⟨trace, htraced⟩ := returns_run_iff.mp hrun
  obtain ⟨rfl, -⟩ := returns_runTraced hs htraced
  refine ⟨report, _, τ', htraced, ?_, hpasses, hstop, congrArg Core.store hcore⟩
  rw [hpasses]
  rfl

/-- **Running again at a fixed point does nothing.**  If a run converged, the same run from where it
ended makes no pass, converges and leaves the store as it is.  If a run stopped for want of progress
and its last pass put off every pending pair, the same run from where it ended makes one pass, which
is that last pass over again: the same pairs are pending and put off and nothing is done.  Then it
stops for want of progress and leaves the store as it is. -/
theorem rerun_at_fixed_point (hs : σ.store.Keyed)
    (hrun : Returns (runTraced roster context limits stop) σ (report, trace) σ')
    (hτ : τ.core = σ'.core) (hreliable : τ.Reliable) :
    (report.stop = .converged → ∃ report' τ',
      Returns (run roster context limits stop) τ report' τ' ∧
      report'.passes = [] ∧ report'.stop = .converged ∧ τ'.store = τ.store) ∧
    (report.stop = .noProgress → ∀ log, trace.passes.getLast? = some log →
      (∀ t ∈ Run.pending (Run.active roster context limits) log.store.allNodes log.completed,
        Run.evaluate context t = .deferred) →
      ∃ report' trace' τ', Returns (runTraced roster context limits stop) τ (report', trace') τ' ∧
        trace'.passes = [log] ∧
        report'.passes =
          [{ pass := 1
             factsBefore := τ.store.factCount
             factsAfter := τ.store.factCount
             ran := 0
             skipped := 0
             failed := 0
             deferred := (Run.pending (Run.active roster context limits) log.store.allNodes
               log.completed).length
             commit := {} }] ∧
        report'.stop = .noProgress ∧ τ'.store = τ.store) := by
  have hplain : Returns (run roster context limits stop) σ report σ' :=
    returns_run_iff.mpr ⟨trace, hrun⟩
  obtain ⟨rfl, hstore, hends⟩ := returns_runTraced hs hrun
  have hτstore : τ.store = Run.after (Run.active roster context limits) context σ.store
    report.passes.length := (congrArg Core.store hτ).trans hstore
  have hτcancelled : τ.cancelled = σ'.cancelled := congrArg Core.cancelled hτ
  have hkeyed : τ.store.Keyed := hτstore ▸ Run.keyed_after hs _
  constructor
  · intro hreason
    refine returns_run_of_agenda_nil hkeyed hreliable ?_ (hτstore ▸ hends.converged hreason)
    rw [hτcancelled, cancelled_of_converged hs hplain hreason,
      unasked_of_returns_run hs hplain (by simp [hreason])]
    rfl
  · intro hreason log hlog hdeferred
    obtain ⟨m, hm, -⟩ := hends.noProgress hreason
    rw [hm, Run.getLast?_traceOf] at hlog
    obtain rfl := Option.some.inj hlog
    have hstalled : Run.Stalled (Run.active roster context limits) context
      (Run.after (Run.active roster context limits) context σ.store m) := hdeferred
    -- the last pass has changed nothing, so the new run begins where that pass began
    have hlast : Run.after (Run.active roster context limits) context σ.store m = τ.store := by
      rw [hτstore, hm, Run.after_succ, hstalled.advance_eq]
    have hsome := hends.busy m hm
    have hc : (τ.cancelled || stop 0) = false := by
      rw [hτcancelled, cancelled_of_noProgress hs hplain hreason hm, hstalled.cancelling_eq_false,
        unasked_of_returns_run hs hplain (by simp [hreason])]
      rfl
    have hceiling : 0 < limits.maxPasses := by
      have := hends.le_ceiling
      omega
    rw [hlast] at hsome hstalled
    obtain ⟨report', trace', τ', hagain, htrace, hpasses, hstop, hkept⟩ :=
      returns_runTraced_of_stalled hkeyed hreliable hc hceiling hsome hstalled
    rw [hstalled.summaryOf_eq] at hpasses
    rw [Run.passLog, Run.after_zero] at htrace
    rw [Run.passLog, hlast]
    exact ⟨report', trace', τ', hagain, htrace, hpasses, hstop, hkept⟩

end Whole

/-- Marks whatever it looks at. -/
def stamp : Analyzer Unit Float where
  name := "stamp"
  inspect _ n := { findings := Findings.tag {} n.id "stamped", verdict := .done }

/-- Waits for a mark that nobody makes. -/
def waiter : Analyzer Unit Float where
  name := "waiter"
  contract := { consumes := KeySet.ofMembers ["sealed"] }
  inspect _ _ := { findings := {}, verdict := .done }

/-- A single page. -/
def page : State Float := { store := Store.empty.mergeNodes [Node.new "page" "file"] }

/-- A run of some analyzers, with its trace. -/
def office (analyzers : List (Analyzer Unit Float)) : Session Float (Report × Trace Float) :=
  runTraced ⟨analyzers⟩ () { maxPasses := 9, batchSize := 1 } fun _ => false

/-- One run converges and the other one waits; each of them is run again. -/
theorem rerun_at_fixed_point_page :
    (∃ report trace σ' report' τ', Returns (office [stamp]) page (report, trace) σ' ∧
      report.stop = .converged ∧
      Returns (run ⟨[stamp]⟩ () { maxPasses := 9, batchSize := 1 } fun _ => false)
        { store := σ'.store, cancelled := σ'.cancelled } report' τ' ∧
      report'.passes = [] ∧ report'.stop = .converged ∧ τ'.store = σ'.store) ∧
    ∃ report trace σ' log report' trace' τ',
      Returns (office [stamp, waiter]) page (report, trace) σ' ∧
      report.stop = .noProgress ∧ trace.passes.getLast? = some log ∧
      Returns (office [stamp, waiter]) { store := σ'.store, cancelled := σ'.cancelled }
        (report', trace') τ' ∧
      trace'.passes = [log] ∧ report'.stop = .noProgress ∧ τ'.store = σ'.store := by
  have hs : page.store.Keyed := Store.keyed_empty.mergeNodes _
  constructor
  · have hanswers : answers (office [stamp]) page (fun a => a.1.stop = .converged) = true := by
      decide +kernel
    obtain ⟨⟨report, trace⟩, hrun, hstop⟩ := exists_returns hanswers
    have hstop : report.stop = .converged := of_decide_eq_true hstop
    obtain ⟨report', τ', hagain⟩ := (rerun_at_fixed_point hs hrun
      (τ := { store := _, cancelled := _ }) rfl fun _ _ _ => rfl).1 hstop
    exact ⟨report, trace, _, report', τ', hrun, hstop, hagain⟩
  · have hanswers : answers (office [stamp, waiter]) page (fun a => a.1.stop = .noProgress ∧
        a.2.passes.getLast?.any fun log =>
          (Run.pending (Run.active ⟨[stamp, waiter]⟩ () { maxPasses := 9, batchSize := 1 })
            log.store.allNodes log.completed).all fun t => (Run.evaluate () t).isDeferred) = true := by
      decide +kernel
    obtain ⟨⟨report, trace⟩, hrun, htest⟩ := exists_returns hanswers
    obtain ⟨hstop, hlast⟩ := of_decide_eq_true htest
    have hstop : report.stop = .noProgress := hstop
    obtain ⟨log, hlog, hall⟩ := (Option.any_eq_true _ _).mp hlast
    obtain ⟨report', trace', τ', hagain, htrace, -, hstop', hkept⟩ := (rerun_at_fixed_point hs hrun
      (τ := { store := _, cancelled := _ }) rfl fun _ _ _ => rfl).2 hstop log hlog fun t ht =>
        Run.Evaluation.isDeferred_iff.mp (List.all_eq_true.mp hall t ht)
    exact ⟨report, trace, _, log, report', trace', τ', hrun, hstop, hlog, hagain, htrace, hstop',
      hkept⟩

end FactGraph
