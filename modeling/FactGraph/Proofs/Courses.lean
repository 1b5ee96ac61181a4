import FactGraph.Proofs.Runs

/-!
# The course of a run

Between two passes a run knows three things: the store, whether it is asked to stop, and what it has
to report so far.  `Run.course` is the loop as a function of these, with no calls and no errors:
what it will answer and what it will leave.  `Run.computes_loop` proves that the loop computes it, and
`exists_computes_run` that a run does.

`Run.Ends` says what is known about the end of a run; the course says which end it is.  So the
course is what two runs are compared by.
-/

namespace FactGraph

open Session

namespace Run

variable {γ μ : Type} [Measure μ]

/-- **The course of a loop**: what it answers, and the core that it leaves. -/
def course (active : List (Active γ μ)) (context : γ) (limits : Limits) (stop : Nat → Bool)
    (left : Nat) (p : Progress) (κ : Core μ) : (Progress × StopReason) × Core μ :=
  if κ.cancelled || stop p.passes.length then
    ((p.note (cancelledDiagnostic p.passes.length), .cancelled), ⟨κ.store, true⟩)
  else if agenda active κ.store = [] then ((p, .converged), ⟨κ.store, false⟩)
  else
    match left with
    | 0 =>
      ((p.note (ceilingDiagnostic limits.maxPasses (agenda active κ.store).length), .passCeiling),
        ⟨κ.store, false⟩)
    | left + 1 =>
      let q := p.next active context limits κ.store
      let next := advance active context (p.passes.length + 1) κ.store
      let asked := cancelling active context κ.store
      if next.factCount = κ.store.factCount then ((q, .noProgress), ⟨next, asked⟩)
      else course active context limits stop left q ⟨next, asked⟩

theorem computes_loop (active : List (Active γ μ)) (context : γ) (limits : Limits)
    (stop : Nat → Bool) (left : Nat) (p : Progress) (κ : Core μ) (hs : κ.store.Keyed)
    (hp : p.completed = κ.store.finished) :
    Computes (loop active context limits stop left p) κ
      (.ok (course active context limits stop left p κ).1)
      (course active context limits stop left p κ).2 := by
  induction left using Nat.strong_induction_on generalizing p κ with
  | _ left ih =>
  obtain ⟨s, b⟩ := κ
  rw [loop, course.eq_def]
  refine Computes.cancelIf ((Computes.isCancelled _).bind ?_)
  dsimp only
  cases hc : (b || stop p.passes.length) with
  | true => exact Computes.pure _ _
  | false =>
    refine (Computes.allNodes _).bind ?_
    have htasks : pending active s.allNodes p.completed = agenda active s := by
      rw [hp]
      rfl
    rw [htasks]
    by_cases hempty : agenda active s = []
    · rw [hempty]
      exact Computes.pure _ _
    · have hsome : ¬ (agenda active s).isEmpty = true :=
        fun h => hempty (List.isEmpty_iff.mp h)
      rw [if_neg hsome, if_neg Bool.false_ne_true, if_neg hempty]
      cases left with
      | zero => exact Computes.pure _ _
      | succ left =>
        have hpass := computes_onePass active context limits hs p false
        generalize hsummary : summaryOf active context limits _ s = summary at hpass
        have hstill : summary.factsAfter = summary.factsBefore ↔
            (advance active context (p.passes.length + 1) s).factCount = s.factCount := by
          rw [← hsummary]
          exact Iff.rfl
        refine hpass.bind ?_
        dsimp only
        rw [Bool.false_or]
        by_cases hfacts : (advance active context (p.passes.length + 1) s).factCount = s.factCount
        · rw [if_pos (hstill.mpr hfacts), if_pos hfacts]
          exact Computes.pure _ _
        · rw [if_neg (fun h => hfacts (hstill.mp h)), if_neg hfacts]
          exact ih left (Nat.lt_succ_self left) (p.next active context limits s) _
            (Commit.keyed_committed hs _ _) (completed_next active context limits hp _)

/-- A course counts up. -/
theorem length_le_course (active : List (Active γ μ)) (context : γ) (limits : Limits)
    (stop : Nat → Bool) (left : Nat) (p : Progress) (κ : Core μ) :
    p.passes.length ≤ (course active context limits stop left p κ).1.1.passes.length := by
  induction left generalizing p κ with
  | zero =>
    rw [course]
    split
    · exact Nat.le_refl _
    · split <;> exact Nat.le_refl _
  | succ left ih =>
    rw [course]
    split
    · exact Nat.le_refl _
    split
    · exact Nat.le_refl _
    dsimp only
    split
    · exact Nat.le_succ _
    · exact Nat.le_of_succ_le (ih (p.next active context limits κ.store) _)

/-- A course with something to do, which nothing stops, makes a pass. -/
theorem length_lt_course (active : List (Active γ μ)) (context : γ) (limits : Limits)
    (stop : Nat → Bool) (left : Nat) (p : Progress) (κ : Core μ)
    (hgoes : (κ.cancelled || stop p.passes.length) = false) (hbusy : agenda active κ.store ≠ []) :
    p.passes.length < (course active context limits stop (left + 1) p κ).1.1.passes.length := by
  rw [course, if_neg (Bool.eq_false_iff.mp hgoes), if_neg hbusy]
  dsimp only
  split
  · exact Nat.lt_succ_self _
  · exact length_le_course active context limits stop left (p.next active context limits κ.store) _

theorem keyed_course (active : List (Active γ μ)) (context : γ) (limits : Limits)
    (stop : Nat → Bool) (left : Nat) (p : Progress) (κ : Core μ) (hs : κ.store.Keyed) :
    (course active context limits stop left p κ).2.store.Keyed := by
  induction left generalizing p κ with
  | zero =>
    rw [course]
    split
    · exact hs
    · split <;> exact hs
  | succ left ih =>
    rw [course]
    split
    · exact hs
    split
    · exact hs
    dsimp only
    split
    · exact Commit.keyed_committed hs _ _
    · exact ih _ _ (Commit.keyed_committed hs _ _)

/-- The course of a whole run. -/
def courseOf (roster : Roster γ μ) (context : γ) (limits : Limits) (stop : Nat → Bool)
    (κ : Core μ) : (Progress × StopReason) × Core μ :=
  course (active roster context limits) context limits stop limits.maxPasses
    (start roster context limits κ.store) κ

/-- What a run reports that has come to its end. -/
def Progress.report (q : Progress) (active : List (Active γ μ)) (reason : StopReason)
    (found : List Unresolved) : Report :=
  { passes := q.passes.reverse
    stop := reason
    diagnostics := q.diagnostics ++ found.map Unresolved.diagnostic
    order := active.map (·.analyzer.name)
    unresolved := found }

end Run

section Whole

variable {γ μ : Type} [Measure μ] (roster : Roster γ μ) (context : γ) (limits : Limits)
  (stop : Nat → Bool)

/-- **A run computes its course**: it reports what the course says and leaves its core. -/
theorem computes_run {κ : Core μ} (hs : κ.store.Keyed)
    {ended : (Run.Progress × StopReason) × Core μ}
    (hended : Run.courseOf roster context limits stop κ = ended) {found : List Unresolved}
    (hfound : Computes (Run.unresolved (Run.active roster context limits) ended.1.1.completed)
      ended.2 (.ok found) ended.2) :
    Computes (run roster context limits stop) κ
      (.ok (ended.1.1.report (Run.active roster context limits) ended.1.2 found)) ended.2 := by
  have hloop := Run.computes_loop (Run.active roster context limits) context limits stop
    limits.maxPasses (Run.start roster context limits κ.store) κ hs rfl
  rw [← Run.courseOf, hended] at hloop
  exact (Computes.completedRuns _).bind (hloop.bind
    (hfound.bind (Computes.pure _ _)))

/-- A run reports the passes and the reason of its course, and leaves its core. -/
theorem exists_computes_run {κ : Core μ} (hs : κ.store.Keyed) :
    ∃ report, Computes (run roster context limits stop) κ (.ok report)
        (Run.courseOf roster context limits stop κ).2 ∧
      report.passes = (Run.courseOf roster context limits stop κ).1.1.passes.reverse ∧
      report.stop = (Run.courseOf roster context limits stop κ).1.2 := by
  obtain ⟨found, hfound⟩ := Run.computes_unresolved (Run.active roster context limits)
    (Run.courseOf roster context limits stop κ).1.1.completed _
  exact ⟨_, computes_run roster context limits stop hs rfl hfound, rfl, rfl⟩

/-- What an answer says about the course. -/
theorem course_of_returns_run {σ σ' : State μ} {report : Report} (hs : σ.store.Keyed)
    (h : Returns (run roster context limits stop) σ report σ') :
    report.passes = (Run.courseOf roster context limits stop σ.core).1.1.passes.reverse ∧
      report.stop = (Run.courseOf roster context limits stop σ.core).1.2 ∧
      σ'.core = (Run.courseOf roster context limits stop σ.core).2 := by
  obtain ⟨report', hrun, hpasses, hstop⟩ := exists_computes_run roster context limits stop
    (κ := σ.core) hs
  obtain ⟨hok, hcore⟩ := hrun.of_returns rfl h
  cases hok
  exact ⟨hpasses, hstop, hcore⟩

end Whole

end FactGraph
