import FactGraph.Proofs.OrderIndependence

/-!
# Analyzers that stay out

An analyzer that is disabled, or that cannot be set up, takes no part in a run.  It is still planned
with: its declarations decide in which order the others work, and every analyzer registered after it
has a position that counts it.  Neither is left in the graph.

The argument is a simulation between two runs, the one with the analyzer and the one without.

* **Positions.**  Leaving an analyzer out renumbers those after it, and renumbering keeps positions
  apart and in order (`Run.strictMono_shiftedAfter`).  A commit reads positions to sort its results and never
  again, so it does not see the new numbers (`Commit.committed_renumber`, `Commit.summary_renumber`).
* **Order.**  The same analyzers take part, in another order (`Run.alongside_of_not_joins`); and that order
  has been shown not to matter to a commit (`Commit.mergeSort_eq_of_perm`).

So each pass of one run does what the same pass of the other does (`Run.Alongside.advance_eq`), and a
course follows the other pass by pass (`Run.Alongside.course_eq`).
-/

namespace FactGraph

open Session

/-! ## 1. Renumbered results -/

/-- A result under another position. -/
def Completion.renumber {μ : Type} (f : Nat → Nat) (c : Completion μ) : Completion μ :=
  { c with position := f c.position }

namespace Commit

variable {μ : Type} {f : Nat → Nat} {results : List (Completion μ)}

/-- Renumbering that keeps positions in order keeps results in order. -/
theorem before_renumber (hf : StrictMono f) (a b : Completion μ) :
    before a b = before (a.renumber f) (b.renumber f) := by
  rw [Bool.eq_iff_iff, before_iff, before_iff]
  simp [place, Completion.renumber, Prod.Lex.toLex_le_toLex, hf.lt_iff_lt, hf.injective.eq_iff]

theorem mergeSort_renumber (hf : StrictMono f) (results : List (Completion μ)) :
    (results.map (Completion.renumber f)).mergeSort before =
      (results.mergeSort before).map (Completion.renumber f) := by
  refine (List.map_mergeSort ?_).symm
  intro a _ b _
  exact before_renumber hf a b

theorem writes_renumber (hf : StrictMono f) (results : List (Completion μ)) :
    writes (results.map (Completion.renumber f)) = writes results := by
  rw [writes, mergeSort_renumber hf, List.flatMap_map]
  rfl

theorem edges_renumber (hf : StrictMono f) (results : List (Completion μ)) :
    edges (results.map (Completion.renumber f)) = edges results := by
  rw [edges, mergeSort_renumber hf, List.flatMap_map]
  rfl

theorem rows_renumber (hf : StrictMono f) (results : List (Completion μ)) (number : Nat) :
    rows (results.map (Completion.renumber f)) number = rows results number := by
  rw [rows, mergeSort_renumber hf, List.map_map]
  rfl

section Measure

variable [Measure μ]

theorem folded_renumber (hf : StrictMono f) (s : Store μ) (results : List (Completion μ)) :
    folded s (results.map (Completion.renumber f)) = folded s results := by
  rw [folded_eq_foldl, writes_renumber hf, ← folded_eq_foldl]

/-- **The store that a commit leaves does not show positions.** -/
theorem committed_renumber (hf : StrictMono f) (s : Store μ) (results : List (Completion μ))
    (number : Nat) :
    committed s (results.map (Completion.renumber f)) number = committed s results number := by
  rw [committed, committed, joined, joined, written, written, folded_renumber hf,
    edges_renumber hf, rows_renumber hf]

/-- **What a commit reports does not show positions.** -/
theorem summary_renumber (hf : StrictMono f) (s : Store μ) (results : List (Completion μ))
    (number size : Nat) :
    summary s (results.map (Completion.renumber f)) number size = summary s results number size := by
  have hidle : (((results.map (Completion.renumber f)).mergeSort before).filter
      (·.findings.isEmpty)).length = ((results.mergeSort before).filter (·.findings.isEmpty)).length := by
    rw [mergeSort_renumber hf, List.filter_map, List.length_map]
    rfl
  rw [summary, summary, joined, joined, written, written, folded_renumber hf, edges_renumber hf,
    rows_renumber hf, hidle]

/-- Results in another order and under other positions are committed alike. -/
theorem committed_of_perm (hf : StrictMono f) {results' : List (Completion μ)}
    (hperm : results'.Perm (results.map (Completion.renumber f)))
    (hplaces : (results'.map place).Nodup) (s : Store μ) (number size : Nat) :
    committed s results' number = committed s results number ∧
      summary s results' number size = summary s results number size := by
  have hsorted := mergeSort_eq_of_perm hperm hplaces
  have hcommitted : committed s results' number =
      committed s (results.map (Completion.renumber f)) number := by
    rw [committed, committed, joined, joined, written, written, folded, folded, edges, edges, rows,
      rows, hsorted]
  have hsummary : summary s results' number size =
      summary s (results.map (Completion.renumber f)) number size := by
    rw [summary, summary, joined, joined, written, written, folded, folded, edges, edges, rows,
      rows, hsorted]
  exact ⟨hcommitted.trans (committed_renumber hf s results number),
    hsummary.trans (summary_renumber hf s results number size)⟩

end Measure

end Commit

/-! ## 2. Renumbered analyzers -/

namespace Run

variable {γ μ : Type}

/-- An analyzer that takes part under another position. -/
def Active.renumber (f : Nat → Nat) (x : Active γ μ) : Active γ μ := ⟨f x.position, x.analyzer⟩

/-- A task of an analyzer under another position. -/
def Task.renumber (f : Nat → Nat) (t : Task γ μ) : Task γ μ := ⟨t.active.renumber f, t.node⟩

/-- What a task came to, under another position. -/
def Evaluation.renumber (f : Nat → Nat) : Evaluation μ → Evaluation μ
  | .deferred => .deferred
  | .finished c cancels => .finished (c.renumber f) cancels

@[simp] theorem Evaluation.completion?_renumber (f : Nat → Nat) (e : Evaluation μ) :
    (e.renumber f).completion? = e.completion?.map (Completion.renumber f) := by
  cases e <;> rfl

@[simp] theorem Evaluation.cancels_renumber (f : Nat → Nat) (e : Evaluation μ) :
    (e.renumber f).cancels = e.cancels := by
  cases e <;> rfl

@[simp] theorem Evaluation.isDeferred_renumber (f : Nat → Nat) (e : Evaluation μ) :
    (e.renumber f).isDeferred = e.isDeferred := by
  cases e <;> rfl

theorem Task.conclude_renumber (f : Nat → Nat) (t : Task γ μ) (result : Inspection μ) :
    (t.renumber f).conclude result = (t.conclude result).renumber f := by
  unfold Task.conclude
  cases result.verdict with
  | done =>
    dsimp only
    split
    · rfl
    · rfl
  | notApplicable => rfl
  | failed message => rfl
  | crashed message => rfl

/-- **What a task comes to does not depend on the position of its analyzer.** -/
theorem evaluate_renumber (f : Nat → Nat) (context : γ) (t : Task γ μ) :
    evaluate context (t.renumber f) = (evaluate context t).renumber f := by
  have hanalyzer : (t.renumber f).active.analyzer = t.active.analyzer := rfl
  have hnode : (t.renumber f).node = t.node := rfl
  rw [evaluate, evaluate, hanalyzer, hnode]
  cases t.node.hasAllTags t.active.analyzer.contract.consumes.members with
  | false => rfl
  | true =>
    cases t.active.analyzer.supports t.node with
    | error message => rfl
    | ok answer =>
      cases answer with
      | false => rfl
      | true => exact congrArg (Evaluation.finished · _) (t.conclude_renumber f _)

theorem completions_renumber (f : Nat → Nat) (context : γ) (tasks : List (Task γ μ)) :
    completions context (tasks.map (Task.renumber f)) =
      (completions context tasks).map (Completion.renumber f) := by
  simp only [completions, List.map_map, List.filterMap_map, List.map_filterMap]
  refine List.filterMap_congr fun t _ => ?_
  simp [evaluate_renumber]

theorem agenda_renumber (f : Nat → Nat) (active : List (Active γ μ)) (s : Store μ) :
    agenda (active.map (Active.renumber f)) s = (agenda active s).map (Task.renumber f) := by
  rw [agenda, agenda, pending, pending, List.flatMap_map, List.map_flatMap]
  refine List.flatMap_congr fun x _ => ?_
  rw [List.map_map]
  rfl

/-! ## 3. Runs side by side -/

/-- **The same analyzers take part in two runs**, in any order, and under positions of their own that
are in the same order. -/
structure Alongside (f : Nat → Nat) (active active' : List (Active γ μ)) : Prop where
  ordered : StrictMono f
  same : active.Perm (active'.map (Active.renumber f))
  nodup : (active.map (·.position)).Nodup

/-- Two runs stand at the same point, apart from what they have noted. -/
structure Progress.Matches (p p' : Progress) : Prop where
  completed : p.completed = p'.completed
  passes : p.passes = p'.passes

theorem Progress.Matches.note {p p' : Progress} (h : p.Matches p') (d d' : Diagnostic) :
    (p.note d).Matches (p'.note d') :=
  ⟨h.completed, h.passes⟩

namespace Alongside

variable {f : Nat → Nat} {active active' : List (Active γ μ)}

theorem agenda_perm (h : Alongside f active active') (s : Store μ) :
    (agenda active s).Perm ((agenda active' s).map (Task.renumber f)) := by
  rw [← agenda_renumber]
  exact h.same.flatMap_right _

theorem agenda_eq_nil (h : Alongside f active active') (s : Store μ) :
    agenda active s = [] ↔ agenda active' s = [] := by
  have hlength := (h.agenda_perm s).length_eq
  rw [List.length_map] at hlength
  rw [← List.length_eq_zero_iff, ← List.length_eq_zero_iff, hlength]

/-- The two runs evaluate the same, one after the other. -/
theorem evaluations_perm (h : Alongside f active active') (context : γ) (s : Store μ) :
    ((agenda active s).map (evaluate context)).Perm
      (((agenda active' s).map (evaluate context)).map (Evaluation.renumber f)) := by
  have hperm := (h.agenda_perm s).map (evaluate context)
  rw [List.map_map] at hperm ⊢
  refine hperm.trans (List.Perm.of_eq (List.map_congr_left ?_))
  intro t _
  exact evaluate_renumber f context t

theorem finishing_perm (h : Alongside f active active') (context : γ) (s : Store μ) :
    (finishing active context s).Perm ((finishing active' context s).map (Completion.renumber f)) := by
  rw [finishing, finishing, ← completions_renumber]
  exact ((h.agenda_perm s).map (evaluate context)).filterMap Evaluation.completion?

theorem cancelling_eq (h : Alongside f active active') (context : γ) (s : Store μ) :
    cancelling active context s = cancelling active' context s := by
  rw [cancelling, (h.evaluations_perm context s).any_eq, List.any_map]
  unfold cancelling
  congr 1
  funext e
  exact e.cancels_renumber f

theorem countOutcome_eq (h : Alongside f active active') (context : γ) (s : Store μ)
    (outcome : Outcome) :
    countOutcome (finishing active context s) outcome =
      countOutcome (finishing active' context s) outcome := by
  have hperm := (h.finishing_perm context s).filter fun c => decide (c.outcome = outcome)
  rw [countOutcome, hperm.length_eq, List.filter_map, List.length_map]
  rfl

theorem deferred_eq (h : Alongside f active active') (context : γ) (s : Store μ) :
    (((agenda active s).map (evaluate context)).filter Evaluation.isDeferred).length =
      (((agenda active' s).map (evaluate context)).filter Evaluation.isDeferred).length := by
  rw [((h.evaluations_perm context s).filter _).length_eq, List.filter_map, List.length_map]
  congr 2
  funext e
  exact e.isDeferred_renumber f

/-- The two runs take the same pairs for finished after a pass. -/
theorem completed_eq (h : Alongside f active active') (context : γ) (s : Store μ)
    (completed : KeySet Pair) :
    (finishing active context s).foldl (fun done c => done.add c.pair) completed =
      (finishing active' context s).foldl (fun done c => done.add c.pair) completed := by
  rw [completed_of_perm (h.finishing_perm context s), List.foldl_map]
  rfl

/-- The two runs wait for the same, if they have finished the same. -/
theorem waiting_perm (h : Alongside f active active') (completed : KeySet Pair) (s : Store μ) :
    (waiting active completed s).Perm (waiting active' completed s) := by
  have hrenumber : waiting (active'.map (Active.renumber f)) completed s =
      waiting active' completed s := by
    simp only [waiting, List.filter_map, List.map_map]
    rfl
  rw [← hrenumber]
  exact ((h.same.filter _).map _).filter _

variable [Measure μ] {s : Store μ}

/-- **A pass of one run leaves what the same pass of the other leaves.** -/
theorem advance_eq (h : Alongside f active active') (context : γ) (hs : s.Keyed) (number : Nat) :
    advance active context number s = advance active' context number s :=
  (Commit.committed_of_perm h.ordered (h.finishing_perm context s)
    (nodup_places_finishing hs h.nodup) s number 0).1

/-- **A pass of one run is reported like the same pass of the other.** -/
theorem summaryOf_eq (h : Alongside f active active') (context : γ) (limits : Limits) (hs : s.Keyed)
    (number : Nat) :
    summaryOf active context limits number s = summaryOf active' context limits number s := by
  have hcommit : Commit.summary s (finishing active context s) number limits.batchSize =
      Commit.summary s (finishing active' context s) number limits.batchSize :=
    (Commit.committed_of_perm h.ordered (h.finishing_perm context s)
      (nodup_places_finishing hs h.nodup) s number limits.batchSize).2
  simp only [summaryOf, h.advance_eq context hs, h.countOutcome_eq, h.deferred_eq, hcommit]

/-- **One run follows the other, pass by pass.**  They come to the same end with the same store, and
report the same passes. -/
theorem course_eq (h : Alongside f active active') (context : γ) (limits : Limits)
    (stop : Nat → Bool) (left : Nat) {p p' : Progress} (hp : p.Matches p') (κ : Core μ)
    (hs : κ.store.Keyed) :
    (course active context limits stop left p κ).1.1.Matches
        (course active' context limits stop left p' κ).1.1 ∧
      (course active context limits stop left p κ).1.2 =
        (course active' context limits stop left p' κ).1.2 ∧
      (course active context limits stop left p κ).2 =
        (course active' context limits stop left p' κ).2 := by
  -- on the passes that are left; the invariant is that both stand at the same point
  induction left generalizing p p' κ with
  | zero =>
    rw [course.eq_def, course.eq_def active', hp.passes]
    split
    · exact ⟨hp.note _ _, rfl, rfl⟩
    simp only [h.agenda_eq_nil κ.store]
    split
    · exact ⟨hp, rfl, rfl⟩
    · exact ⟨hp.note _ _, rfl, rfl⟩
  | succ left ih =>
    rw [course.eq_def, course.eq_def active', hp.passes]
    split
    · exact ⟨hp.note _ _, rfl, rfl⟩
    simp only [h.agenda_eq_nil κ.store]
    split
    · exact ⟨hp, rfl, rfl⟩
    have hnext : (p.next active context limits κ.store).Matches
        (p'.next active' context limits κ.store) := by
      constructor
      · unfold Progress.next
        dsimp only
        rw [hp.completed, h.completed_eq]
      · unfold Progress.next
        dsimp only
        rw [hp.passes, h.summaryOf_eq context limits hs]
    rw [h.advance_eq context hs, h.cancelling_eq]
    split
    · exact ⟨hnext, rfl, rfl⟩
    · exact ih hnext _ (Commit.keyed_committed hs _ _)

end Alongside

/-! ## 4. Leaving an analyzer out -/

/-- The position of what stands at `p` once something is put in at `k`. -/
def shiftedAfter (k p : Nat) : Nat := if p < k then p else p + 1

theorem strictMono_shiftedAfter (k : Nat) : StrictMono (shiftedAfter k) := by
  intro p q hpq
  unfold shiftedAfter
  split <;> split <;> omega

theorem getElem?_shiftedAfter {α : Type} (before after : List α) (u : α) (p : Nat) :
    (before ++ u :: after)[shiftedAfter before.length p]? = (before ++ after)[p]? := by
  unfold shiftedAfter
  split
  · next hlt => rw [List.getElem?_append_left hlt, List.getElem?_append_left hlt]
  · next hge =>
    have hle : before.length ≤ p := Nat.not_lt.mp hge
    rw [List.getElem?_append_right hle, List.getElem?_append_right (Nat.le_succ_of_le hle),
      Nat.succ_sub hle, List.getElem?_cons_succ]

theorem exists_shiftedAfter {k p : Nat} (h : p ≠ k) : ∃ q, shiftedAfter k q = p := by
  rcases Nat.lt_or_gt_of_ne h with hlt | hgt
  · exact ⟨p, if_pos hlt⟩
  · refine ⟨p - 1, ?_⟩
    rw [shiftedAfter, if_neg (by omega)]
    omega

variable {before after : List (Analyzer γ μ)} {u : Analyzer γ μ} {context : γ} {limits : Limits}

/-- **Who takes part does not change when an analyzer that stays out is left out**; only positions
do. -/
theorem alongside_of_not_joins (hu : ¬ Joins context limits u) :
    Alongside (shiftedAfter before.length) (active ⟨before ++ u :: after⟩ context limits)
      (active ⟨before ++ after⟩ context limits) where
  ordered := strictMono_shiftedAfter _
  nodup := nodup_active_positions
  same := by
    have hinj := (strictMono_shiftedAfter before.length).injective
    have hrenumber : Function.Injective (Active.renumber (γ := γ) (μ := μ)
        (shiftedAfter before.length)) := by
      rintro ⟨p, a⟩ ⟨q, b⟩ heq
      simp only [Active.renumber, Active.mk.injEq] at heq
      rw [hinj heq.1, heq.2]
    refine (List.perm_ext_iff_of_nodup nodup_active_positions.of_map
      (nodup_active_positions.of_map.map hrenumber)).mpr ?_
    intro x
    rw [mem_active, List.mem_map]
    constructor
    · rintro ⟨hget, hjoins⟩
      have hne : x.position ≠ before.length := by
        intro heq
        rw [heq, List.getElem?_append_right (Nat.le_refl _), Nat.sub_self] at hget
        cases hget
        exact hu hjoins
      obtain ⟨q, hq⟩ := exists_shiftedAfter hne
      refine ⟨⟨q, x.analyzer⟩, mem_active.mpr ⟨?_, hjoins⟩, ?_⟩
      · rw [← hget, ← hq]
        exact (getElem?_shiftedAfter before after u q).symm
      · rw [Active.renumber, hq]
    · rintro ⟨y, hy, rfl⟩
      obtain ⟨hget, hjoins⟩ := mem_active.mp hy
      exact ⟨(getElem?_shiftedAfter before after u y.position).trans hget, hjoins⟩

end Run

section Whole

variable {γ μ : Type} [Measure μ]

/-- **An analyzer that stays out leaves no trace.**  A run in which an analyzer is disabled or cannot be
set up and a run without that analyzer stop for the same reason, report the same passes, wait for the
same in vain, and leave the same nodes, edges and ledger. -/
theorem run_without_inert {σ : State μ} (hσ : σ.Reliable) (hs : σ.store.Keyed)
    (before after : List (Analyzer γ μ)) (u : Analyzer γ μ) (context : γ) (limits : Limits)
    (stop : Nat → Bool)
    (hu : limits.disabled.contains u.name = true ∨ ∃ message, u.setup context = .error message) :
    ∃ report report' τ τ',
      Returns (run ⟨before ++ u :: after⟩ context limits stop) σ report τ ∧
      Returns (run ⟨before ++ after⟩ context limits stop) σ report' τ' ∧
      report.stop = report'.stop ∧ report.passes = report'.passes ∧
      report.unresolved.Perm report'.unresolved ∧ τ.store = τ'.store := by
  have hstays : ¬ Run.Joins context limits u := by
    rintro ⟨hdisabled, hsetup⟩
    rcases hu with hu | ⟨message, hu⟩
    · rw [hdisabled] at hu
      cases hu
    · rw [hsetup] at hu
      cases hu
  have halong : Run.Alongside (Run.shiftedAfter before.length)
      (Run.active ⟨before ++ u :: after⟩ context limits) (Run.active ⟨before ++ after⟩ context limits) :=
    Run.alongside_of_not_joins hstays
  have hstart : (Run.start ⟨before ++ u :: after⟩ context limits σ.store).Matches
      (Run.start ⟨before ++ after⟩ context limits σ.store) := ⟨rfl, rfl⟩
  obtain ⟨hmatches, hreason, hcore⟩ :
      (Run.courseOf ⟨before ++ u :: after⟩ context limits stop σ.core).1.1.Matches
          (Run.courseOf ⟨before ++ after⟩ context limits stop σ.core).1.1 ∧
        (Run.courseOf ⟨before ++ u :: after⟩ context limits stop σ.core).1.2 =
          (Run.courseOf ⟨before ++ after⟩ context limits stop σ.core).1.2 ∧
        (Run.courseOf ⟨before ++ u :: after⟩ context limits stop σ.core).2 =
          (Run.courseOf ⟨before ++ after⟩ context limits stop σ.core).2 :=
    halong.course_eq context limits stop limits.maxPasses hstart σ.core hs
  generalize hended : Run.courseOf ⟨before ++ u :: after⟩ context limits stop σ.core = ended
    at hmatches hreason hcore
  generalize hended' : Run.courseOf ⟨before ++ after⟩ context limits stop σ.core = ended'
    at hmatches hreason hcore
  obtain ⟨τ, hτ, hleft, -⟩ := (computes_run ⟨before ++ u :: after⟩ context limits stop hs hended
    (Run.computes_waiting _ _ _)).run_eq (σ := σ) rfl hσ
  obtain ⟨τ', hτ', hleft', -⟩ := (computes_run ⟨before ++ after⟩ context limits stop hs hended'
    (Run.computes_waiting _ _ _)).run_eq (σ := σ) rfl hσ
  refine ⟨_, _, τ, τ', hτ, hτ', hreason, congrArg List.reverse hmatches.passes, ?_, ?_⟩
  · show (Run.waiting _ ended.1.1.completed ended.2.store).Perm
      (Run.waiting _ ended'.1.1.completed ended'.2.store)
    rw [← hmatches.completed, ← hcore]
    exact halong.waiting_perm _ _
  · rw [hcore, ← hleft'] at hleft
    exact congrArg Core.store hleft

end Whole

/-- A rival that depends on others by tags. -/
def dependent (name : String) (consumes produces : List String) : Analyzer Unit Float :=
  { rival name with
    contract := { consumes := KeySet.ofMembers consumes, produces := KeySet.ofMembers produces } }

/-- A node that has been looked at before. -/
def halfway : State Float :=
  { store := Store.empty.mergeNodes [(Node.new "a" "folder").tag "middle"] }

/-- The analyzer in the middle is disabled.  It turns the order of the two rivals around, and it moves
the position of the second; which of them has the last word does not change. -/
theorem run_without_inert_middle :
    (Plan.ofDeclarations (Roster.declarations ⟨[dependent "x" ["middle"] ["end"],
        dependent "u" ["base"] ["middle"], dependent "y" [] ["base"]]⟩)).order = [2, 1, 0] ∧
      (Plan.ofDeclarations (Roster.declarations ⟨[dependent "x" ["middle"] ["end"],
        dependent "y" [] ["base"]]⟩)).order = [0, 1] ∧
      ∃ report report' τ τ',
        Returns (run ⟨[dependent "x" ["middle"] ["end"]] ++ dependent "u" ["base"] ["middle"] ::
          [dependent "y" [] ["base"]]⟩ () { maxPasses := 9, batchSize := 2, disabled := ["u"] }
          fun _ => false) halfway report τ ∧
        Returns (run ⟨[dependent "x" ["middle"] ["end"]] ++ [dependent "y" [] ["base"]]⟩ ()
          { maxPasses := 9, batchSize := 2, disabled := ["u"] } fun _ => false) halfway report' τ' ∧
        report.stop = report'.stop ∧ report.passes = report'.passes ∧
        report.unresolved.Perm report'.unresolved ∧ τ.store = τ'.store := by
  refine ⟨by decide +kernel, by decide +kernel, ?_⟩
  exact run_without_inert (fun _ _ _ => rfl) (Store.keyed_empty.mergeNodes _) _ _ _ _ _ _
    (.inl (by decide))

end FactGraph
