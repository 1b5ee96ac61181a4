import FactGraph.Proofs.Courses

/-!
# Going on where a run was cut off

A run that reaches its ceiling, or is asked to stop, leaves its work in the store.  The next run knows
nothing of the first but the store, and numbers its passes from one again.

What a pass does depends on the store only up to the numbers of passes in the ledger
(`Run.Alike.undated_advance`).  So two courses that start from such stores, with as many passes to go, go
the same way (`Run.course_shift`).  And a run that was cut off has gone the first part of the way
that a longer run goes (`Run.course_of_cut`).  Both together are `resumed_run`: the second run ends
as one run with both ceilings together would have ended.
-/

namespace FactGraph

open Session

/-! ## 1. Stores without dates -/

/-- A ledger entry without the number of its pass. -/
def Finish.undated (f : Finish) : Finish := { f with pass := 0 }

namespace Store

variable {μ : Type}

/-- The store without the numbers of passes in its ledger. -/
def undated (s : Store μ) : Store μ := { s with ledger := s.ledger.mapValues fun _ f => f.undated }

theorem undated_eq_iff {s t : Store μ} :
    s.undated = t.undated ↔ s.rows = t.rows ∧ s.tags = t.tags ∧ s.edges = t.edges ∧
      (s.ledger.mapValues fun _ f => f.undated) = t.ledger.mapValues fun _ f => f.undated := by
  rw [undated, undated, Store.mk.injEq]

theorem undated_undated (s : Store μ) : s.undated.undated = s.undated := by
  refine undated_eq_iff.mpr ⟨rfl, rfl, rfl, Table.ext_get? fun pair => ?_⟩
  rw [undated, Table.get?_mapValues, Table.get?_mapValues, Option.map_map]
  rfl

theorem nodes_eq_of_undated {s t : Store μ} (h : s.undated = t.undated) : s.nodes = t.nodes := by
  show s.undated.nodes = t.undated.nodes
  rw [h]

theorem factCount_eq_of_undated {s t : Store μ} (h : s.undated = t.undated) :
    s.factCount = t.factCount := by
  show s.undated.factCount = t.undated.factCount
  rw [h]

theorem finished_undated (s : Store μ) : s.undated.finished = s.finished := by
  refine KeySet.ext_contains fun pair => ?_
  rw [contains_finished, contains_finished, undated, Table.contains_mapValues]

theorem mergeNodes_undated [Measure μ] (s : Store μ) (batch : List (Node μ)) :
    s.undated.mergeNodes batch = (s.mergeNodes batch).undated := by
  induction batch generalizing s with
  | nil => rfl
  | cons n rest ih => exact ih (s.mergeNode n)

theorem addEdge_undated (s : Store μ) (e : Edge) :
    s.undated.addEdge e = ((s.addEdge e).1.undated, (s.addEdge e).2) := by
  rw [addEdge, addEdge]
  show (if s.edges.contains e.key then _ else _) = _
  split <;> rfl

theorem addEdges_undated (s : Store μ) (edges : List Edge) :
    s.undated.addEdges edges = ((s.addEdges edges).1.undated, (s.addEdges edges).2) := by
  induction edges generalizing s with
  | nil => rfl
  | cons e rest ih => rw [addEdges, addEdge_undated, ih, addEdges]

/-- What is noted shows without its date. -/
theorem undated_note (s : Store μ) (rows : List LedgerRow) :
    (s.note rows).undated =
      s.undated.note (rows.map fun row => ⟨row.pair, row.finish.undated⟩) := by
  have hledger : ∀ ledger : Table Pair Finish,
      (rows.foldl (fun t row => t.insert row.pair row.finish) ledger).mapValues
          (fun _ f => f.undated) =
        (rows.map fun row => (⟨row.pair, row.finish.undated⟩ : LedgerRow)).foldl
          (fun t row => t.insert row.pair row.finish) (ledger.mapValues fun _ f => f.undated) := by
    induction rows with
    | nil => exact fun _ => rfl
    | cons row rest ih =>
      intro ledger
      rw [List.foldl_cons, ih, List.map_cons, List.foldl_cons, Table.mapValues_insert]
  rw [undated, note, hledger]
  rfl

end Store

/-- A commit looks at no date, and its own shows only in the dates that it writes. -/
theorem Commit.undated_committed {μ : Type} [Measure μ] (s : Store μ) (results : List (Completion μ))
    (number number' : Nat) :
    (committed s results number).undated = (committed s.undated results number').undated := by
  have hwritten : written s.undated results = (written s results).undated :=
    Store.mergeNodes_undated s _
  have hjoined : (joined s.undated results).1 = (joined s results).1.undated := by
    rw [joined, hwritten, Store.addEdges_undated]
    rfl
  rw [committed, committed, hjoined, Store.undated_note, Store.undated_note, Store.undated_undated, rows,
    rows, List.map_map, List.map_map]
  rfl

/-! ## 2. The same work -/

/-- The analyzer, but it never asks a run to stop. -/
def Analyzer.silent {γ μ : Type} (a : Analyzer γ μ) : Analyzer γ μ :=
  { a with inspect := fun context n => { a.inspect context n with cancels := false } }

/-- The roster, but nobody asks a run to stop. -/
def Roster.silent {γ μ : Type} (r : Roster γ μ) : Roster γ μ := ⟨r.analyzers.map Analyzer.silent⟩

namespace Run

variable {γ μ : Type} {active active' : List (Active γ μ)} {context context' : γ}

theorem agenda_undated (active : List (Active γ μ)) (s : Store μ) :
    agenda active s.undated = agenda active s := by
  rw [agenda, Store.finished_undated]
  rfl

theorem active_of_mem_agenda {s : Store μ} {t : Task γ μ} (h : t ∈ agenda active s) :
    t.active ∈ active := by
  obtain ⟨x, hx, ht⟩ := List.mem_flatMap.mp h
  obtain ⟨n, -, rfl⟩ := List.mem_map.mp ht
  exact hx

/-- Two crews do the same work: they have something to do at the same time, and finish the same. -/
structure Alike (active active' : List (Active γ μ)) (context context' : γ) : Prop where
  idle : ∀ s, agenda active' s = [] ↔ agenda active s = []
  finishing : ∀ s, finishing active' context' s = finishing active context s

/-- A crew in other surroundings does the same work if these do not show in inspections. -/
theorem alike_of_inspect (h : ∀ x ∈ active, x.analyzer.inspect context' = x.analyzer.inspect context) :
    Alike active active context context' ∧
      ∀ s, cancelling active context' s = cancelling active context s := by
  have heval : ∀ s, (agenda active s).map (evaluate context') =
      (agenda active s).map (evaluate context) := by
    intro s
    refine List.map_congr_left fun t ht => ?_
    rw [evaluate, evaluate, h t.active (active_of_mem_agenda ht)]
  refine ⟨⟨fun _ => Iff.rfl, fun s => ?_⟩, fun s => ?_⟩
  · rw [finishing, completions, heval]
    rfl
  · rw [cancelling, heval]
    rfl

/-- The analyzer that takes part, but it never asks to stop. -/
def Active.silent (x : Active γ μ) : Active γ μ := ⟨x.position, x.analyzer.silent⟩

theorem agenda_silent (s : Store μ) :
    agenda (active.map Active.silent) s = (agenda active s).map fun t => ⟨t.active.silent, t.node⟩ := by
  rw [agenda, agenda, pending, pending, List.flatMap_map, List.map_flatMap]
  refine List.flatMap_congr fun x _ => ?_
  rw [List.map_map]
  rfl

theorem evaluate_silent (t : Task γ μ) :
    (evaluate context ⟨t.active.silent, t.node⟩).completion? = (evaluate context t).completion? ∧
      (evaluate context ⟨t.active.silent, t.node⟩).cancels = false := by
  cases htags : t.node.hasAllTags t.active.analyzer.contract.consumes.members with
  | false => simp [evaluate, Active.silent, Analyzer.silent, htags, Evaluation.cancels]
  | true =>
    simp only [evaluate, Active.silent, Analyzer.silent, htags]
    cases t.active.analyzer.supports t.node with
    | error message => exact ⟨rfl, rfl⟩
    | ok answer =>
      cases answer with
      | false => exact ⟨rfl, rfl⟩
      | true => exact ⟨rfl, rfl⟩

/-- A crew that never asks to stop does the same work. -/
theorem alike_silent (active : List (Active γ μ)) (context : γ) :
    Alike active (active.map Active.silent) context context ∧
      ∀ s, cancelling (active.map Active.silent) context s = false := by
  refine ⟨⟨fun s => ?_, fun s => ?_⟩, fun s => ?_⟩
  · rw [agenda_silent, List.map_eq_nil_iff]
  · rw [finishing, finishing, completions, completions, agenda_silent, List.filterMap_map,
      List.filterMap_map, List.filterMap_map]
    exact List.filterMap_congr fun t _ => (evaluate_silent t).1
  · rw [cancelling, agenda_silent, List.map_map, List.any_map, List.any_eq_false]
    intro t _
    simp [(evaluate_silent t).2]

theorem Alike.trans {active'' : List (Active γ μ)} {context'' : γ}
    (h : Alike active active' context context') (h' : Alike active' active'' context' context'') :
    Alike active active'' context context'' :=
  ⟨fun s => (h'.idle s).trans (h.idle s), fun s => (h'.finishing s).trans (h.finishing s)⟩

/-- Who takes part does not depend on surroundings that do not show in setting up. -/
theorem active_congr {roster : Roster γ μ} {limits limits' : Limits}
    (h : ∀ a ∈ roster.analyzers, a.setup context' = a.setup context)
    (hlimits : limits'.disabled = limits.disabled) :
    Run.active roster context' limits' = Run.active roster context limits := by
  rw [Run.active, Run.active, activate_fst, activate_fst]
  refine List.filterMap_congr fun position _ => ?_
  rw [joining, joining, hlimits]
  cases ha : roster.analyzers[position]? with
  | none => rfl
  | some a => rw [Option.bind_some, Option.bind_some, h a (List.mem_of_getElem? ha)]

theorem active_silent (roster : Roster γ μ) (context : γ) (limits : Limits) :
    Run.active roster.silent context limits =
      (Run.active roster context limits).map Active.silent := by
  have hdeclarations : roster.silent.declarations = roster.declarations := by
    rw [Roster.declarations, Roster.silent, List.map_map]
    rfl
  rw [Run.active, Run.active, activate_fst, activate_fst, hdeclarations, List.map_filterMap]
  refine List.filterMap_congr fun position _ => ?_
  rw [joining, joining, Roster.silent, List.getElem?_map]
  cases roster.analyzers[position]? with
  | none => rfl
  | some a =>
    simp only [Option.map_some, Option.bind_some, Analyzer.silent]
    cases limits.disabled.contains a.name with
    | true => rfl
    | false =>
      cases a.setup context with
      | ok _ => rfl
      | error _ => rfl

section Course

variable [Measure μ] {limits limits' : Limits} {stop stop' : Nat → Bool}

/-- **What a pass leaves does not depend on dates**, neither on its own nor on those in the ledger. -/
theorem Alike.undated_advance (h : Alike active active' context context') {s s' : Store μ}
    (hs : s'.undated = s.undated) (number number' : Nat) :
    (advance active' context' number' s').undated = (advance active context number s).undated := by
  have hfinishing : ∀ t : Store μ,
      Run.finishing active context t = Run.finishing active context t.undated := by
    intro t
    rw [Run.finishing, Run.finishing, agenda_undated]
  have hresults : Run.finishing active' context' s' = Run.finishing active context s := by
    rw [h.finishing, hfinishing, hs, ← hfinishing]
  rw [advance, advance, hresults, Commit.undated_committed s' _ number' 0, hs,
    ← Commit.undated_committed s _ number 0]

theorem Alike.advance_eq (h : Alike active active' context context') (number : Nat) (s : Store μ) :
    advance active' context' number s = advance active context number s := by
  rw [advance, advance, h.finishing]

theorem Alike.after_eq (h : Alike active active' context context') (s : Store μ) (n : Nat) :
    after active' context' s n = after active context s n := by
  induction n with
  | zero => rfl
  | succ n ih => rw [after_succ, after_succ, ih, h.advance_eq]

/-! ## 3. Courses side by side -/

/-- Two courses end in the same way, the second one `k` passes later. -/
structure SameEnd (k : Nat) (ended ended' : (Progress × StopReason) × Core μ) : Prop where
  reason : ended'.1.2 = ended.1.2
  length : ended'.1.1.passes.length = k + ended.1.1.passes.length
  store : ended'.2.store.undated = ended.2.store.undated

/-- **Courses that start alike go the same way**: with the same work, as many passes to go, stores that
differ in dates only, and the same requests to stop. -/
theorem course_shift (limits limits' : Limits) (halike : Alike active active' context context')
    (hcancelling : ∀ s, cancelling active' context' s = cancelling active context s) {k : Nat}
    (hstop : ∀ i, stop' (k + i) = stop i) (left : Nat) (p p' : Progress) (κ κ' : Core μ)
    (hp : p'.passes.length = k + p.passes.length) (hstore : κ'.store.undated = κ.store.undated)
    (hcancelled : κ'.cancelled = κ.cancelled) :
    SameEnd k (course active context limits stop left p κ)
      (course active' context' limits' stop' left p' κ') := by
  induction left using Nat.strong_induction_on generalizing p p' κ κ' with
  | _ left ih =>
  have hidle : agenda active' κ'.store = [] ↔ agenda active κ.store = [] := by
    rw [halike.idle, ← agenda_undated, hstore, agenda_undated]
  have hasked : cancelling active' context' κ'.store = cancelling active context κ.store := by
    rw [hcancelling, cancelling, ← agenda_undated, hstore, agenda_undated]
    rfl
  rw [course.eq_def, course.eq_def, hp, hstop, hcancelled]
  by_cases hc : (κ.cancelled || stop p.passes.length) = true
  · rw [if_pos hc, if_pos hc]
    exact ⟨rfl, hp, hstore⟩
  rw [if_neg hc, if_neg hc]
  by_cases hempty : agenda active κ.store = []
  · rw [if_pos hempty, if_pos (hidle.mpr hempty)]
    exact ⟨rfl, hp, hstore⟩
  rw [if_neg hempty, if_neg fun h => hempty (hidle.mp h)]
  cases left with
  | zero => exact ⟨rfl, hp, hstore⟩
  | succ left =>
    have hnext := halike.undated_advance hstore (p.passes.length + 1) (k + p.passes.length + 1)
    dsimp only
    rw [Store.factCount_eq_of_undated hnext, Store.factCount_eq_of_undated hstore]
    split
    · refine ⟨rfl, ?_, hnext⟩
      show p'.passes.length + 1 = k + (p.passes.length + 1)
      omega
    · refine ih left (Nat.lt_succ_self left) _ _ _ _ ?_ hnext hasked
      show p'.passes.length + 1 = k + (p.passes.length + 1)
      omega

theorem course_cancelled (left : Nat) (p : Progress) (s : Store μ) :
    (course active context limits stop left p ⟨s, true⟩).1.2 = .cancelled := by
  rw [course.eq_def]
  rfl

/-- A course that is cut off is so at once, or after a pass that has added a fact. -/
theorem course_cut_cases {left : Nat} {p : Progress} {s : Store μ} {b : Bool}
    (hcut : (course active context limits stop left p ⟨s, b⟩).1.2 = .passCeiling ∨
      (course active context limits stop left p ⟨s, b⟩).1.2 = .cancelled) :
    ((course active context limits stop left p ⟨s, b⟩).1.1.passes = p.passes ∧
        (course active context limits stop left p ⟨s, b⟩).2.store = s) ∨
      ∃ rest, left = rest + 1 ∧ agenda active s ≠ [] ∧
        (advance active context (p.passes.length + 1) s).factCount ≠ s.factCount ∧
        course active context limits stop left p ⟨s, b⟩ =
          course active context limits stop rest (p.next active context limits s)
            ⟨advance active context (p.passes.length + 1) s, cancelling active context s⟩ := by
  rw [course.eq_def] at hcut ⊢
  dsimp only at hcut ⊢
  by_cases hc : (b || stop p.passes.length) = true
  · rw [if_pos hc]
    exact .inl ⟨rfl, rfl⟩
  rw [if_neg hc] at hcut ⊢
  by_cases hempty : agenda active s = []
  · rw [if_pos hempty] at hcut
    rcases hcut with h | h <;> cases h
  rw [if_neg hempty] at hcut ⊢
  cases left with
  | zero => exact .inl ⟨rfl, rfl⟩
  | succ rest =>
    dsimp only at hcut ⊢
    by_cases hfacts : (advance active context (p.passes.length + 1) s).factCount = s.factCount
    · rw [if_pos hfacts] at hcut
      rcases hcut with h | h <;> cases h
    · rw [if_neg hfacts]
      exact .inr ⟨rest, rfl, hempty, hfacts, rfl⟩

/-- Nobody in a crew asks to stop in the first `k` passes over a store. -/
def Unasked (active : List (Active γ μ)) (context : γ) (s : Store μ) (k : Nat) : Prop :=
  ∀ i < k, cancelling active context (after active context s i) = false

/-- **A course that was cut off is the first part of a longer one**, if the longer one is not asked to
stop on the way: from outside it is not, and its crew asks less than the first one, and nobody asks in
these passes if the first course was cut off because it was asked. -/
theorem course_of_cut (limits' : Limits) (halike : Alike active active' context context')
    (hless : ∀ s, cancelling active' context' s = true → cancelling active context s = true)
    (m left : Nat) (p p' : Progress) (s₀ s : Store μ) (b : Bool)
    (hs : s = after active context s₀ p.passes.length)
    (hp : p'.passes.length = p.passes.length) {ended : (Progress × StopReason) × Core μ}
    (hended : course active context limits stop left p ⟨s, b⟩ = ended)
    (hstop : ∀ i < ended.1.1.passes.length, stop' i = false)
    (hcut : ended.1.2 = .passCeiling ∨
      ended.1.2 = .cancelled ∧ Unasked active' context' s₀ ended.1.1.passes.length) :
    ∃ q, q.passes.length = ended.1.1.passes.length ∧
      course active' context' limits' stop' (ended.1.1.passes.length - p.passes.length + m) p'
          ⟨s, false⟩ =
        course active' context' limits' stop' m q ⟨ended.2.store, false⟩ := by
  induction left generalizing p p' s b with
  | zero =>
    subst hended
    rcases course_cut_cases (hcut.imp_right And.left) with ⟨hpasses, hstore⟩ | ⟨rest, h, -⟩
    · refine ⟨p', by rw [hpasses, hp], ?_⟩
      rw [hpasses, hstore, Nat.sub_self, Nat.zero_add]
    · cases h
  | succ left ih =>
    rcases course_cut_cases (hended.symm ▸ hcut.imp_right And.left) with
      ⟨hpasses, hstore⟩ | ⟨rest, h, hbusy, hfacts, hcourse⟩
    · subst hended
      refine ⟨p', by rw [hpasses, hp], ?_⟩
      rw [hpasses, hstore, Nat.sub_self, Nat.zero_add]
    · cases h
      have hlength := length_le_course active context limits stop left
        (p.next active context limits s)
        ⟨advance active context (p.passes.length + 1) s, cancelling active context s⟩
      rw [← hcourse, hended] at hlength
      have hlength : p.passes.length + 1 ≤ ended.1.1.passes.length := hlength
      have hunasked : cancelling active' context' s = false := by
        rcases hcut with hceiling | ⟨-, hunasked⟩
        · refine Bool.eq_false_iff.mpr fun hasked => ?_
          rw [← hended, hcourse, hless s hasked, course_cancelled] at hceiling
          cases hceiling
        · rw [hs, ← halike.after_eq]
          exact hunasked p.passes.length hlength
      obtain ⟨q, hq, hrest⟩ := ih (p.next active context limits s) (p'.next active' context' limits' s)
        (advance active context (p.passes.length + 1) s) (cancelling active context s)
        (by rw [hs, ← after_succ]; rfl) (congrArg (· + 1) hp) (hcourse.symm.trans hended)
      refine ⟨q, hq, ?_⟩
      have hgo : ended.1.1.passes.length - p.passes.length + m =
          ended.1.1.passes.length - (p.passes.length + 1) + m + 1 := by omega
      rw [← hrest, hgo, course, hp, hstop _ hlength, if_neg (by simp),
        if_neg fun h => hbusy ((halike.idle s).mp h)]
      dsimp only
      rw [halike.advance_eq, hunasked, if_neg hfacts]
      rfl

end Course

end Run

/-! ## 4. Whole runs -/

/-- The limits with another ceiling. -/
def Limits.upTo (limits : Limits) (ceiling : Nat) : Limits := { limits with maxPasses := ceiling }

section Whole

variable {γ μ : Type} [Measure μ]

/-- **Going on from `t` is as good as never having stopped.**  A first run has made `k` passes over `s`
and left `t`.  However many passes a second run is allowed, and whenever it is asked to stop, it ends
as a single run over `s` which is allowed `k` passes more and asked to stop `k` passes later. -/
def Resumes (roster : Roster γ μ) (context : Nat → γ) (limits : Limits) (s : Store μ) (k : Nat)
    (t : Store μ) : Prop :=
  ∀ (m : Nat) (later : Nat → Bool), ∃ second τ whole ω,
    Returns (run roster (context m) (limits.upTo m) later) { store := t } second τ ∧
    Returns (run roster (context (k + m)) (limits.upTo (k + m)) fun i =>
      decide (k ≤ i) && later (i - k)) { store := s } whole ω ∧
    ω.store.nodes = τ.store.nodes ∧ ω.store.edges = τ.store.edges ∧
    (ω.store.ledger.mapValues fun _ f => f.undated) =
      (τ.store.ledger.mapValues fun _ f => f.undated) ∧
    whole.stop = second.stop ∧ whole.passes.length = k + second.passes.length

variable {roster roster' : Roster γ μ} {context : Nat → γ} {limits : Limits} {ceiling : Nat}
  {stop : Nat → Bool} {κ : Core μ}

/-- A run as a crew with surroundings: those who take part under a ceiling. -/
def crew (roster : Roster γ μ) (context : Nat → γ) (limits : Limits) (ceiling : Nat) :
    List (Run.Active γ μ) :=
  Run.active roster (context ceiling) (limits.upTo ceiling)

theorem resumes_of_cut (hs : κ.store.Keyed)
    (hsame : ∀ i j, Run.Alike (crew roster' context limits i) (crew roster' context limits j)
        (context i) (context j) ∧
      ∀ s, Run.cancelling (crew roster' context limits j) (context j) s =
        Run.cancelling (crew roster' context limits i) (context i) s)
    (halike : ∀ j, Run.Alike (crew roster context limits ceiling) (crew roster' context limits j)
      (context ceiling) (context j))
    (hless : ∀ j s, Run.cancelling (crew roster' context limits j) (context j) s = true →
      Run.cancelling (crew roster context limits ceiling) (context ceiling) s = true)
    {ended : (Run.Progress × StopReason) × Core μ}
    (hended : Run.courseOf roster (context ceiling) (limits.upTo ceiling) stop κ = ended)
    (hcut : ended.1.2 = .passCeiling ∨ ended.1.2 = .cancelled ∧
      ∀ j, Run.Unasked (crew roster' context limits j) (context j) κ.store ended.1.1.passes.length) :
    Resumes roster' context limits κ.store ended.1.1.passes.length ended.2.store := by
  intro m later
  generalize hk : ended.1.1.passes.length = k
  let delayed : Nat → Bool := fun i => decide (k ≤ i) && later (i - k)
  have hkeyed : ended.2.store.Keyed := hended ▸ Run.keyed_course _ _ _ _ _ _ _ hs
  obtain ⟨second, hsecond, hpasses, hreason⟩ := exists_computes_run roster' (context m)
    (limits.upTo m) later (κ := ⟨ended.2.store, false⟩) hkeyed
  obtain ⟨whole, hwhole, hpasses', hreason'⟩ := exists_computes_run roster' (context (k + m))
    (limits.upTo (k + m)) delayed (κ := ⟨κ.store, false⟩) hs
  -- the longer run begins with the passes of the first one
  have hbefore : ∀ i < ended.1.1.passes.length, delayed i = false := by
    intro i hi
    simp [delayed, show ¬ k ≤ i by omega]
  obtain ⟨q, hq, hcourse⟩ := Run.course_of_cut (limits.upTo (k + m)) (halike (k + m))
    (hless (k + m)) m ceiling (Run.start roster (context ceiling) (limits.upTo ceiling) κ.store)
    (Run.start roster' (context (k + m)) (limits.upTo (k + m)) κ.store) κ.store κ.store κ.cancelled rfl
    rfl hended hbefore (hcut.imp_right fun h => ⟨h.1, h.2 _⟩)
  -- and goes on as the second one
  have hdelayed : ∀ i, delayed (k + i) = later i := by
    intro i
    simp [delayed]
  have hend := Run.course_shift (limits.upTo m) (limits.upTo (k + m)) (hsame m (k + m)).1
    (hsame m (k + m)).2 hdelayed m (Run.start roster' (context m) (limits.upTo m) ended.2.store) q
    ⟨ended.2.store, false⟩ ⟨ended.2.store, false⟩ (hq.trans hk) rfl rfl
  have hfrom : (Run.start roster (context ceiling) (limits.upTo ceiling) κ.store).passes.length = 0 :=
    rfl
  rw [← hcourse, hk, hfrom, Nat.sub_zero] at hend
  have hend : Run.SameEnd k
      (Run.courseOf roster' (context m) (limits.upTo m) later ⟨ended.2.store, false⟩)
      (Run.courseOf roster' (context (k + m)) (limits.upTo (k + m)) delayed ⟨κ.store, false⟩) := hend
  obtain ⟨τ, hτ, hτcore, -⟩ := hsecond.run_eq (σ := { store := ended.2.store }) rfl fun _ _ _ => rfl
  obtain ⟨ω, hω, hωcore, -⟩ := hwhole.run_eq (σ := { store := κ.store }) rfl fun _ _ _ => rfl
  have hstores : ω.store.undated = τ.store.undated := by
    rw [show ω.store = _ from congrArg Core.store hωcore, hend.store,
      show τ.store = _ from congrArg Core.store hτcore]
  obtain ⟨-, -, hedges, hledger⟩ := Store.undated_eq_iff.mp hstores
  refine ⟨second, τ, whole, ω, hτ, hω, Store.nodes_eq_of_undated hstores, hedges, hledger, ?_, ?_⟩
  · rw [hreason', hend.reason, hreason]
  · rw [hpasses', hpasses, List.length_reverse, List.length_reverse, hend.length]

/-- Neither setting up nor inspecting depends on the ceiling of the run. -/
def Roster.IgnoresCeiling (roster : Roster γ μ) (context : Nat → γ) : Prop :=
  ∀ a ∈ roster.analyzers, ∀ i j, a.setup (context i) = a.setup (context j) ∧
    a.inspect (context i) = a.inspect (context j)

omit [Measure μ] in
theorem Roster.IgnoresCeiling.silent (h : roster.IgnoresCeiling context) :
    roster.silent.IgnoresCeiling context := by
  intro a' ha' i j
  obtain ⟨a, ha, rfl⟩ := List.mem_map.mp ha'
  refine ⟨(h a ha i j).1, ?_⟩
  show (fun n => ({ a.inspect (context i) n with cancels := false } : Inspection μ)) =
    fun n => { a.inspect (context j) n with cancels := false }
  rw [(h a ha i j).2]

omit [Measure μ] in
theorem alike_crew (h : roster.IgnoresCeiling context) (limits : Limits) (i j : Nat) :
    Run.Alike (crew roster context limits i) (crew roster context limits j) (context i) (context j) ∧
      ∀ s, Run.cancelling (crew roster context limits j) (context j) s =
        Run.cancelling (crew roster context limits i) (context i) s := by
  have hcrew : crew roster context limits j = crew roster context limits i :=
    Run.active_congr (fun a ha => (h a ha j i).1) rfl
  rw [hcrew]
  refine Run.alike_of_inspect fun x hx => ?_
  exact (h x.analyzer (List.mem_of_getElem? (Run.mem_active.mp hx).1) j i).2

omit [Measure μ] in
theorem alike_crew_silent (roster : Roster γ μ) (context : Nat → γ) (limits : Limits) (j : Nat) :
    Run.Alike (crew roster context limits j) (crew roster.silent context limits j) (context j)
        (context j) ∧
      ∀ s, Run.cancelling (crew roster.silent context limits j) (context j) s = false := by
  rw [crew, crew, Run.active_silent]
  exact Run.alike_silent _ _

/-- **A run that was cut off can be gone on with.**  A run that has reached its ceiling can be, and so
can a run that was asked to stop from outside.  If someone of the roster asked, the request is not made
again: the roster goes on in silence, and so does the run that both are compared with. -/
theorem resumed_run (roster : Roster γ μ) (context : Nat → γ) (limits : Limits)
    (hroster : roster.IgnoresCeiling context)
    {ceiling : Nat} {stop : Nat → Bool} {σ σ' : State μ} {first : Report} (hs : σ.store.Keyed)
    (h : Returns (run roster (context ceiling) (limits.upTo ceiling) stop) σ first σ') :
    (first.stop = .passCeiling → first.passes.length = ceiling ∧
      Resumes roster context limits σ.store ceiling σ'.store) ∧
    (first.stop = .cancelled →
      (Run.Unasked (crew roster context limits ceiling) (context ceiling) σ.store first.passes.length →
        Resumes roster context limits σ.store first.passes.length σ'.store) ∧
      Resumes roster.silent context limits σ.store first.passes.length σ'.store) := by
  obtain ⟨report, hrun, hpasses, hreason⟩ := exists_computes_run roster (context ceiling)
    (limits.upTo ceiling) stop (κ := σ.core) hs
  obtain ⟨hok, hcore⟩ := hrun.of_returns rfl h
  cases hok
  generalize hended : Run.courseOf roster (context ceiling) (limits.upTo ceiling) stop σ.core = ended
    at hcore hpasses hreason
  have hstore : σ'.store = ended.2.store := congrArg Core.store hcore
  have hlength : first.passes.length = ended.1.1.passes.length := by
    rw [hpasses, List.length_reverse]
  rw [hstore, hlength]
  have hcrew := alike_crew hroster limits
  have hresumes := resumes_of_cut hs hcrew (fun j => (hcrew ceiling j).1)
    (fun j s hasked => ((hcrew ceiling j).2 s).symm.trans hasked) hended
  constructor
  · intro hstop
    have hall : first.passes.length = ceiling := ((returns_run hs h).2.passCeiling hstop).1
    refine ⟨hlength.symm.trans hall, ?_⟩
    nth_rewrite 1 [← hall]
    rw [hlength]
    exact hresumes (.inl (hreason.symm.trans hstop))
  · intro hstop
    have hreason := hreason.symm.trans hstop
    constructor
    · intro hunasked
      refine hresumes (.inr ⟨hreason, fun j i hi => ?_⟩)
      rw [(hcrew ceiling j).1.after_eq, (hcrew ceiling j).2]
      exact hunasked i hi
    · have hsilent := alike_crew_silent roster context limits
      refine resumes_of_cut hs (alike_crew hroster.silent limits)
        (fun j => (hsilent ceiling).1.trans (alike_crew hroster.silent limits ceiling j).1)
        (fun j s hasked => ?_) hended (.inr ⟨hreason, fun j _ _ => (hsilent j).2 _⟩)
      rw [(hsilent j).2] at hasked
      cases hasked

end Whole

/-- One rule after another. -/
def relay : Roster Unit Float := ⟨[Analyzer.rule "first" [] ["one"], Analyzer.rule "second" ["one"] ["two"]]⟩

/-- One rule after an alarm. -/
def alarmed : Roster Unit Float :=
  ⟨[{ name := "alarm"
      inspect := fun _ n =>
        { findings := Findings.tag {} n.id "one", verdict := .done, cancels := true } },
    Analyzer.rule "second" ["one"] ["two"]]⟩

/-- A run that reaches its ceiling after one pass, one that is asked to stop from outside, and one that
is asked to stop by an analyzer. -/
theorem resumed_run_after_one_pass :
    let limits : Limits := { maxPasses := 0, batchSize := 1 }
    let σ : State Float := { store := Store.empty.mergeNodes [Node.new "n" "number"] }
    (∃ first σ', Returns (run relay () (limits.upTo 1) fun _ => false) σ first σ' ∧
      first.stop = .passCeiling ∧ Resumes relay (fun _ => ()) limits σ.store 1 σ'.store) ∧
    (∃ first σ', Returns (run relay () (limits.upTo 9) fun n => n == 1) σ first σ' ∧
      first.stop = .cancelled ∧ Resumes relay (fun _ => ()) limits σ.store 1 σ'.store) ∧
    ∃ first σ', Returns (run alarmed () (limits.upTo 9) fun _ => false) σ first σ' ∧
      first.stop = .cancelled ∧ Resumes alarmed.silent (fun _ => ()) limits σ.store 1 σ'.store := by
  intro limits σ
  have hs : σ.store.Keyed := Store.keyed_empty.mergeNodes _
  have hrelay : relay.IgnoresCeiling fun _ => () := fun _ _ _ _ => ⟨rfl, rfl⟩
  have halarmed : alarmed.IgnoresCeiling fun _ => () := fun _ _ _ _ => ⟨rfl, rfl⟩
  refine ⟨?_, ?_, ?_⟩
  · have hanswers : answers (run relay () (limits.upTo 1) fun _ => false) σ
        (fun a => a.stop = .passCeiling) = true := by decide +kernel
    obtain ⟨first, hrun, hstop⟩ := exists_returns hanswers
    have hstop : first.stop = .passCeiling := of_decide_eq_true hstop
    exact ⟨first, _, hrun, hstop, ((resumed_run relay _ limits hrelay hs hrun).1 hstop).2⟩
  · have hanswers : answers (run relay () (limits.upTo 9) fun n => n == 1) σ
        (fun a => a.stop = .cancelled ∧ a.passes.length = 1) = true := by decide +kernel
    obtain ⟨first, hrun, htest⟩ := exists_returns hanswers
    obtain ⟨hstop, hlength⟩ := of_decide_eq_true htest
    have hresumes := ((resumed_run relay _ limits hrelay hs hrun).2 hstop).1
    rw [hlength] at hresumes
    have hunasked : Run.Unasked (crew relay (fun _ => ()) limits 9) () σ.store 1 := by
      intro i hi
      obtain rfl := Nat.lt_one_iff.mp hi
      decide +kernel
    exact ⟨first, _, hrun, hstop, hresumes hunasked⟩
  · have hanswers : answers (run alarmed () (limits.upTo 9) fun _ => false) σ
        (fun a => a.stop = .cancelled ∧ a.passes.length = 1) = true := by decide +kernel
    obtain ⟨first, hrun, htest⟩ := exists_returns hanswers
    obtain ⟨hstop, hlength⟩ := of_decide_eq_true htest
    have hresumes := ((resumed_run alarmed _ limits halarmed hs hrun).2 hstop).2
    rw [hlength] at hresumes
    exact ⟨first, _, hrun, hstop, hresumes⟩

end FactGraph
