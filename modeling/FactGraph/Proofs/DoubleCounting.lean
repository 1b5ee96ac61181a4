import FactGraph.Proofs.CrashConsistency
import FactGraph.Proofs.Resumption
import FactGraph.Proofs.Sums

/-!
# Sums after a crash

A pair that stands in the ledger is not evaluated again, so a sum does not get the same contribution
twice.  That is so as long as commits go through.  A commit writes its sums before it writes the
ledger, and if it fails in between, the sums are stored and the pairs are not; the next run evaluates
them again and adds to the sums once more.  `sums_counted_twice` is the smallest such run: one
analyzer, one node and one contribution, which is counted twice.

`rerun_of_failed_run` says what a second run leaves, compared with a run that does not fail.

* If the commit that failed had written no node, the second run comes to the same nodes, for it goes
  on after the passes that went through (`Run.nodes_of_fixedPoints`).  The end of the run without
  failures has to be a fixed point indeed, or the second run may go on from it.
* Otherwise the second run looks at nodes that hold some of the sums already, and what it finds there
  is up to the analyzers.  If they do not look at sums, it finds the same again
  (`Run.Crashed.finishing_eq`).  Then exactly the nodes that were written get every contribution of
  the failed pass a second time.
-/

namespace FactGraph

open Session

/-! ## 1. Going on after a crash -/

namespace Run

variable {γ μ : Type} [Measure μ] {active : List (Active γ μ)} {context : γ} {s t : Store μ}

/-- When a pass finishes nothing, neither do later ones, and nothing changes any more. -/
theorem after_add_of_finishing_nil {n : Nat} (h : finishing active context (after active context s n) = [])
    (m : Nat) : after active context s (n + m) = after active context s n := by
  induction m with
  | zero => rfl
  | succ m ih =>
    rw [← Nat.add_assoc, after_succ, ih]
    exact advance_of_finishing_nil _ h

/-- Passes can be counted anew at any time. -/
theorem undated_after_add (k m : Nat) :
    (after active context (after active context s k) m).undated =
      (after active context s (k + m)).undated := by
  have hself : Alike active active context context := ⟨fun _ => Iff.rfl, fun _ => rfl⟩
  induction m with
  | zero => rfl
  | succ m ih => exact hself.undated_advance ih (k + m + 1) (m + 1)

theorem Ends.agenda_ne_nil {ceiling n : Nat} {reason : StopReason}
    (h : Ends active context s ceiling n reason) {i : Nat} (hi : i < n) :
    agenda active (after active context s i) ≠ [] := by
  by_cases hlast : i + 1 = n
  · exact h.busy i hlast.symm
  · exact (h.underway i (by omega)).1

/-- **Two runs to a fixed point meet**: one that goes on after some passes, and one that did not stop
there, if nothing is left to be done at the end of the latter. -/
theorem nodes_of_fixedPoints {ceiling ceiling' k n m : Nat} {reason reason' : StopReason}
    (h : Ends active context s ceiling n reason)
    (h' : Ends active context (after active context s k) ceiling' m reason')
    (hfixed' : reason'.isFixedPoint = true)
    (hdone : finishing active context (after active context s n) = []) :
    (after active context (after active context s k) m).nodes = (after active context s n).nodes := by
  have hagenda : ∀ j, agenda active (after active context (after active context s k) j) =
      agenda active (after active context s (k + j)) := by
    intro j
    rw [← agenda_undated, undated_after_add, agenda_undated]
  have hfacts : ∀ j, (after active context (after active context s k) j).factCount =
      (after active context s (k + j)).factCount :=
    fun j => Store.factCount_eq_of_undated (undated_after_add k j)
  -- the one that goes on does not stop earlier, for there was something to do and it made progress
  have hle : n ≤ k + m := by
    by_contra hlt
    cases reason' with
    | converged => exact h.agenda_ne_nil (by omega) ((hagenda m).symm.trans (h'.converged rfl))
    | noProgress =>
      obtain ⟨j, rfl, hstill⟩ := h'.noProgress rfl
      rw [hfacts, hfacts] at hstill
      exact (h.underway (k + j) (by omega)).2 hstill
    | passCeiling => cases hfixed'
    | cancelled => cases hfixed'
  obtain ⟨d, hd⟩ := Nat.exists_eq_add_of_le hle
  rw [Store.nodes_eq_of_undated (undated_after_add k m), hd, after_add_of_finishing_nil hdone]

/-! ## 2. Crews that only add to sums -/

/-- All that some analyzers do is to add to sums. -/
def Aggregating (active : List (Active γ μ)) (context : γ) : Prop :=
  ∀ x ∈ active, ∀ n, (x.analyzer.inspect context n).findings.OnlySums

/-- Such analyzers ask for no edges, even if they fail. -/
theorem edges_finishing (h : Aggregating active context) (s : Store μ) :
    Commit.edges (finishing active context s) = [] := by
  rw [Commit.edges, List.flatMap_eq_nil_iff]
  intro c hc
  obtain ⟨t, ht, he⟩ := mem_completions.mp ((List.mergeSort_perm _ _).mem_iff.mp hc)
  rcases findings_of_completion he with hf | hf | ⟨message, hf⟩ <;> rw [hf]
  · exact (h t.active (active_of_mem_agenda ht) t.node).edges
  · rfl

/-- The edges are as they were before the commit that failed. -/
theorem Interrupted.edges_eq {k : Nat} (h : Interrupted active context s k t)
    (hsums : Aggregating active context) : t.edges = (after active context s k).edges := by
  cases h.cut with
  | nodes done rest _ => exact Store.edges_mergeNodes _ done
  | edges added hadded =>
    rw [edges_finishing hsums, List.filter_nil, List.prefix_nil] at hadded
    rw [hadded]
    exact Store.edges_mergeNodes _ _

/-- A commit that has written no node has written nothing. -/
theorem Crashed.eq_after {σ σ' : State μ} {k : Nat} {unwritten : List String} (hs : σ.store.Keyed)
    (h : Crashed active context σ σ' k [] unwritten)
    (hedges : σ'.store.edges = (after active context σ.store k).edges) :
    σ'.store = after active context σ.store k := by
  have hnodes : σ'.store.nodes = (after active context σ.store k).nodes := by
    refine Table.ext_get? fun id => ?_
    rw [Store.get?_nodes, h.node?, if_neg List.not_mem_nil, Store.get?_nodes]
  have hledger : σ'.store.ledger = (after active context σ.store k).ledger := by
    rw [h.ledger, ledger_after]
  exact h.keyed.ext_nodes (keyed_after hs k) hnodes hedges hledger

end Run

/-! ## 3. Crews that do not look at sums -/

/-- An analyzer looks at nothing that sums change, and it never fails. -/
structure Analyzer.Blind {γ μ : Type} (a : Analyzer γ μ) (context : γ) : Prop where
  supports : ∀ n, a.supports n.blank = a.supports n
  inspect : ∀ n, a.inspect context n.blank = a.inspect context n
  answers : ∀ n, ∃ answer, a.supports n = .ok answer
  succeeds : ∀ n, (a.inspect context n).verdict = .done ∨
    (a.inspect context n).verdict = .notApplicable

/-- The store without what sums change. -/
def Store.blank {μ : Type} (s : Store μ) : Store μ :=
  s.mapRows fun _ row => { row with properties := ∅, metrics := ∅ }

theorem Store.nodes_blank {μ : Type} (s : Store μ) :
    s.blank.nodes = s.nodes.mapValues fun _ n => n.blank :=
  s.nodes_mapRows fun _ _ _ => rfl

theorem Store.Keyed.blank {μ : Type} {s : Store μ} (hs : s.Keyed) : s.blank.Keyed :=
  hs.mapRows fun _ _ => rfl

namespace Run

variable {γ μ : Type} {active : List (Active γ μ)} {context : γ} {s t : Store μ}

theorem evaluate_blank {x : Active γ μ} (h : x.analyzer.Blind context) (n : Node μ) :
    evaluate context ⟨x, n.blank⟩ = evaluate context ⟨x, n⟩ := by
  rw [evaluate, evaluate, h.supports, h.inspect]
  rfl

theorem agenda_blank (active : List (Active γ μ)) (s : Store μ) :
    agenda active s.blank = (agenda active s).map fun t => ⟨t.active, t.node.blank⟩ := by
  have hnodes : s.blank.allNodes = s.allNodes.map Node.blank := by
    rw [Store.allNodes, Store.nodes_blank, Store.allNodes, Table.values, Table.values,
      Table.mapValues, List.map_map, List.map_map]
    rfl
  rw [agenda, agenda, pending, pending, hnodes, List.map_flatMap]
  refine List.flatMap_congr fun x _ => ?_
  rw [List.filter_map, List.map_map, List.map_map]
  rfl

/-- What such analyzers find does not depend on sums. -/
theorem finishing_blank (h : ∀ x ∈ active, x.analyzer.Blind context) (s : Store μ) :
    finishing active context s.blank = finishing active context s := by
  rw [finishing, finishing, completions, completions, agenda_blank, List.map_map]
  refine congrArg _ (List.map_congr_left fun t ht => ?_)
  exact evaluate_blank (h t.active (active_of_mem_agenda ht)) t.node

variable [Measure μ]

omit [Measure μ] in
/-- An analyzer that never fails leaves what it found, or nothing. -/
theorem findings_of_blind {t : Task γ μ} (h : t.active.analyzer.Blind context)
    (herrors : (t.active.analyzer.inspect context t.node).findings.errors = []) {c : Completion μ}
    (he : (evaluate context t).completion? = some c) :
    c.findings = (t.active.analyzer.inspect context t.node).findings ∨ c.findings = {} := by
  obtain ⟨answer, hanswer⟩ := h.answers t.node
  cases htags : t.node.hasAllTags t.active.analyzer.contract.consumes.members with
  | false =>
    rw [evaluate, htags] at he
    cases he
  | true =>
    rw [evaluate, htags, hanswer] at he
    cases answer with
    | false => cases he
    | true =>
      cases he
      rw [Task.conclude, herrors]
      rcases h.succeeds t.node with hverdict | hverdict
      · rw [hverdict]
        exact .inl rfl
      · rw [hverdict]
        exact .inr rfl

theorem onlySums_finishing (hsums : Aggregating active context)
    (hblind : ∀ x ∈ active, x.analyzer.Blind context) (s : Store μ) :
    Commit.OnlySums (finishing active context s) := by
  refine Commit.onlySums_of_findings fun c hc => ?_
  obtain ⟨t, ht, he⟩ := mem_completions.mp hc
  have hx := active_of_mem_agenda ht
  have honly := hsums t.active hx t.node
  rcases findings_of_blind (hblind t.active hx) honly.errors he with hf | hf <;> rw [hf]
  · exact honly
  · exact .nothing

/-- **One pass is enough for such analyzers**: what could not be done in it cannot be done after it. -/
theorem finishing_advance (hsums : Aggregating active context)
    (hblind : ∀ x ∈ active, x.analyzer.Blind context) (hs : s.Keyed) (number : Nat) :
    finishing active context (advance active context number s) = [] := by
  rw [List.eq_nil_iff_forall_not_mem]
  intro c hc
  obtain ⟨u, hu, -, happ⟩ := pair_mem_finishing.mp (List.mem_map_of_mem hc)
  have hkeyed : (advance active context number s).Keyed := Commit.keyed_committed hs _ _
  obtain ⟨hx, hnode, htargets, hopen⟩ := (mem_agenda hkeyed).mp hu
  have hblank := Commit.blank_written hs (onlySums_finishing hsums hblind s) u.node.id
  rw [advance, Commit.node?_committed] at hnode
  rw [hnode] at hblank
  obtain ⟨m, hm, hsame⟩ := Option.map_eq_some_iff.mp hblank.symm
  have hb := hblind u.active hx
  -- the pass had the same pair before it, with a node that differs in sums only
  refine blocked_of_pending hs hx hopen m hm ?_ ⟨?_, ?_⟩
  · show u.active.analyzer.targetsKind m.blank.kind = true
    rw [hsame]
    exact htargets
  · show m.blank.hasAllTags _ = true
    rw [hsame]
    exact happ.1
  · show u.active.analyzer.supports m ≠ _
    rw [← hb.supports m, hsame, hb.supports]
    exact happ.2

theorem after_succ_eq_after_one (hsums : Aggregating active context)
    (hblind : ∀ x ∈ active, x.analyzer.Blind context) (hs : s.Keyed) (n : Nat) :
    after active context s (n + 1) = after active context s 1 := by
  have hdone : finishing active context (after active context s 1) = [] := by
    rw [after_succ, after_zero]
    exact finishing_advance hsums hblind hs (0 + 1)
  rw [Nat.add_comm n 1]
  exact after_add_of_finishing_nil hdone n

/-- A run of such analyzers that comes to a fixed point leaves what one pass leaves. -/
theorem after_eq_of_fixedPoint (hsums : Aggregating active context)
    (hblind : ∀ x ∈ active, x.analyzer.Blind context) (hs : s.Keyed) {ceiling n : Nat}
    {reason : StopReason} (h : Ends active context s ceiling n reason)
    (hfixed : reason.isFixedPoint = true) : after active context s n = after active context s 1 := by
  cases n with
  | succ n => exact after_succ_eq_after_one hsums hblind hs n
  | zero =>
    cases reason with
    | converged =>
      have hnothing : finishing active context s = [] := by
        rw [finishing, show agenda active s = [] from h.converged rfl]
        rfl
      rw [after_succ, after_zero, advance_of_finishing_nil _ hnothing]
    | noProgress =>
      obtain ⟨m, hm, -⟩ := h.noProgress rfl
      cases hm
    | passCeiling => cases hfixed
    | cancelled => cases hfixed

/-! ## 4. A second run after a crash -/

section Rerun

variable {σ σ' : State μ} {k : Nat} {written unwritten : List String}

/-- If the first commit fails, analyzers that do not look at sums find the same once more. -/
theorem Crashed.finishing_eq (hsums : Aggregating active context)
    (hblind : ∀ x ∈ active, x.analyzer.Blind context) (hs : σ.store.Keyed)
    (h : Crashed active context σ σ' 0 written unwritten)
    (hedges : σ'.store.edges = σ.store.edges) :
    finishing active context σ'.store = finishing active context σ.store := by
  have hnodes : σ'.store.blank.nodes = σ.store.blank.nodes := by
    refine Table.ext_get? fun id => ?_
    rw [Store.nodes_blank, Store.nodes_blank, Table.get?_mapValues, Table.get?_mapValues,
      Store.get?_nodes, Store.get?_nodes, h.node?]
    split
    · rw [after_succ, after_zero, advance, Commit.node?_committed,
        Commit.blank_written hs (onlySums_finishing hsums hblind _)]
    · rfl
  have hblank : σ'.store.blank = σ.store.blank :=
    h.keyed.blank.ext_nodes hs.blank hnodes hedges h.ledger
  rw [← finishing_blank hblind, hblank, finishing_blank hblind]

/-- **The nodes that the failed commit has written get its sums once more, and no others.** -/
theorem Crashed.node?_rerun (hsums : Aggregating active context)
    (hblind : ∀ x ∈ active, x.analyzer.Blind context) (hs : σ.store.Keyed)
    (h : Crashed active context σ σ' k written unwritten)
    (hedges : σ'.store.edges = (after active context σ.store k).edges) (id : String) :
    (after active context σ'.store 1).node? id =
      if id ∈ written then
        (Commit.written (after active context σ.store 1)
          (finishing active context σ.store)).node? id
      else (after active context σ.store 1).node? id := by
  cases k with
  | zero =>
    have hresults := h.finishing_eq hsums hblind hs hedges
    have hview : ∀ t : Store μ, finishing active context t = finishing active context σ.store →
        (after active context t 1).node? id =
          (Commit.written t (finishing active context σ.store)).node? id := by
      intro t ht
      rw [after_succ, after_zero, advance, Commit.node?_committed, ht]
    have hnode := h.node? id
    rw [hview σ'.store hresults]
    split
    · next hid =>
      rw [if_pos hid] at hnode
      exact Commit.node?_written_congr h.keyed (keyed_after hs 1) _ hnode
    · next hid =>
      rw [if_neg hid] at hnode
      rw [hview σ.store rfl]
      exact Commit.node?_written_congr h.keyed hs _ hnode
  | succ k =>
    -- after a whole pass there is nothing to do, so the commit that failed had nothing to write
    have hdone : finishing active context (after active context σ.store (k + 1)) = [] := by
      rw [after_succ]
      exact finishing_advance hsums hblind (keyed_after hs k) (k + 1)
    have htouched := h.touched
    rw [Run.touched, hdone, Commit.folded, List.mergeSort_nil] at htouched
    obtain ⟨rfl, -⟩ := List.append_eq_nil_iff.mp htouched.symm
    rw [if_neg List.not_mem_nil, h.eq_after hs hedges, after_succ, after_zero,
      advance_of_finishing_nil _ hdone, after_succ_eq_after_one hsums hblind hs]

/-- The nodes that the failed commit has written are stored after a whole pass. -/
theorem Crashed.contains_of_written (hsums : Aggregating active context)
    (hblind : ∀ x ∈ active, x.analyzer.Blind context) (hs : σ.store.Keyed)
    (h : Crashed active context σ σ' k written unwritten) {id : String} (hid : id ∈ written) :
    (after active context σ.store 1).contains id = true := by
  rw [← after_succ_eq_after_one hsums hblind hs k, after_succ]
  refine ((mem_touched (keyed_after hs k) _).mp ?_).2
  rw [h.touched]
  exact List.mem_append_left _ hid

end Rerun

end Run

/-! ## 5. Whole runs -/

section Whole

variable {γ μ : Type} [Measure μ]

/-- All that the analyzers of a roster do is to add to sums. -/
def Roster.Aggregates (roster : Roster γ μ) (context : γ) : Prop :=
  ∀ a ∈ roster.analyzers, ∀ n, (a.inspect context n).findings.OnlySums

variable {roster : Roster γ μ} {context : γ} {limits : Limits} {stop stop' stop'' : Nat → Bool}
  {σ σ' ω τ : State μ} {e : Error} {free again : Report}

/-- **What a second run makes of a failed one**, if all that analyzers do is to add to sums.  It is
compared with a run from the same store that does not fail, and both come to a fixed point.

If the failed commit had written no node, and nothing is left to be done where the run without
failures ended, both leave the same nodes.  If no analyzer looks at sums or fails, both leave the same
nodes but for those that the failed commit had written.  These have every contribution of the failed
pass once more, and their counters say so. -/
theorem rerun_of_failed_run (hroster : roster.Aggregates context) (hs : σ.store.Keyed)
    (hfails : Fails (run roster context limits stop) σ e σ')
    (hfree : Returns (run roster context limits stop') { store := σ.store } free ω)
    (hω : free.stop.isFixedPoint = true)
    (hagain : Returns (run roster context limits stop'') { store := σ'.store } again τ)
    (hτ : again.stop.isFixedPoint = true) :
    ∃ k written unwritten,
      Run.Crashed (Run.active roster context limits) context σ σ' k written unwritten ∧
      (written = [] →
        Run.finishing (Run.active roster context limits) context ω.store = [] →
        ∀ id, τ.store.node? id = ω.store.node? id) ∧
      ((∀ a ∈ roster.analyzers, a.Blind context) → ∀ id,
        (id ∉ written → τ.store.node? id = ω.store.node? id) ∧
        (id ∈ written →
          τ.store.node? id = (Commit.written ω.store
            (Run.finishing (Run.active roster context limits) context σ.store)).node? id ∧
          ∀ key, τ.store.counted id key = (ω.store.counted id key + Commit.contributions
            (Run.finishing (Run.active roster context limits) context σ.store) id key) %
              Nat.pow 2 64)) := by
  have hmem : ∀ x ∈ Run.active roster context limits, x.analyzer ∈ roster.analyzers :=
    fun x hx => List.mem_of_getElem? (Run.mem_active.mp hx).1
  have hsums : Run.Aggregating (Run.active roster context limits) context :=
    fun x hx => hroster x.analyzer (hmem x hx)
  obtain ⟨-, k, hreaches, hcut⟩ := Run.interrupted_of_fails hs hfails
  obtain ⟨written, unwritten, hcrashed⟩ := hcut.exists_crashed hs hreaches
  have hedges := hcut.edges_eq hsums
  obtain ⟨hωstore, hωends⟩ := returns_run (σ := { store := σ.store }) hs hfree
  obtain ⟨hτstore, hτends⟩ := returns_run (σ := { store := σ'.store }) hcrashed.keyed hagain
  refine ⟨k, written, unwritten, hcrashed, fun hnothing hdone id => ?_, fun hblind => ?_⟩
  · subst hnothing
    rw [hcrashed.eq_after hs hedges] at hτstore hτends
    rw [hωstore] at hdone
    have hnodes := Run.nodes_of_fixedPoints hωends hτends hτ hdone
    rw [← hωstore, ← hτstore] at hnodes
    rw [← Store.get?_nodes, hnodes, Store.get?_nodes]
  · have hblind : ∀ x ∈ Run.active roster context limits, x.analyzer.Blind context :=
      fun x hx => hblind x.analyzer (hmem x hx)
    rw [Run.after_eq_of_fixedPoint hsums hblind hs hωends hω] at hωstore
    rw [Run.after_eq_of_fixedPoint hsums hblind hcrashed.keyed hτends hτ] at hτstore
    have hnode := hcrashed.node?_rerun hsums hblind hs hedges
    rw [← hωstore, ← hτstore] at hnode
    refine fun id => ⟨fun hid => (hnode id).trans (if_neg hid), fun hid => ?_⟩
    have hid' := (hnode id).trans (if_pos hid)
    refine ⟨hid', fun key => ?_⟩
    have hcount := Commit.counted_written (hωstore ▸ Run.keyed_after hs 1)
      (Run.onlySums_finishing hsums hblind σ.store)
      (hωstore ▸ hcrashed.contains_of_written hsums hblind hs hid) key
    rw [← hcount, Store.counted, hid']
    rfl

end Whole

/-- Adds one contribution to a sum of every node. -/
def tally : Analyzer Unit Float where
  name := "tally"
  inspect _ n := { findings := Findings.sum {} n.id "size" 1.5, verdict := .done }

/-- A run that takes the tally. -/
def survey : Session Float Report :=
  run ⟨[tally]⟩ () { maxPasses := 9, batchSize := 1 } fun _ => false

/-- A single node, where storage fails to write the ledger. -/
def tornDisk : State Float where
  store := Store.empty.mergeNodes [Node.new "doc" "file"]
  faults c n _ := if c = .recordRuns ∧ n = 1 then some (.database "disk I/O error" none) else none

/-- **Sums are counted twice across a failed commit**: the ledger is empty, the only analyzer adds to a
sum once, and after a second run its contribution counts double. -/
theorem sums_counted_twice :
    (Roster.Aggregates ⟨[tally]⟩ ()) ∧ tornDisk.store.ledger.isEmpty = true ∧
    ∃ free ω e σ' again τ,
      Returns survey { store := tornDisk.store } free ω ∧ free.stop.isFixedPoint = true ∧
      Fails survey tornDisk e σ' ∧
      Returns survey { store := σ'.store } again τ ∧ again.stop.isFixedPoint = true ∧
      ω.store.counted "doc" "size" = 1 ∧ τ.store.counted "doc" "size" = 2 ∧
      (ω.store.node? "doc").bind (·.metrics.get? "size") = some 1.5 ∧
      (τ.store.node? "doc").bind (·.metrics.get? "size") = some 3.0 := by
  have hfree : answers survey { store := tornDisk.store } (·.stop.isFixedPoint) = true := by
    decide +kernel
  have honce : (survey.run { store := tornDisk.store }).2.store.counted "doc" "size" = 1 ∧
      ((survey.run { store := tornDisk.store }).2.store.node? "doc").bind (·.metrics.get? "size") =
        some 1.5 := by decide +kernel
  have hstops : stops survey tornDisk (fun σ' =>
      answers survey { store := σ'.store } (·.stop.isFixedPoint) = true ∧
      (survey.run { store := σ'.store }).2.store.counted "doc" "size" = 2 ∧
      ((survey.run { store := σ'.store }).2.store.node? "doc").bind (·.metrics.get? "size") =
        some 3.0) = true := by decide +kernel
  have hsums : Roster.Aggregates ⟨[tally]⟩ () := by
    intro a ha n
    obtain rfl := List.mem_singleton.mp ha
    exact .sum .nothing n.id "size" 1.5
  obtain ⟨free, hfree, hω⟩ := exists_returns hfree
  obtain ⟨e, σ', hfails, htest⟩ := exists_fails hstops
  obtain ⟨hagain, htwice⟩ := of_decide_eq_true htest
  obtain ⟨again, hagain, hτ⟩ := exists_returns hagain
  exact ⟨hsums, rfl, free, _, e, σ', again, _, hfree, hω, hfails, hagain, hτ, honce.1, htwice.1,
    honce.2, htwice.2⟩

/-- Adds to a sum of a folder and of a file in it. -/
def weigh : Analyzer Unit Float where
  name := "weigh"
  targets := ["folder"]
  inspect _ n :=
    { findings := (Findings.sum {} n.id "size" 1.0).sum "a/b" "size" 1.0, verdict := .done }

/-- A run that weighs, one node in a batch. -/
def weighing : Session Float Report :=
  run ⟨[weigh]⟩ () { maxPasses := 9, batchSize := 1 } fun _ => false

/-- The folder was weighed before storage failed at the file, so it is weighed twice. -/
theorem rerun_of_failed_run_half_weighed : ∃ free ω e σ' again τ,
    Returns weighing { store := failingDisk.store } free ω ∧ free.stop.isFixedPoint = true ∧
    Fails weighing failingDisk e σ' ∧
    Returns weighing { store := σ'.store } again τ ∧ again.stop.isFixedPoint = true ∧
    τ.store.counted "a" "size" = 2 ∧ τ.store.counted "a/b" "size" = 1 ∧
    ∃ written : List String, ∀ id, (id ∉ written → τ.store.node? id = ω.store.node? id) ∧
      (id ∈ written → ∀ key, τ.store.counted id key = (ω.store.counted id key +
        Commit.contributions (Run.finishing
          (Run.active ⟨[weigh]⟩ () { maxPasses := 9, batchSize := 1 }) () failingDisk.store) id key) %
          Nat.pow 2 64) := by
  have hfree : answers weighing { store := failingDisk.store } (·.stop.isFixedPoint) = true := by
    decide +kernel
  have hstops : stops weighing failingDisk (fun σ' =>
      answers weighing { store := σ'.store } (·.stop.isFixedPoint) = true ∧
      (weighing.run { store := σ'.store }).2.store.counted "a" "size" = 2 ∧
      (weighing.run { store := σ'.store }).2.store.counted "a/b" "size" = 1) = true := by
    decide +kernel
  have hsums : Roster.Aggregates ⟨[weigh]⟩ () := by
    intro a ha n
    obtain rfl := List.mem_singleton.mp ha
    exact .sum (.sum .nothing n.id "size" 1.0) "a/b" "size" 1.0
  have hblind : ∀ a ∈ (⟨[weigh]⟩ : Roster Unit Float).analyzers, a.Blind () := by
    intro a ha
    obtain rfl := List.mem_singleton.mp ha
    exact ⟨fun _ => rfl, fun _ => rfl, fun _ => ⟨true, rfl⟩, fun _ => .inl rfl⟩
  obtain ⟨free, hfree, hω⟩ := exists_returns hfree
  obtain ⟨e, σ', hfails, htest⟩ := exists_fails hstops
  obtain ⟨hagain, hfolder, hfile⟩ := of_decide_eq_true htest
  obtain ⟨again, hagain, hτ⟩ := exists_returns hagain
  have hs : failingDisk.store.Keyed := Store.keyed_empty.mergeNodes _
  obtain ⟨k, written, unwritten, -, -, hrerun⟩ :=
    rerun_of_failed_run hsums hs hfails hfree hω hagain hτ
  exact ⟨free, _, e, σ', again, _, hfree, hω, hfails, hagain, hτ, hfolder, hfile, written, fun id =>
    ⟨(hrerun hblind id).1, fun hid => ((hrerun hblind id).2 hid).2⟩⟩

end FactGraph
