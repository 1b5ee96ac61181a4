import FactGraph.Proofs.Runs

/-!
# Every pair is evaluated at most once

An analyzer that adds to a sum must not look at a node twice.  Three things have to agree for that:
the pairs that a run takes for finished, the ledger that is stored, and the agenda, which is drawn
up anew from the nodes of every pass.  They must go on agreeing while nodes appear during a run, and
when the next run, perhaps of another roster, starts from the ledger alone.

`History` is what may happen to a store in between: runs answer, one after the other, and nodes are
merged from outside.  `pairs_of_history_nodup` is the statement over all histories.  Its step for a
run has two halves: within a run no pass finishes what an earlier one did (`Run.nodup_pairsUpTo`),
and no run finishes what the ledger held at its start (`Run.not_contains_of_pairsUpTo`).
-/

namespace FactGraph

open Session

variable {μ : Type}

/-- A run and the ledger agree about what is finished, before every pass and at the end. -/
def Trace.InStep (t : Trace μ) : Prop :=
  (∀ log ∈ t.passes, log.completed = log.store.finished) ∧ t.completed = t.store.finished

/-- What may happen to a store: nodes are merged, and runs of any rosters answer.  A run starts from
the store as it is, in any other respect from any state. -/
inductive History [Measure μ] (s : Store μ) : List (Trace μ) → Store μ → Prop
  | start : History s [] s
  | merge {traces : List (Trace μ)} {t : Store μ} (batch : List (Node μ))
      (before : History s traces t) : History s traces (t.mergeNodes batch)
  | run {γ : Type} {traces : List (Trace μ)} {roster : Roster γ μ} {context : γ} {limits : Limits}
      {stop : Nat → Bool} {σ σ' : State μ} {report : Report} {trace : Trace μ}
      (before : History s traces σ.store) (registered : roster.Registered)
      (returns : Returns (runTraced roster context limits stop) σ (report, trace) σ') :
      History s (traces ++ [trace]) σ'.store

variable [Measure μ]

theorem Run.inStep_traceOf {γ : Type} (active : List (Run.Active γ μ)) (context : γ) (s : Store μ)
    (n : Nat) : (Run.traceOf active context s n).InStep := by
  refine ⟨fun log hlog => ?_, rfl⟩
  obtain ⟨i, -, rfl⟩ := List.mem_map.mp hlog
  rfl

theorem History.keyed {s t : Store μ} {traces : List (Trace μ)} (hs : s.Keyed)
    (h : History s traces t) : t.Keyed := by
  induction h with
  | start => exact hs
  | merge batch _ ih => exact ih.mergeNodes batch
  | run _ _ hret ih =>
    rw [(returns_runTraced ih hret).2.1]
    exact Run.keyed_after ih _

theorem History.inStep {s t : Store μ} {traces : List (Trace μ)} (hs : s.Keyed)
    (h : History s traces t) : ∀ trace ∈ traces, trace.InStep := by
  induction h with
  | start => exact nofun
  | merge _ _ ih => exact ih
  | run before _ hret ih =>
    intro trace htrace
    rcases List.mem_append.mp htrace with htrace | htrace
    · exact ih trace htrace
    · rw [List.mem_singleton.mp htrace, (returns_runTraced (before.keyed hs) hret).1]
      exact Run.inStep_traceOf _ _ _ _

/-- The ledger holds what it held at first and what was finished since. -/
theorem History.contains_ledger {s t : Store μ} {traces : List (Trace μ)} (hs : s.Keyed)
    (h : History s traces t) (pair : Pair) :
    t.ledger.contains pair = true ↔
      s.ledger.contains pair = true ∨ pair ∈ traces.flatMap Trace.pairs := by
  induction h with
  | start => exact ⟨.inl, fun h => h.resolve_right List.not_mem_nil⟩
  | merge batch _ ih =>
    rw [Store.ledger_mergeNodes]
    exact ih
  | run before _ hret ih =>
    obtain ⟨rfl, hstore, -⟩ := returns_runTraced (before.keyed hs) hret
    rw [hstore, Run.contains_ledger_after, ih, List.flatMap_append, List.mem_append,
      List.flatMap_singleton, Run.pairs_traceOf, or_assoc]

/-- No run finishes what the ledger held at first. -/
theorem History.not_contains_ledger {s t : Store μ} {traces : List (Trace μ)} (hs : s.Keyed)
    (h : History s traces t) :
    ∀ pair ∈ traces.flatMap Trace.pairs, s.ledger.contains pair = false := by
  induction h with
  | start => exact nofun
  | merge _ _ ih => exact ih
  | run before _ hret ih =>
    have hkeyed := before.keyed hs
    obtain ⟨rfl, -, -⟩ := returns_runTraced hkeyed hret
    intro pair hpair
    rw [List.flatMap_append, List.flatMap_singleton, Run.pairs_traceOf, List.mem_append] at hpair
    rcases hpair with hpair | hpair
    · exact ih pair hpair
    · refine Bool.eq_false_iff.mpr fun hfirst => ?_
      have hheld := (before.contains_ledger hs pair).mpr (.inl hfirst)
      rw [Run.not_contains_of_pairsUpTo hkeyed hpair] at hheld
      cases hheld

/-- No two runs finish the same pair, and no run finishes a pair twice. -/
theorem History.nodup_pairs {s t : Store μ} {traces : List (Trace μ)} (hs : s.Keyed)
    (h : History s traces t) : (traces.flatMap Trace.pairs).Nodup := by
  induction h with
  | start => exact List.nodup_nil
  | merge _ _ ih => exact ih
  | run before registered hret ih =>
    have hkeyed := before.keyed hs
    obtain ⟨rfl, -, -⟩ := returns_runTraced hkeyed hret
    rw [List.flatMap_append, List.flatMap_singleton, Run.pairs_traceOf, List.nodup_append]
    refine ⟨ih, Run.nodup_pairsUpTo hkeyed (Run.nodup_active_names registered.nodup_names) _, ?_⟩
    -- what earlier runs finished stands in the ledger that this one starts from
    intro pair hearlier other hnow heq
    have hheld := (before.contains_ledger hs pair).mpr (.inr hearlier)
    rw [heq, Run.not_contains_of_pairsUpTo hkeyed hnow] at hheld
    cases hheld

/-- **Every pair is evaluated to an end at most once**, over all passes of all runs, and never if
the ledger held it at first; after every run the ledger holds exactly what it held at first and what
was evaluated since; and what runs take for finished never departs from the ledger. -/
theorem pairs_of_history_nodup {s t : Store μ} {traces : List (Trace μ)} (hs : s.Keyed)
    (h : History s traces t) :
    (traces.flatMap Trace.pairs).Nodup ∧
      (∀ pair ∈ traces.flatMap Trace.pairs, s.ledger.contains pair = false) ∧
      (∀ pair, t.ledger.contains pair = true ↔
        s.ledger.contains pair = true ∨ pair ∈ traces.flatMap Trace.pairs) ∧
      ∀ trace ∈ traces, trace.InStep :=
  ⟨h.nodup_pairs hs, h.not_contains_ledger hs, h.contains_ledger hs, h.inStep hs⟩

/-- Two files, one of which counts as marked already. -/
def halfMarked : Store Float :=
  (Store.empty.mergeNodes [Node.new "x" "file", Node.new "y" "file"]).note
    [⟨⟨"mark", "x"⟩, ⟨.ran, 1, none⟩⟩]

/-- Marks all files. -/
def markers : Roster Unit Float := ⟨[Analyzer.rule "mark" [] ["seen"]]⟩

/-- Reads marked files. -/
def readers : Roster Unit Float := ⟨[Analyzer.rule "read" ["seen"] ["done"]]⟩

/-- Files are marked, marked files are read, a file is added, files are marked: nothing is done
again, and the file that counted as marked is left alone. -/
theorem pairs_of_three_runs_nodup : ∃ traces t, History halfMarked traces t ∧
    traces.flatMap Trace.pairs = [⟨"mark", "y"⟩, ⟨"read", "y"⟩, ⟨"mark", "z"⟩] ∧
    (traces.flatMap Trace.pairs).Nodup ∧
      (∀ pair ∈ traces.flatMap Trace.pairs, halfMarked.ledger.contains pair = false) ∧
      (∀ pair, t.ledger.contains pair = true ↔
        halfMarked.ledger.contains pair = true ∨ pair ∈ traces.flatMap Trace.pairs) ∧
      ∀ trace ∈ traces, trace.InStep := by
  let limits : Limits := { maxPasses := 9, batchSize := 2 }
  let mark := runTraced markers () limits fun _ => false
  let read := runTraced readers () limits fun _ => false
  let σ : State Float := { store := halfMarked }
  let σ₁ : State Float := (mark.run σ).2
  let σ₂ : State Float := { store := (read.run σ₁).2.store.mergeNodes [Node.new "z" "file"] }
  have hfirst : answers mark σ (fun a => a.2.pairs = [⟨"mark", "y"⟩]) = true := by decide +kernel
  have hsecond : answers read σ₁ (fun a => a.2.pairs = [⟨"read", "y"⟩]) = true := by decide +kernel
  have hthird : answers mark σ₂ (fun a => a.2.pairs = [⟨"mark", "z"⟩]) = true := by decide +kernel
  obtain ⟨⟨report₁, trace₁⟩, hrun₁, hpairs₁⟩ := exists_returns hfirst
  obtain ⟨⟨report₂, trace₂⟩, hrun₂, hpairs₂⟩ := exists_returns hsecond
  obtain ⟨⟨report₃, trace₃⟩, hrun₃, hpairs₃⟩ := exists_returns hthird
  have hmarkers : markers.Registered := ⟨markers.analyzers, rfl⟩
  have hreaders : readers.Registered := ⟨readers.analyzers, rfl⟩
  have history := ((History.start.run hmarkers hrun₁).run hreaders hrun₂).merge
    [Node.new "z" "file"] |>.run (σ := σ₂) hmarkers hrun₃
  refine ⟨_, _, history, ?_, pairs_of_history_nodup ((Store.keyed_empty.mergeNodes _).note _) history⟩
  simp [of_decide_eq_true hpairs₁, of_decide_eq_true hpairs₂, of_decide_eq_true hpairs₃]

end FactGraph
