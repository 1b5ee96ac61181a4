import FactGraph.Proofs.Interruptions

/-!
# Runs only add

Storage writes a node over as a whole: its tags and properties are those it is given.  That nothing
is lost rests on the commit, which reads a node before it writes to it, and which does so in every
pass, for every analyzer that has something to say about the node.

So what is gathered is kept, whatever happens: by a commit that goes through
(`Commit.keptIn_committed`), by one that is cut short between any two of its batches
(`Commit.CutShort.keptIn`), by any number of passes (`Run.keptIn_after`), and so by every run, however
it ends (`keptIn_run`).
-/

namespace FactGraph

open Session

variable {γ μ : Type} [Measure μ]

/-- **What is gathered is kept by a commit that is cut short.** -/
theorem Commit.CutShort.keptIn {s t : Store μ} {results : List (Completion μ)} (hs : s.Keyed)
    (h : CutShort s results t) : s.KeptIn t where
  nodes id n hn := by
    obtain ⟨done, rest, -, hnodes, -⟩ := h.exists_split hs
    rw [hnodes]
    split
    · exact keptIn_written hs results hn
    · exact ⟨n, hn, Node.KeptIn.refl n⟩
  edges key metadata hkey := by
    cases h with
    | nodes done rest _ =>
      rw [Store.edges_mergeNodes]
      exact hkey
    | edges added _ =>
      refine Store.get?_edges_addEdges _ _ ?_
      rw [written, Store.edges_mergeNodes]
      exact hkey
  ledger pair hpair := by
    rw [h.ledger]
    exact hpair

/-- What is gathered is kept by the passes that follow. -/
theorem Run.keptIn_after_of_le {active : List (Active γ μ)} {context : γ} {s : Store μ} (hs : s.Keyed)
    {m n : Nat} (hmn : m ≤ n) : (after active context s m).KeptIn (after active context s n) := by
  induction n, hmn using Nat.le_induction with
  | base => exact Store.KeptIn.refl _
  | succ n _ ih =>
    rw [after_succ]
    exact ih.trans (Commit.keptIn_committed (keyed_after hs n) _ _)

/-- What is gathered is kept by any number of passes. -/
theorem Run.keptIn_after {active : List (Active γ μ)} {context : γ} {s : Store μ} (hs : s.Keyed)
    (n : Nat) : s.KeptIn (after active context s n) :=
  keptIn_after_of_le hs (Nat.zero_le n)

/-- **Runs only add.**  However a run ends, with a report or with an error at any call, every node
is still there with all its tags and property keys, every edge with its metadata, and every pair of
the ledger. -/
theorem keptIn_run (roster : Roster γ μ) (context : γ) (limits : Limits) (stop : Nat → Bool)
    {σ : State μ} (hs : σ.store.Keyed) :
    σ.store.KeptIn ((run roster context limits stop).run σ).2.store := by
  rcases h : (run roster context limits stop).run σ with ⟨result, σ'⟩
  cases result with
  | ok report =>
    have hreturns : Returns (run roster context limits stop) σ report σ' := h
    show σ.store.KeptIn σ'.store
    rw [(returns_run hs hreturns).1]
    exact Run.keptIn_after hs _
  | error e =>
    have hfails : Fails (run roster context limits stop) σ e σ' := h
    obtain ⟨-, n, -, hinterrupted⟩ := Run.interrupted_of_fails hs hfails
    exact (Run.keptIn_after hs n).trans (hinterrupted.cut.keptIn (Run.keyed_after hs n))

/-- Sees a node as if it were new, with another property, and joins it to itself once more. -/
def amnesiac : Analyzer Unit Float where
  name := "amnesiac"
  inspect _ n :=
    { findings := ((Findings.observe {} (Node.new n.id "file")).property n.id "seen" (.int 1)).edge
        ⟨n.id, n.id, "near", none⟩
      verdict := .done }

/-- Storage that holds something of every kind, and fails when edges are written. -/
def fullDisk : State Float where
  store := (((Store.empty.mergeNodes [{ Node.new "doc" "page" with
    tags := KeySet.add ∅ "old"
    properties := Table.insert ∅ "title" (.str "first") }]).addEdges
      [⟨"doc", "doc", "near", some (.str "same")⟩]).1.note [⟨⟨"scan", "doc"⟩, ⟨.ran, 1, none⟩⟩])
  faults c n _ := if c = .createEdges ∧ n = 1 then some (.database "disk is full" none) else none

/-- The node is written over, the run fails, and nothing is lost. -/
theorem keptIn_run_fullDisk : ∃ e σ',
    Fails (run ⟨[amnesiac]⟩ () { maxPasses := 9, batchSize := 1 } fun _ => false) fullDisk e σ' ∧
    (σ'.store.node? "doc").map (fun n => (n.kind, n.properties.contains "seen")) =
      some ("file", true) ∧
    fullDisk.store.KeptIn σ'.store := by
  have hstops : stops (run ⟨[amnesiac]⟩ () { maxPasses := 9, batchSize := 1 } fun _ => false) fullDisk
      (fun σ' => (σ'.store.node? "doc").map (fun n => (n.kind, n.properties.contains "seen")) =
        some ("file", true)) = true := by decide +kernel
  obtain ⟨e, σ', hfails, hnode⟩ := exists_fails hstops
  have hs : fullDisk.store.Keyed := ((Store.keyed_empty.mergeNodes _).addEdges _).note _
  have hkept := keptIn_run ⟨[amnesiac]⟩ () { maxPasses := 9, batchSize := 1 } (fun _ => false) hs
  rw [show (run ⟨[amnesiac]⟩ () _ _).run fullDisk = _ from hfails] at hkept
  exact ⟨e, σ', hfails, of_decide_eq_true hnode, hkept⟩

end FactGraph
