import FactGraph.Proofs.Interruptions

/-!
# What a crash leaves

Storage may fail at any call: while the ledger is loaded, between passes, in the reads of a commit or
at any of its batches.  A run that fails leaves whatever it has written so far, and the next run goes
on from there.  So it matters what that can be.

`store_of_failed_run` is the answer for every run and every failure.  The ledger holds what the
passes recorded whose commits went through, and nothing of the commit that failed.  Of the nodes
which that commit touches, the first ones by id are as the whole commit would have left them, and all
others are as they were before it; no node is in between.  An edge of that commit is stored only if
all its nodes are.
-/

namespace FactGraph

open Session

namespace Run

variable {γ μ : Type} [Measure μ]

/-- The ledger rows that some passes write, in order. -/
def rowsUpTo (active : List (Active γ μ)) (context : γ) (s : Store μ) (n : Nat) : List LedgerRow :=
  (List.range n).flatMap fun i =>
    Commit.rows (finishing active context (after active context s i)) (i + 1)

/-- The ids that a pass over a store touches, in ascending order. -/
def touched (active : List (Active γ μ)) (context : γ) (s : Store μ) : List String :=
  (Commit.folded s (finishing active context s)).nodes.keys

variable {active : List (Active γ μ)} {context : γ} {s : Store μ}

/-- The ledger after some passes is the one before with the rows of these passes. -/
theorem ledger_after (n : Nat) :
    (after active context s n).ledger = (s.note (rowsUpTo active context s n)).ledger := by
  induction n with
  | zero => rfl
  | succ n ih =>
    have hrows : rowsUpTo active context s (n + 1) = rowsUpTo active context s n ++
        Commit.rows (finishing active context (after active context s n)) (n + 1) := by
      rw [rowsUpTo, List.range_succ, List.flatMap_append, List.flatMap_singleton]
      rfl
    rw [hrows, Store.note, List.foldl_append, after_succ, advance, Commit.committed, Store.note,
      Commit.ledger_joined, ih, Store.note]

theorem ascending_touched :
    (touched active context s).Pairwise fun a b => compare a b = .lt := by
  rw [touched, Table.keys, List.pairwise_map]
  exact (Commit.folded s (finishing active context s)).nodes.ascending

/-- Touched are the nodes which something that the pass finishes is about, if they are there after it. -/
theorem mem_touched (hs : s.Keyed) (number : Nat) {id : String} :
    id ∈ touched active context s ↔
      (∃ c ∈ finishing active context s, ∃ w ∈ c.writes, w.target = id) ∧
        (advance active context number s).contains id = true := by
  rw [touched, Table.mem_keys, Commit.contains_folded, advance, Commit.contains_committed hs]
  refine and_congr_left fun _ => ?_
  constructor
  · rintro ⟨w, hw, hid⟩
    obtain ⟨c, hc, hw⟩ := Commit.mem_writes.mp hw
    exact ⟨c, hc, w, hw, hid⟩
  · rintro ⟨c, hc, w, hw, hid⟩
    exact ⟨w, Commit.mem_writes.mpr ⟨c, hc, hw⟩, hid⟩

/-- **What a crash after `k` commits leaves.**  `written` and `unwritten` are the ids that the commit
which failed has got to and those it has not. -/
structure Crashed (active : List (Active γ μ)) (context : γ) (σ σ' : State μ) (k : Nat)
    (written unwritten : List String) : Prop where
  /-- Storage has taken the ledger of `k` passes, which is the last that a commit writes. -/
  taken : σ'.accepted .recordRuns = σ.accepted .recordRuns + k
  /-- The ledger has gained the rows of these passes, and no others. -/
  ledger : σ'.store.ledger = (σ.store.note (rowsUpTo active context σ.store k)).ledger
  /-- The nodes stand under their ids, and every tag belongs to one of them. -/
  keyed : σ'.store.Keyed
  touched : touched active context (after active context σ.store k) = written ++ unwritten
  ascending : (written ++ unwritten).Pairwise fun a b => compare a b = .lt
  /-- A node that was written is as the whole commit leaves it, any other one as it was. -/
  node? : ∀ id, σ'.store.node? id =
    if id ∈ written then (after active context σ.store (k + 1)).node? id
    else (after active context σ.store k).node? id
  /-- There is no new edge before all nodes are written. -/
  edges : σ'.store.edges ≠ (after active context σ.store k).edges → unwritten = []

/-- What is left of a run that fails is what a crash leaves. -/
theorem Interrupted.exists_crashed {σ σ' : State μ} {k : Nat} (hs : σ.store.Keyed)
    (hreaches : σ.Reaches k σ') (h : Interrupted active context σ.store k σ'.store) :
    ∃ written unwritten, Crashed active context σ σ' k written unwritten := by
  obtain ⟨written, unwritten, hsplit, hnodes, hedges⟩ := h.cut.exists_split (keyed_after hs k)
  refine ⟨written, unwritten, hreaches.accepted, ?_, h.cut.keyed (keyed_after hs k), hsplit, ?_,
    fun id => ?_, hedges⟩
  · rw [h.cut.ledger, ledger_after]
  · rw [← hsplit]
    exact ascending_touched
  · rw [hnodes, after_succ, advance, Commit.node?_committed]

end Run

section Whole

variable {γ μ : Type} [Measure μ] {roster : Roster γ μ} {context : γ} {limits : Limits}
  {stop : Nat → Bool} {σ σ' : State μ} {e : Error}

/-- **What a failed run leaves**, at whatever call storage failed: the work of some whole passes, and
of the commit that failed the nodes of the first ids, each as that commit leaves it. -/
theorem store_of_failed_run (hs : σ.store.Keyed)
    (h : Fails (run roster context limits stop) σ e σ') :
    ∃ k written unwritten, Run.Crashed (Run.active roster context limits) context σ σ' k written
      unwritten := by
  obtain ⟨-, k, hreaches, hcut⟩ := Run.interrupted_of_fails hs h
  exact ⟨k, hcut.exists_crashed hs hreaches⟩

end Whole

/-- Marks a folder and a file in it, and says that the one is in the other. -/
def sweep : Analyzer Unit Float where
  name := "sweep"
  targets := ["folder"]
  inspect _ n :=
    { findings := ((Findings.tag {} n.id "swept").tag "a/b" "swept").edge ⟨n.id, "a/b", "holds", none⟩
      verdict := .done }

/-- A folder and a file in it, where storage fails at the second batch of nodes. -/
def failingDisk : State Float where
  store := Store.empty.mergeNodes [Node.new "a" "folder", Node.new "a/b" "file"]
  faults c n _ := if c = .mergeNodes ∧ n = 2 then some (.database "disk I/O error" none) else none

/-- The folder is marked, the file is not, and nothing is recorded. -/
theorem store_of_failed_run_sweep : ∃ e σ',
    Fails (run ⟨[sweep]⟩ () { maxPasses := 9, batchSize := 1 } fun _ => false) failingDisk e σ' ∧
    (σ'.store.node? "a").map (·.hasTag "swept") = some true ∧
    (σ'.store.node? "a/b").map (·.hasTag "swept") = some false ∧
    σ'.store.ledger.isEmpty = true ∧
    ∃ k written unwritten, Run.Crashed (Run.active ⟨[sweep]⟩ () { maxPasses := 9, batchSize := 1 }) ()
      failingDisk σ' k written unwritten := by
  have hstops : stops (run ⟨[sweep]⟩ () { maxPasses := 9, batchSize := 1 } fun _ => false) failingDisk
      (fun σ' => (σ'.store.node? "a").map (·.hasTag "swept") = some true ∧
        (σ'.store.node? "a/b").map (·.hasTag "swept") = some false ∧
        σ'.store.ledger.isEmpty = true) = true := by decide +kernel
  obtain ⟨e, σ', hfails, hnodes⟩ := exists_fails hstops
  obtain ⟨hfolder, hfile, hledger⟩ := of_decide_eq_true hnodes
  have hs : failingDisk.store.Keyed := Store.keyed_empty.mergeNodes _
  exact ⟨e, σ', hfails, hfolder, hfile, hledger, store_of_failed_run hs hfails⟩

end FactGraph
