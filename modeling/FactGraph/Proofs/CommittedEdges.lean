import FactGraph.Proofs.LastWriter
import FactGraph.Proofs.StoreIntegrity

/-!
# The edges of a commit

Results ask for edges between nodes that may not be there yet.  A commit looks at the ends of an edge
when all its nodes are written, so it does not matter which result has seen them, or when; an edge that
lacks one of its ends is dropped and counted.

Edges are not written over.  One that is stored stays as it is, and of several with one identity the
FIRST in the order of writing is stored (`Store.get?_addEdges`).  So the number of new edges is that by
which the table has grown (`Store.size_addEdges`).

`edges_of_commit` says all of this of the commit as a whole.  Metadata goes through storage as
properties do, and a measured number in it need not come back as it was (`metadata_changed_in_commit`).
-/

namespace FactGraph

open Session

/-! ## 1. Tables that gain a row -/

theorem Table.size_insert_of_absent {κ α : Type} [Ord κ] [Std.TransOrd κ] [Std.LawfulEqOrd κ]
    {t : Table κ α} {k : κ} (a : α) (h : t.contains k = false) :
    (t.insert k a).size = t.size + 1 := by
  have hplace : ∀ rows : List (κ × α), find k rows = none →
      (place k a rows).length = rows.length + 1 := by
    intro rows
    induction rows with
    | nil => intro _; rfl
    | cons row rest ih =>
      intro hfind
      obtain ⟨k', a'⟩ := row
      rw [find] at hfind
      split at hfind
      · cases hfind
      · next hne =>
        rw [place]
        cases hcompare : compare k k' with
        | lt => rfl
        | eq => exact absurd hcompare hne
        | gt => simp [ih hfind]
  exact hplace t.rows (contains_eq_false_iff.mp h)

/-! ## 2. Edges one after the other -/

namespace Store

variable {μ : Type}

/-- The count of new edges is what the table has grown by. -/
theorem size_addEdges (s : Store μ) (edges : List Edge) :
    (s.addEdges edges).1.edges.size = s.edges.size + (s.addEdges edges).2 := by
  induction edges generalizing s with
  | nil => rfl
  | cons e rest ih =>
    have hone : (s.addEdge e).1.edges.size = s.edges.size + (s.addEdge e).2 := by
      unfold addEdge
      split
      · rfl
      · next habsent => exact Table.size_insert_of_absent _ (Bool.eq_false_iff.mpr habsent)
    rw [addEdges, ih, hone, Nat.add_assoc]

theorem holdsEnds_iff {s : Store μ} {e : Edge} :
    s.holdsEnds e = true ↔ s.contains e.source = true ∧ s.contains e.target = true := by
  rw [holdsEnds, Bool.and_eq_true]

/-- Whether the ends of an edge are stored is a matter of its identity. -/
theorem holdsEnds_congr (s : Store μ) {e e' : Edge} (h : e.key = e'.key) :
    s.holdsEnds e = s.holdsEnds e' := by
  simp only [Edge.key, EdgeKey.mk.injEq] at h
  rw [holdsEnds, holdsEnds, h.1, h.2.1]

/-- Edges of one identity are stored or dropped together, so the first one is the first that is
stored. -/
theorem find?_filter_holdsEnds (s : Store μ) {edges : List Edge} {e : Edge}
    (hfirst : edges.find? (fun e' => e'.key = e.key) = some e) (hends : s.holdsEnds e = true) :
    (edges.filter s.holdsEnds).find? (fun e' => e'.key = e.key) = some e := by
  rw [List.find?_filter, ← hfirst]
  refine List.find?_congr ?_
  intro e' _
  by_cases hkey : e'.key = e.key
  · simp [hkey, holdsEnds_congr s hkey, hends]
  · simp [hkey]

end Store

/-! ## 3. The edges of a commit -/

namespace Commit

variable {μ : Type} [Measure μ] {s : Store μ} {results : List (Completion μ)} {number : Nat}

/-- The first edge with an identity, if the ends are stored. -/
theorem get?_edges_committed (s : Store μ) (results : List (Completion μ)) (number : Nat)
    (key : EdgeKey) :
    (committed s results number).edges.get? key =
      (s.edges.get? key).or
        ((((edges results).filter (committed s results number).holdsEnds).find?
          fun e => e.key = key).map fun e => e.metadata.map Value.stored) := by
  rw [holdsEnds_committed]
  show (joined s results).1.edges.get? key = _
  rw [joined, Store.get?_addEdges, written, Store.edges_mergeNodes]

/-- **What a commit does with edges**, if these are the results, and this is what it reports. -/
structure EdgesWritten (s s' : Store μ) (results : List (Completion μ)) (summary : CommitSummary) :
    Prop where
  /-- An edge that is asked for is stored if and only if both its ends are. -/
  contains : ∀ e ∈ results.flatMap (·.findings.edges), s'.edges.contains e.key = true ↔
    s'.contains e.source = true ∧ s'.contains e.target = true
  /-- The ends may have been there, or any of the results may have seen them. -/
  ends : ∀ id, s'.contains id = true ↔ s.contains id = true ∨ Observes results id
  /-- An edge that was stored is as it was. -/
  kept : ∀ key metadata, s.edges.get? key = some metadata → s'.edges.get? key = some metadata
  /-- A new edge has the metadata of the first one of its identity, as they are stored. -/
  first : ∀ e, (edges results).find? (fun e' => e'.key = e.key) = some e →
    s'.edges.contains e.key = true → s.edges.contains e.key = false →
      s'.edges.get? e.key = some (e.metadata.map Value.stored) ∧
        ((∀ v, e.metadata = some v → v.Lasting) → s'.edges.get? e.key = some e.metadata)
  /-- No other edge is stored. -/
  others : ∀ key, s'.edges.contains key = true → s.edges.contains key = true ∨
    ∃ e ∈ results.flatMap (·.findings.edges), e.key = key
  /-- The report counts the edges that are new, and those that are dropped. -/
  created : s'.edges.size = s.edges.size + summary.edgesCreated
  dropped : summary.edgesDropped =
    ((results.flatMap (·.findings.edges)).filter (!s'.holdsEnds ·)).length

theorem edgesWritten_committed (hs : s.Linked) (results : List (Completion μ)) (number size : Nat) :
    EdgesWritten s (committed s results number) results (summary s results number size) where
  contains e he := by
    rw [← Store.holdsEnds_iff, contains_edges_committed]
    constructor
    · rintro (hthere | ⟨c, -, e', -, hends, hkey⟩)
      · -- nodes are never removed
        obtain ⟨hsource, htarget⟩ := hs.edges e.key hthere
        exact Store.holdsEnds_iff.mpr ⟨(contains_committed_iff hs.keyed).mpr (.inl hsource),
          (contains_committed_iff hs.keyed).mpr (.inl htarget)⟩
      · rw [← Store.holdsEnds_congr _ hkey]
        exact hends
    · intro hends
      obtain ⟨c, hc, hec⟩ := List.mem_flatMap.mp he
      exact .inr ⟨c, hc, e, hec, hends, rfl⟩
  ends id := contains_committed_iff hs.keyed
  kept := (keptIn_committed hs.keyed results number).edges
  first e hfirst hthere habsent := by
    have hends : (committed s results number).holdsEnds e = true := by
      rcases contains_edges_committed.mp hthere with h | ⟨c, -, e', -, hends, hkey⟩
      · rw [habsent] at h
        cases h
      · rw [← Store.holdsEnds_congr _ hkey]
        exact hends
    have hget : (committed s results number).edges.get? e.key =
        some (e.metadata.map Value.stored) := by
      rw [get?_edges_committed, Table.contains_eq_false_iff.mp habsent, Option.none_or,
        Store.find?_filter_holdsEnds _ hfirst hends, Option.map_some]
    refine ⟨hget, fun hlasting => hget.trans ?_⟩
    cases hmetadata : e.metadata with
    | none => rfl
    | some v => rw [Option.map_some, (hlasting v hmetadata).stored_eq]
  others key hthere := by
    rcases contains_edges_committed.mp hthere with h | ⟨c, hc, e, he, -, hkey⟩
    · exact .inl h
    · exact .inr ⟨e, List.mem_flatMap.mpr ⟨c, hc, he⟩, hkey⟩
  created := by
    show (joined s results).1.edges.size = _
    rw [joined, Store.size_addEdges, written, Store.edges_mergeNodes]
    rfl
  dropped := by
    rw [holdsEnds_committed]
    exact ((edges_perm results).filter _).length_eq

end Commit

section Edges

variable {μ : Type} [Measure μ]

/-- **The edges of a commit.**  An edge that a result asks for is stored if and only if both its ends
are, whichever results have seen them.  It has the metadata that it had, or else those of the first
edge of its identity, as they are stored.  The report counts the new edges and the dropped ones. -/
theorem edges_of_commit {results : List (Completion μ)} {number size : Nat} {σ σ' : State μ}
    {summary : CommitSummary} (hs : σ.store.Linked)
    (h : Returns (Commit.pass results number size) σ summary σ') :
    Commit.EdgesWritten σ.store σ'.store results summary := by
  obtain ⟨rfl, hstore⟩ := Commit.of_returns_pass h
  rw [hstore]
  exact Commit.edgesWritten_committed hs results number size

end Edges

/-- Says that the desk holds a note, and that it holds something else. -/
def linking : Completion Float where
  position := 0
  pair := ⟨"linker", "desk"⟩
  outcome := .ran
  findings := { edges := [⟨"desk", "note", "holds", some (.str "first")⟩,
    ⟨"desk", "pen", "holds", none⟩] }
  message := none

/-- Says once more that the desk holds the note. -/
def relinking : Completion Float where
  position := 2
  pair := ⟨"relinker", "desk"⟩
  outcome := .ran
  findings := { edges := [⟨"desk", "note", "holds", some (.str "second")⟩] }
  message := none

/-- The note is seen after the first edge to it was asked for, and that edge is the one that is stored;
the pen is not there. -/
theorem edges_of_commit_linking : ∃ summary σ',
    Returns (Commit.pass [linking, sighting, relinking] 1 10) bareDesk summary σ' ∧
    σ'.store.edges.get? ⟨"desk", "note", "holds"⟩ = some (some (.str "first")) ∧
    σ'.store.edges.contains ⟨"desk", "pen", "holds"⟩ = false ∧
    σ'.store.edges.size = summary.edgesCreated ∧ summary.edgesDropped = 1 := by
  have hsorted : [linking, sighting, relinking].mergeSort Commit.before = _ :=
    List.mergeSort_of_pairwise (by decide +kernel)
  obtain ⟨summary, σ', hreturns⟩ := exists_returns_bareDesk [linking, sighting, relinking]
    (by simp [linking, sighting, relinking])
  have hwritten := edges_of_commit (Store.linked_empty.mergeNodes _) hreturns
  have hdesk : σ'.store.contains "desk" = true := (hwritten.ends "desk").mpr (.inl (by decide +kernel))
  have hnote : σ'.store.contains "note" = true :=
    (hwritten.ends "note").mpr
      (.inr ⟨sighting, by simp, Node.new "note" "file", List.mem_cons_self, rfl⟩)
  have hpen : σ'.store.contains "pen" = false := by
    refine Bool.eq_false_iff.mpr fun hthere => ?_
    rcases (hwritten.ends "pen").mp hthere with h | ⟨c, hc, seen, hseen, hid⟩
    · revert h
      decide +kernel
    · simp only [List.mem_cons, List.not_mem_nil, or_false] at hc
      rcases hc with rfl | rfl | rfl
      · cases hseen
      · cases List.mem_singleton.mp hseen
        exact absurd hid (by decide)
      · cases hseen
  have hlink := hwritten.contains ⟨"desk", "note", "holds", some (.str "first")⟩
    (by simp [linking, sighting, relinking])
  have hlost := hwritten.contains ⟨"desk", "pen", "holds", none⟩
    (by simp [linking, sighting, relinking])
  have hfirst := hwritten.first ⟨"desk", "note", "holds", some (.str "first")⟩
    (by rw [Commit.edges, hsorted]; rfl) (hlink.mpr ⟨hdesk, hnote⟩) (by decide +kernel)
  refine ⟨summary, σ', hreturns, hfirst.1, ?_, ?_, ?_⟩
  · refine Bool.eq_false_iff.mpr fun hthere => ?_
    rw [(hlost.mp hthere).2] at hpen
    cases hpen
  · rw [hwritten.created]
    exact Nat.zero_add _
  · rw [hwritten.dropped]
    simp [linking, sighting, relinking, Findings.observe, Store.holdsEnds, hdesk, hnote, hpen]

/-- Joins the desk to itself by a very small number. -/
def measuredLink : Completion Float where
  position := 0
  pair := ⟨"gauge", "desk"⟩
  outcome := .ran
  findings := { edges := [⟨"desk", "desk", "near", some (.float 1e-24)⟩] }
  message := none

/-- **A new edge need not have the metadata that it was given.**  There is one edge in this commit, and
what can be read afterwards is another number. -/
theorem metadata_changed_in_commit : ∃ summary σ',
    Returns (Commit.pass [measuredLink] 1 10) bareDesk summary σ' ∧
    measuredLink.findings.edges = [⟨"desk", "desk", "near", some (.float 1e-24)⟩] ∧
    bareDesk.store.edges.contains ⟨"desk", "desk", "near"⟩ = false ∧
    ((σ'.store.edges.get? ⟨"desk", "desk", "near"⟩).bind fun metadata =>
      metadata.bind Value.number?) = some 1.0000000000000001e-24 ∧
    (1e-24 : Float) ≠ 1.0000000000000001e-24 := by
  have hanswers : answers (Commit.pass [measuredLink] 1 10) bareDesk (fun _ => true) = true := by
    decide +kernel
  obtain ⟨summary, hreturns, -⟩ := exists_returns hanswers
  refine ⟨summary, _, hreturns, rfl, ?_, ?_, ?_⟩
  · decide +kernel
  · decide +kernel
  · decide +kernel

end FactGraph
