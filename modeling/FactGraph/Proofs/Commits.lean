import FactGraph.Commit
import FactGraph.Proofs.Sessions
import FactGraph.Proofs.Stores

/-!
# What a commit does

A commit talks to storage call by call: it looks nodes up one at a time, writes them in batches,
asks for the ends of each edge, writes the edges in batches, and ends with the ledger.  Its meaning
is none of that.  `Commit.committed` says it in one line per table, without batches and without
calls, and `Commit.computes_pass` proves that this is what a commit computes.

For the nodes the meaning is said once more, node by node.  Everything that the results of a pass
ask of nodes is one list of WRITES in a fixed order (`Commit.writes`), and each node is seen to be
the stored one with those writes applied one after the other (`Commit.viewed`).  What a pass may do
to a node is therefore what a single write may do (`Write.onto`), and every later statement about
tags or kinds is an induction over that list.
-/

namespace FactGraph

/-! ## 1. Writes -/

/-- One thing that a result of a pass asks of a node. -/
inductive Write (μ : Type) where
  | observe (seen : Node μ)
  | patch (target : String) (changes : Patch μ)

namespace Write

variable {μ : Type}

/-- Do a write, looking at one id only.  A patch needs a node to change; an observation makes
one. -/
def onto [Measure μ] (id : String) (standing : Option (Node μ)) : Write μ → Option (Node μ)
  | .observe seen =>
    if seen.id = id then some (standing.elim seen (·.absorb seen)) else standing
  | .patch target changes => if target = id then standing.map changes.apply else standing

/-- The id that a write is about. -/
def target : Write μ → String
  | .observe seen => seen.id
  | .patch target _ => target

theorem onto_of_ne [Measure μ] {id : String} {standing : Option (Node μ)} {w : Write μ}
    (h : w.target ≠ id) : onto id standing w = standing := by
  cases w with
  | observe seen => exact if_neg h
  | patch target changes => exact if_neg h

/-- A write removes no node. -/
theorem eq_none_of_onto [Measure μ] {id : String} {standing : Option (Node μ)} {w : Write μ}
    (h : onto id standing w = none) : standing = none := by
  cases w with
  | observe seen =>
    rw [onto] at h
    split at h
    · cases h
    · exact h
  | patch target changes =>
    rw [onto] at h
    split at h
    · exact Option.map_eq_none_iff.mp h
    · exact h

/-- Writes remove nothing. -/
theorem isSome_foldl_onto [Measure μ] {ws : List (Write μ)} {id : String} {o : Option (Node μ)}
    (h : o.isSome = true) : (ws.foldl (onto id) o).isSome = true := by
  induction ws generalizing o with
  | nil => exact h
  | cons w rest ih =>
    refine ih (Option.isSome_iff_ne_none.mpr fun hnone => ?_)
    rw [eq_none_of_onto hnone] at h
    cases h

/-- Applying the patches of a table, looking at one id only. -/
theorem foldl_onto_patches [Measure μ] (t : Table String (Patch μ)) (id : String)
    (o : Option (Node μ)) :
    (t.rows.map fun row => Write.patch row.1 row.2).foldl (onto id) o =
      (t.get? id).elim o fun p => o.map p.apply := by
  have hrows : ∀ (rows : List (String × Patch μ)) (o : Option (Node μ)),
      (rows.Pairwise fun a b => compare a.1 b.1 = .lt) →
      (rows.map fun row => Write.patch row.1 row.2).foldl (onto id) o =
        (Table.find id rows).elim o fun p => o.map p.apply := by
    intro rows
    induction rows with
    | nil => exact fun _ _ => rfl
    | cons row rest ih =>
      intro o hasc
      obtain ⟨target, p⟩ := row
      obtain ⟨hlt, hrest⟩ := List.pairwise_cons.mp hasc
      rw [List.map_cons, List.foldl_cons, ih _ hrest, Table.find, onto]
      simp only [Std.compare_eq_iff_eq]
      by_cases htarget : id = target
      · -- the other rows lie above this one
        subst htarget
        rw [if_pos rfl, if_pos rfl, Table.find_eq_none_of_lt hlt]
        rfl
      · rw [if_neg htarget, if_neg (Ne.symm htarget)]
  exact hrows t.rows o t.ascending

/-- Whether a write gives a tag to a node. -/
def Marks (id tag : String) : Write μ → Prop
  | .observe seen => seen.id = id ∧ seen.hasTag tag = true
  | .patch target changes => target = id ∧ changes.tags.contains tag = true

end Write

/-- What a finished pair asks of nodes, in order: what it saw, then what it changed. -/
def Completion.writes {μ : Type} (c : Completion μ) : List (Write μ) :=
  c.findings.observed.map .observe ++ c.findings.patches.rows.map fun row => .patch row.1 row.2

/-- Findings change a node so that it gets a tag. -/
def Findings.Gives {μ : Type} (f : Findings μ) (id tag : String) : Prop :=
  ∃ p, f.patches.get? id = some p ∧ p.tags.contains tag = true

namespace Findings

variable {μ : Type}

theorem gives_patch {f : Findings μ} {node id tag : String} {change : Patch μ → Patch μ} :
    (f.patch node change).Gives id tag ↔
      if id = node then (change ((f.patches.get? node).getD {})).tags.contains tag = true
      else f.Gives id tag := by
  rw [Gives, patch, Table.get?_modify]
  split
  · simp
  · rfl

/-- Adding a tag gives just that tag. -/
theorem gives_tag {f : Findings μ} {node id t tag : String} :
    (f.tag node t).Gives id tag ↔ (id = node ∧ tag = t) ∨ f.Gives id tag := by
  rw [Findings.tag, gives_patch]
  split
  · next hid =>
    subst hid
    rw [KeySet.contains_add, and_iff_right rfl, Gives]
    refine or_congr Iff.rfl ?_
    cases f.patches.get? id with
    | none => simp [Table.contains, Table.get?_empty, EmptyCollection.emptyCollection]
    | some p => simp
  · next hid => rw [or_iff_right fun h => hid h.1]

/-- A failure gives the two tags of errors, and no others. -/
theorem tag_of_gives_failure {analyzer node message id tag : String}
    (h : (failure analyzer node message : Findings μ).Gives id tag) :
    tag = errorTag ∨ tag = errorKey analyzer := by
  -- the texts of errors are kept beside the patches
  change (({} : Findings μ).patch node fun p =>
    { p with
      tags := (p.tags.add errorTag).add (errorKey analyzer)
      properties := p.properties.insert (errorKey analyzer) (.str message) }).Gives id tag at h
  rw [gives_patch] at h
  split at h
  · rw [KeySet.contains_add, KeySet.contains_add] at h
    rcases h with h | h | h
    · exact .inr h
    · exact .inl h
    · cases h
  · obtain ⟨q, hq, -⟩ := h
    cases hq

end Findings

/-- What is asked of nodes marks one with a tag if it was seen with it or is changed to have it. -/
theorem Completion.exists_marks {μ : Type} {c : Completion μ} {id tag : String} :
    (∃ w ∈ c.writes, w.Marks id tag) ↔
      (∃ seen ∈ c.findings.observed, seen.id = id ∧ seen.hasTag tag = true) ∨
        c.findings.Gives id tag := by
  constructor
  · rintro ⟨w, hw, hmarks⟩
    rcases List.mem_append.mp hw with hw | hw
    · obtain ⟨seen, hseen, rfl⟩ := List.mem_map.mp hw
      exact .inl ⟨seen, hseen, hmarks⟩
    · obtain ⟨⟨target, p⟩, hrow, rfl⟩ := List.mem_map.mp hw
      obtain ⟨rfl, htag⟩ := hmarks
      exact .inr ⟨p, Table.mem_rows.mp hrow, htag⟩
  · rintro (⟨seen, hseen, hmarks⟩ | ⟨p, hp, htag⟩)
    · exact ⟨.observe seen, List.mem_append_left _ (List.mem_map_of_mem hseen), hmarks⟩
    · refine ⟨.patch id p, List.mem_append_right _ ?_, rfl, htag⟩
      exact List.mem_map.mpr ⟨(id, p), Table.mem_rows.mpr hp, rfl⟩

namespace Commit

open Session

variable {μ : Type}

/-- Everything that the results of a pass ask of nodes, in the order of writing. -/
def writes (results : List (Completion μ)) : List (Write μ) :=
  (results.mergeSort before).flatMap Completion.writes

theorem mem_writes {results : List (Completion μ)} {w : Write μ} :
    w ∈ writes results ↔ ∃ c ∈ results, w ∈ c.writes := by
  rw [writes, List.mem_flatMap]
  constructor
  · rintro ⟨c, hc, hw⟩
    exact ⟨c, (List.mergeSort_perm results before).mem_iff.mp hc, hw⟩
  · rintro ⟨c, hc, hw⟩
    exact ⟨c, (List.mergeSort_perm results before).mem_iff.mpr hc, hw⟩

/-- A result observes an id. -/
def Observes (results : List (Completion μ)) (id : String) : Prop :=
  ∃ c ∈ results, ∃ seen ∈ c.findings.observed, seen.id = id

theorem observes_of_mem_writes {results : List (Completion μ)} {seen : Node μ}
    (h : Write.observe seen ∈ writes results) : Observes results seen.id := by
  obtain ⟨c, hc, hw⟩ := mem_writes.mp h
  rcases List.mem_append.mp hw with hw | hw
  · obtain ⟨seen', hseen, heq⟩ := List.mem_map.mp hw
    cases heq
    exact ⟨c, hc, seen, hseen, rfl⟩
  · obtain ⟨row, -, heq⟩ := List.mem_map.mp hw
    cases heq

theorem exists_patch_of_mem_writes {results : List (Completion μ)} {target : String} {p : Patch μ}
    (h : Write.patch target p ∈ writes results) :
    ∃ c ∈ results, c.findings.patches.get? target = some p := by
  obtain ⟨c, hc, hw⟩ := mem_writes.mp h
  rcases List.mem_append.mp hw with hw | hw
  · obtain ⟨seen, -, heq⟩ := List.mem_map.mp hw
    cases heq
  · obtain ⟨row, hrow, heq⟩ := List.mem_map.mp hw
    cases heq
    exact ⟨c, hc, Table.mem_rows.mp hrow⟩

/-- A node as the results of a pass leave it, before it is stored. -/
def viewed [Measure μ] (s : Store μ) (results : List (Completion μ)) (id : String) :
    Option (Node μ) :=
  (writes results).foldl (Write.onto id) (s.node? id)

/-! ## 2. Folding nodes -/

/-- A node as it stands: folded already, or stored. -/
def standing (s : Store μ) (staged : Staging μ) (id : String) : Option (Node μ) :=
  (staged.nodes.get? id).or (s.node? id)

/-- Fold a node that was seen. -/
def foldObserved (s : Store μ) (staged : Staging μ) (seen : Node μ) : Staging μ :=
  match standing s staged seen.id with
  | some n => { staged with nodes := staged.nodes.insert seen.id (n.absorb seen) }
  | none => { staged with nodes := staged.nodes.insert seen.id seen }

/-- Fold a patch. -/
def foldPatch [Measure μ] (s : Store μ) (staged : Staging μ) (target : String × Patch μ) :
    Staging μ :=
  match standing s staged target.1 with
  | some n => { staged with nodes := staged.nodes.insert target.1 (target.2.apply n) }
  | none => { staged with missing := staged.missing + 1 }

/-- Fold everything that one result found out about nodes. -/
def foldResult [Measure μ] (s : Store μ) (staged : Staging μ) (c : Completion μ) : Staging μ :=
  c.findings.patches.rows.foldl (foldPatch s) (c.findings.observed.foldl (foldObserved s) staged)

/-- All nodes that the results of a pass touch, folded. -/
def folded [Measure μ] (s : Store μ) (results : List (Completion μ)) : Staging μ :=
  (results.mergeSort before).foldl (foldResult s) {}

theorem computes_current (staged : Staging μ) (id : String) (κ : Core μ) :
    Computes (current staged id) κ (.ok (standing κ.store staged id)) κ := by
  rw [current, standing]
  cases staged.nodes.get? id with
  | some n => exact Computes.pure _ κ
  | none => exact Computes.findNode id κ

theorem computes_stageObserved (staged : Staging μ) (seen : Node μ) (κ : Core μ) :
    Computes (stageObserved staged seen) κ (.ok (foldObserved κ.store staged seen)) κ := by
  refine (computes_current staged seen.id κ).bind ?_
  rw [foldObserved]
  cases standing κ.store staged seen.id with
  | some n => exact Computes.pure _ κ
  | none => exact Computes.pure _ κ

theorem computes_stagePatch [Measure μ] (staged : Staging μ) (target : String × Patch μ)
    (κ : Core μ) :
    Computes (stagePatch staged target) κ (.ok (foldPatch κ.store staged target)) κ := by
  refine (computes_current staged target.1 κ).bind ?_
  rw [foldPatch]
  cases standing κ.store staged target.1 with
  | some n => exact Computes.pure _ κ
  | none => exact Computes.pure _ κ

theorem computes_stage [Measure μ] (staged : Staging μ) (c : Completion μ) (κ : Core μ) :
    Computes (stage staged c) κ (.ok (foldResult κ.store staged c)) κ := by
  refine Computes.bind (Computes.foldlM_read (foldObserved κ.store) ?_ _ staged)
    (Computes.foldlM_read (foldPatch κ.store) ?_ _ _)
  · intro st seen
    exact computes_stageObserved st seen κ
  · intro st target
    exact computes_stagePatch st target κ

/-! ## 3. Batches -/

/-- Cutting into batches loses nothing. -/
theorem flatten_batches {α : Type} (size : Nat) (xs : List α) : (batches size xs).flatten = xs := by
  induction xs using batches.induct size with
  | case1 => rw [batches]; rfl
  | case2 x rest ih =>
    rw [batches, List.flatten_cons, ih, List.cons_append, List.take_append_drop]

/-- A way of writing batches has an effect that can be split anywhere.  `P` is what a batch needs to
be accepted, and what is written before it does not take that away. -/
structure Batchwise {α : Type} (write : List α → Session μ Nat)
    (effect : Store μ → List α → Store μ × Nat) (P : Store μ → List α → Prop) : Prop where
  nil : ∀ s, effect s [] = (s, 0)
  append : ∀ s a b, effect s (a ++ b) =
    ((effect (effect s a).1 b).1, (effect s a).2 + (effect (effect s a).1 b).2)
  stable : ∀ s a b, P s b → P (effect s a).1 b
  computes : ∀ part s b, P s part →
    Computes (write part) ⟨s, b⟩ (.ok (effect s part).2) ⟨(effect s part).1, b⟩

/-- **Batches do not show**: writing all batches has the effect of writing them as one. -/
theorem computes_writeBatches {α : Type} {write : List α → Session μ Nat}
    {effect : Store μ → List α → Store μ × Nat} {P : Store μ → List α → Prop}
    (hwrite : Batchwise write effect P) (parts : List (List α)) (s : Store μ) (b : Bool)
    (hparts : ∀ part ∈ parts, P s part) :
    Computes (writeBatches write parts) ⟨s, b⟩ (.ok (effect s parts.flatten).2)
      ⟨(effect s parts.flatten).1, b⟩ := by
  suffices ∀ total, Computes
      (parts.foldlM (fun total part => return total + (← write part)) total) ⟨s, b⟩
      (.ok (total + (effect s parts.flatten).2)) ⟨(effect s parts.flatten).1, b⟩ by
    have h := this 0
    rw [Nat.zero_add] at h
    exact h
  induction parts generalizing s with
  | nil =>
    intro total
    rw [List.flatten_nil, hwrite.nil]
    exact Computes.pure total _
  | cons part rest ih =>
    intro total
    rw [List.foldlM_cons, List.flatten_cons, hwrite.append]
    have hpart := hwrite.computes part s b (hparts part List.mem_cons_self)
    -- the rest sees the store that this batch leaves, and is still acceptable there
    have hrest := ih (effect s part).1
      (fun part' h' => hwrite.stable _ _ _ (hparts part' (List.mem_cons_of_mem _ h')))
      (total + (effect s part).2)
    rw [Nat.add_assoc] at hrest
    exact (hpart.bind (Computes.pure (total + (effect s part).2) _)).bind hrest

theorem batchwise_mergeNodes [Measure μ] :
    Batchwise (μ := μ) Session.mergeNodes (fun s batch => (s.mergeNodes batch, batch.length))
      fun _ _ => True where
  nil _ := rfl
  append s a b := by rw [Store.mergeNodes_append, List.length_append]
  stable _ _ _ _ := trivial
  computes _ _ _ _ := Computes.write rfl

theorem batchwise_createEdges :
    Batchwise (μ := μ) Session.createEdges Store.addEdges
      fun s part => ∀ e ∈ part, s.holdsEnds e = true where
  nil _ := rfl
  append := Store.addEdges_append
  stable s a b hb e he := by
    rw [Store.holdsEnds, Store.contains_addEdges, Store.contains_addEdges]
    exact hb e he
  computes _ s _ hpart := Computes.write (Store.createEdges_eq s hpart)

theorem computes_writeNodes [Measure μ] (parts : List (List (Node μ))) (s : Store μ) (b : Bool) :
    Computes (writeBatches Session.mergeNodes parts) ⟨s, b⟩ (.ok parts.flatten.length)
      ⟨s.mergeNodes parts.flatten, b⟩ :=
  computes_writeBatches batchwise_mergeNodes parts s b fun _ _ => trivial

theorem computes_writeEdges (parts : List (List Edge)) (s : Store μ) (b : Bool)
    (h : ∀ part ∈ parts, ∀ e ∈ part, s.holdsEnds e = true) :
    Computes (writeBatches Session.createEdges parts) ⟨s, b⟩ (.ok (s.addEdges parts.flatten).2)
      ⟨(s.addEdges parts.flatten).1, b⟩ :=
  computes_writeBatches batchwise_createEdges parts s b h

/-! ## 4. Edges -/

theorem computes_isLive (e : Edge) (κ : Core μ) :
    Computes (isLive e) κ (.ok (κ.store.holdsEnds e)) κ := by
  refine (Computes.containsNode e.source κ).bind ?_
  rw [Store.holdsEnds]
  cases κ.store.contains e.source with
  | false => exact Computes.pure false κ
  | true => exact Computes.containsNode e.target κ

theorem foldl_live (keep : Edge → Bool) (edges live : List Edge) (dropped : Nat) :
    edges.foldl (fun p e => if keep e then (e :: p.1, p.2) else (p.1, p.2 + 1)) (live, dropped) =
      ((edges.filter keep).reverse ++ live, dropped + (edges.filter (!keep ·)).length) := by
  induction edges generalizing live dropped with
  | nil => rfl
  | cons e rest ih =>
    rw [List.foldl_cons]
    cases h : keep e with
    | true => simp [ih, h]
    | false => simp [ih, h, Nat.add_assoc, Nat.add_comm 1]

theorem computes_liveEdges (edges : List Edge) (κ : Core μ) :
    Computes (liveEdges edges) κ
      (.ok (edges.filter κ.store.holdsEnds, (edges.filter (!κ.store.holdsEnds ·)).length)) κ := by
  refine Computes.bind (Computes.foldlM_read
    (fun p e => if κ.store.holdsEnds e then (e :: p.1, p.2) else (p.1, p.2 + 1)) ?_ edges ([], 0))
    ?_
  · intro p e
    refine (computes_isLive e κ).bind ?_
    cases κ.store.holdsEnds e with
    | true => exact Computes.pure _ κ
    | false => exact Computes.pure _ κ
  · rw [foldl_live, Nat.zero_add, List.append_nil]
    have h := Computes.pure (((edges.filter κ.store.holdsEnds).reverse.reverse,
      (edges.filter (!κ.store.holdsEnds ·)).length) : List Edge × Nat) κ
    rw [List.reverse_reverse] at h
    simpa using h

/-! ## 5. The whole commit -/

/-- The edges that the results of a pass ask for, in the order of writing. -/
def edges (results : List (Completion μ)) : List Edge :=
  (results.mergeSort before).flatMap (·.findings.edges)

/-- The ledger rows of a pass, in the order of writing. -/
def rows (results : List (Completion μ)) (number : Nat) : List LedgerRow :=
  (results.mergeSort before).map (ledgerRow number)

section Whole

variable [Measure μ]

/-- The store with the nodes of a pass written. -/
def written (s : Store μ) (results : List (Completion μ)) : Store μ :=
  s.mergeNodes (folded s results).nodes.values

/-- The store with the nodes and edges of a pass written, and the number of new edges. -/
def joined (s : Store μ) (results : List (Completion μ)) : Store μ × Nat :=
  (written s results).addEdges ((edges results).filter (written s results).holdsEnds)

/-- **The store that a successful commit leaves.** -/
def committed (s : Store μ) (results : List (Completion μ)) (number : Nat) : Store μ :=
  (joined s results).1.note (rows results number)

/-- What a successful commit reports. -/
def summary (s : Store μ) (results : List (Completion μ)) (number batchSize : Nat) :
    CommitSummary :=
  let nodes := (folded s results).nodes.values
  let live := (edges results).filter (written s results).holdsEnds
  { nodesWritten := nodes.length
    edgesDropped := ((edges results).filter (!(written s results).holdsEnds ·)).length
    edgesCreated := (joined s results).2
    runsRecorded := (rows results number).length
    batchesCommitted := (batches batchSize nodes).length + (batches batchSize live).length
    targetsMissing := (folded s results).missing
    idleRuns := ((results.mergeSort before).filter (·.findings.isEmpty)).length }

/-- Whether every result of a pass is about a node that is stored once the nodes are written. -/
def grounded (s : Store μ) (results : List (Completion μ)) : Bool :=
  (rows results 0).all fun row => (written s results).contains row.pair.node

/-- The answer of a commit.  Only the ledger can be refused. -/
def answer (s : Store μ) (results : List (Completion μ)) (number batchSize : Nat) :
    Result CommitSummary :=
  if grounded s results then .ok (summary s results number batchSize)
  else .error Store.danglingRowError

/-- The store that a commit leaves: if the ledger is refused, the nodes and edges are written
already. -/
def left (s : Store μ) (results : List (Completion μ)) (number : Nat) : Store μ :=
  if grounded s results then committed s results number else (joined s results).1

theorem of_answer_eq_ok {s : Store μ} {results : List (Completion μ)} {number batchSize : Nat}
    {c : CommitSummary} (h : answer s results number batchSize = .ok c) :
    grounded s results = true ∧ summary s results number batchSize = c := by
  rw [answer] at h
  split at h
  · next hgrounded => exact ⟨hgrounded, Except.ok.inj h⟩
  · cases h

/-- Without results a commit changes nothing. -/
theorem committed_nil (s : Store μ) (number : Nat) : committed s [] number = s := by
  rw [committed, joined, written, folded, rows, edges, List.mergeSort_nil]
  rfl

/-- Without results a commit has nothing to report. -/
theorem summary_nil (s : Store μ) (number batchSize : Nat) : summary s [] number batchSize = {} := by
  have hedges : edges ([] : List (Completion μ)) = [] := by
    rw [edges, List.mergeSort_nil]
    rfl
  have hnodes : (folded s []).nodes.values = [] := by
    rw [folded, List.mergeSort_nil]
    rfl
  have hmissing : (folded s []).missing = 0 := by
    rw [folded, List.mergeSort_nil]
    rfl
  have hbatches : ∀ {α : Type}, batches batchSize ([] : List α) = [] := by
    intro α
    rw [batches]
  rw [summary, joined, hedges, hnodes, hmissing, rows, List.mergeSort_nil, List.filter_nil, hbatches,
    hbatches]
  rfl

theorem record_joined (s : Store μ) (results : List (Completion μ)) (number : Nat) :
    (joined s results).1.record (rows results number) =
      if grounded s results then .ok (committed s results number)
      else .error Store.danglingRowError := by
  have hgrounded : (rows results number).all
      (fun row => (joined s results).1.contains row.pair.node) = grounded s results := by
    rw [grounded, rows, rows, List.all_map, List.all_map]
    refine congrArg _ (funext fun c => ?_)
    exact Store.contains_addEdges (written s results) _ c.pair.node
  rw [Store.record_eq, hgrounded]
  rfl

/-- **A commit computes its meaning.** -/
theorem computes_pass (results : List (Completion μ)) (number batchSize : Nat) (s : Store μ)
    (b : Bool) :
    Computes (pass results number batchSize) ⟨s, b⟩ (answer s results number batchSize)
      ⟨left s results number, b⟩ := by
  refine (Computes.foldlM_read (foldResult s) ?_ (results.mergeSort before) {}).bind ?_
  · intro st c
    exact computes_stage st c ⟨s, b⟩
  refine (computes_writeNodes _ s b).bind ?_
  rw [flatten_batches]
  refine (computes_liveEdges _ _).bind ?_
  refine (computes_writeEdges _ _ b ?_).bind ?_
  · intro part hpart e he
    have hmem : e ∈ (batches batchSize _).flatten := List.mem_flatten.mpr ⟨part, hpart, he⟩
    rw [flatten_batches] at hmem
    exact (List.mem_filter.mp hmem).2
  rw [flatten_batches, answer, left]
  have hrec := record_joined s results number
  cases hg : grounded s results with
  | false =>
    rw [hg] at hrec
    exact Computes.bind_error (Computes.write_error (congrArg (Except.map _) hrec))
  | true =>
    rw [hg] at hrec
    exact (Computes.write (congrArg (Except.map _) hrec)).bind (Computes.pure _ _)

/-- What a commit that goes through reports and leaves. -/
theorem of_returns_pass {results : List (Completion μ)} {number batchSize : Nat} {σ σ' : State μ}
    {c : CommitSummary} (h : Returns (pass results number batchSize) σ c σ') :
    c = summary σ.store results number batchSize ∧
      σ'.store = committed σ.store results number := by
  obtain ⟨hanswer, hcore⟩ :=
    (computes_pass results number batchSize σ.store σ.cancelled).of_returns rfl h
  obtain ⟨hgrounded, hsummary⟩ := of_answer_eq_ok hanswer
  refine ⟨hsummary.symm, (congrArg Core.store hcore).trans ?_⟩
  rw [left, hgrounded]
  rfl

/-! ## 6. Nodes after a commit -/

/-- Fold one write. -/
def foldWrite (s : Store μ) (staged : Staging μ) : Write μ → Staging μ
  | .observe seen => foldObserved s staged seen
  | .patch target changes => foldPatch s staged (target, changes)

theorem folded_eq_foldl (s : Store μ) (results : List (Completion μ)) :
    folded s results = (writes results).foldl (foldWrite s) {} := by
  rw [folded, writes, List.foldl_flatMap]
  refine List.foldl_ext _ _ _ fun staged c _ => ?_
  rw [foldResult, Completion.writes, List.foldl_append, List.foldl_map, List.foldl_map]
  rfl

/-- A write folds the node it is about, from how that node stands, and no other. -/
theorem get?_foldWrite (s : Store μ) (staged : Staging μ) (w : Write μ) (id : String) :
    (foldWrite s staged w).nodes.get? id =
      if w.target = id then Write.onto id (standing s staged id) w else staged.nodes.get? id := by
  cases w with
  | observe seen =>
    rw [foldWrite, foldObserved, Write.target, Write.onto]
    by_cases hid : seen.id = id
    · subst hid
      rw [if_pos rfl, if_pos rfl]
      cases standing s staged seen.id with
      | some n => simp
      | none => simp
    · rw [if_neg hid]
      cases standing s staged seen.id with
      | some n => exact Table.get?_insert_of_ne _ _ (Ne.symm hid)
      | none => exact Table.get?_insert_of_ne _ _ (Ne.symm hid)
  | patch target changes =>
    rw [foldWrite, foldPatch, Write.target, Write.onto]
    by_cases hid : target = id
    · subst hid
      rw [if_pos rfl, if_pos rfl]
      cases hst : standing s staged target with
      | some n => simp
      | none => exact (Option.or_eq_none_iff.mp hst).1
    · rw [if_neg hid]
      cases standing s staged target with
      | some n => exact Table.get?_insert_of_ne _ _ (Ne.symm hid)
      | none => rfl

theorem standing_foldWrite (s : Store μ) (staged : Staging μ) (w : Write μ) (id : String) :
    standing s (foldWrite s staged w) id = Write.onto id (standing s staged id) w := by
  rw [standing, get?_foldWrite]
  split
  · -- a node that is stored stands, and a write does not make it go
    cases honto : Write.onto id (standing s staged id) w with
    | some n => rfl
    | none =>
      have hnone := Write.eq_none_of_onto honto
      exact (Option.or_eq_none_iff.mp hnone).2
  · next hid => exact (Write.onto_of_ne hid).symm

theorem standing_foldl (s : Store μ) (ws : List (Write μ)) (staged : Staging μ) (id : String) :
    standing s (ws.foldl (foldWrite s) staged) id =
      ws.foldl (Write.onto id) (standing s staged id) := by
  induction ws generalizing staged with
  | nil => rfl
  | cons w rest ih => rw [List.foldl_cons, ih, standing_foldWrite, List.foldl_cons]

/-- **Folding agrees with the view**: every node stands as its writes leave it. -/
theorem standing_folded (s : Store μ) (results : List (Completion μ)) (id : String) :
    standing s (folded s results) id = viewed s results id := by
  rw [folded_eq_foldl, viewed]
  exact standing_foldl s (writes results) {} id

/-- **Folding is local**: what becomes of a node depends on no other node of the store. -/
theorem get?_folded_congr {s t : Store μ} (results : List (Completion μ)) {id : String}
    (h : s.node? id = t.node? id) :
    (folded s results).nodes.get? id = (folded t results).nodes.get? id := by
  rw [folded_eq_foldl, folded_eq_foldl]
  have hfold : ∀ (ws : List (Write μ)) (staged staged' : Staging μ),
      staged.nodes.get? id = staged'.nodes.get? id →
      (ws.foldl (foldWrite s) staged).nodes.get? id =
        (ws.foldl (foldWrite t) staged').nodes.get? id := by
    intro ws
    induction ws with
    | nil => exact fun _ _ hst => hst
    | cons w rest ih =>
      intro staged staged' hst
      refine ih _ _ ?_
      rw [get?_foldWrite, get?_foldWrite, standing, standing, h, hst]
  exact hfold (writes results) {} {} rfl

/-- **Which nodes are folded**: those that a write is about, if they stand at the end.  A patch of a
node that does not stand is dropped. -/
theorem contains_folded (s : Store μ) (results : List (Completion μ)) (id : String) :
    (folded s results).nodes.contains id = true ↔
      (∃ w ∈ writes results, w.target = id) ∧ (viewed s results id).isSome = true := by
  rw [← standing_folded, folded_eq_foldl]
  -- the last write decides, if it is about the node
  induction writes results using List.reverseRecOn with
  | nil =>
    constructor
    · intro h
      cases h
    · rintro ⟨⟨w, hw, -⟩, -⟩
      cases hw
  | append_singleton ws w ih =>
    rw [List.foldl_append, List.foldl_cons, List.foldl_nil, standing_foldWrite, Table.contains,
      get?_foldWrite]
    by_cases hid : w.target = id
    · rw [if_pos hid]
      exact ⟨fun h => ⟨⟨w, List.mem_append_right ws List.mem_cons_self, hid⟩, h⟩, And.right⟩
    · rw [if_neg hid, Write.onto_of_ne hid, ← Table.contains, ih]
      simp [hid, or_and_right, exists_or]

/-- What holds of the stored node and is kept by every write holds of the node at the end. -/
theorem viewed_induction {s : Store μ} {results : List (Completion μ)} {id : String}
    (P : Option (Node μ) → Prop) (hstart : P (s.node? id))
    (hstep : ∀ w ∈ writes results, ∀ o, P o → P (Write.onto id o w)) :
    P (viewed s results id) := by
  rw [viewed]
  generalize s.node? id = o at hstart
  generalize writes results = ws at hstep
  induction ws generalizing o with
  | nil => exact hstart
  | cons w rest ih =>
    rw [List.foldl_cons]
    exact ih _ (hstep w List.mem_cons_self o hstart)
      fun w' hw' => hstep w' (List.mem_cons_of_mem _ hw')

theorem id_viewed {s : Store μ} (hs : s.Keyed) (results : List (Completion μ)) {id : String}
    {n : Node μ} (h : viewed s results id = some n) : n.id = id := by
  refine viewed_induction (fun o => ∀ n, o = some n → n.id = id) (hs.own id) ?_ n h
  intro w _ o ho m hm
  cases w with
  | observe seen =>
    rw [Write.onto] at hm
    split at hm
    · next hid =>
      cases o with
      | some n' =>
        cases hm
        exact ho n' rfl
      | none =>
        cases hm
        exact hid
    · exact ho m hm
  | patch target changes =>
    rw [Write.onto] at hm
    split at hm
    · obtain ⟨n', hn', rfl⟩ := Option.map_eq_some_iff.mp hm
      rw [Patch.id_apply]
      exact ho n' hn'
    · exact ho m hm

theorem isSome_viewed {s : Store μ} (results : List (Completion μ)) {id : String}
    (h : s.contains id = true) : (viewed s results id).isSome = true := by
  rw [Store.contains_eq_isSome] at h
  refine viewed_induction (fun o => o.isSome = true) h fun w _ o ho => ?_
  rw [Option.isSome_iff_ne_none] at ho ⊢
  exact fun hnone => ho (Write.eq_none_of_onto hnone)

/-- Folded nodes stand under their own ids. -/
theorem id_folded {s : Store μ} (hs : s.Keyed) (results : List (Completion μ)) {id : String}
    {n : Node μ} (h : (folded s results).nodes.get? id = some n) : n.id = id := by
  refine id_viewed hs results (n := n) ?_
  rw [← standing_folded, standing, h]
  rfl

theorem node?_written {s : Store μ} (hs : s.Keyed) (results : List (Completion μ)) (id : String) :
    (written s results).node? id =
      (((folded s results).nodes.get? id).map Node.stored).or (s.node? id) :=
  Store.node?_mergeNodes_values s _ (fun _ _ => id_folded hs results) id

/-- What is written of a node depends on no other node of the store. -/
theorem node?_written_congr {s t : Store μ} (hs : s.Keyed) (ht : t.Keyed)
    (results : List (Completion μ)) {id : String} (h : s.node? id = t.node? id) :
    (written s results).node? id = (written t results).node? id := by
  rw [node?_written hs, node?_written ht, get?_folded_congr results h, h]

/-- **A node after a commit is the node as its writes leave it, stored or untouched.** -/
theorem node?_written_cases {s : Store μ} (hs : s.Keyed) (results : List (Completion μ))
    (id : String) :
    (written s results).node? id = viewed s results id ∨
      (written s results).node? id = (viewed s results id).map Node.stored := by
  rw [node?_written hs, ← standing_folded, standing]
  cases (folded s results).nodes.get? id with
  | none => exact .inl rfl
  | some n => exact .inr rfl

/-- A node that a write is about is the node as its writes leave it, stored. -/
theorem node?_written_of_target {s : Store μ} (hs : s.Keyed) {results : List (Completion μ)}
    {id : String} (h : ∃ w ∈ writes results, w.target = id) :
    (written s results).node? id = (viewed s results id).map Node.stored := by
  rw [node?_written hs]
  cases hfolded : (folded s results).nodes.get? id with
  | some n =>
    rw [← standing_folded, standing, hfolded]
    rfl
  | none =>
    -- it does not stand at the end, so it was not stored either
    have hnone : viewed s results id = none := by
      refine Option.not_isSome_iff_eq_none.mp fun hsome => ?_
      have hcontains := (contains_folded s results id).mpr ⟨h, hsome⟩
      rw [Table.contains, hfolded] at hcontains
      cases hcontains
    rw [hnone]
    rw [← standing_folded, standing, hfolded] at hnone
    exact hnone

/-- A node that no write is about is left alone. -/
theorem node?_written_of_forall_ne {s : Store μ} (hs : s.Keyed) {results : List (Completion μ)}
    {id : String} (h : ∀ w ∈ writes results, w.target ≠ id) :
    (written s results).node? id = s.node? id := by
  have hfolded : (folded s results).nodes.get? id = none := by
    refine Table.contains_eq_false_iff.mp (Bool.eq_false_iff.mpr fun hcontains => ?_)
    obtain ⟨⟨w, hw, hid⟩, -⟩ := (contains_folded s results id).mp hcontains
    exact h w hw hid
  rw [node?_written hs, hfolded]
  rfl

@[simp] theorem node?_committed (s : Store μ) (results : List (Completion μ)) (number : Nat)
    (id : String) : (committed s results number).node? id = (written s results).node? id :=
  Store.node?_addEdges (written s results) _ id

theorem contains_committed {s : Store μ} (hs : s.Keyed) (results : List (Completion μ))
    (number : Nat) (id : String) :
    (committed s results number).contains id = (viewed s results id).isSome := by
  rw [Store.contains_eq_isSome, node?_committed]
  rcases node?_written_cases hs results id with h | h
  · rw [h]
  · rw [h, Option.isSome_map]

/-- Nodes are never removed. -/
theorem contains_written_of_contains {s : Store μ} (hs : s.Keyed) (results : List (Completion μ))
    {id : String} (h : s.contains id = true) : (written s results).contains id = true := by
  have hviewed := contains_committed hs results 0 id
  rw [isSome_viewed results h] at hviewed
  rw [Store.contains_iff] at hviewed ⊢
  obtain ⟨n, hn⟩ := hviewed
  exact ⟨n, (node?_committed s results 0 id).symm.trans hn⟩

/-- Results about stored nodes can be recorded. -/
theorem grounded_of_contains {s : Store μ} (hs : s.Keyed) {results : List (Completion μ)}
    (h : ∀ c ∈ results, s.contains c.pair.node = true) : grounded s results = true := by
  rw [grounded, rows, List.all_map, List.all_eq_true]
  intro c hc
  exact contains_written_of_contains hs _ (h c ((List.mergeSort_perm _ _).mem_iff.mp hc))

theorem keyed_committed {s : Store μ} (hs : s.Keyed) (results : List (Completion μ))
    (number : Nat) : (committed s results number).Keyed :=
  ((hs.mergeNodes _).addEdges _).note _

theorem finiteMetrics_committed {s : Store μ} (hs : s.FiniteMetrics)
    (results : List (Completion μ)) (number : Nat) :
    (committed s results number).FiniteMetrics := by
  intro id n hn
  rw [node?_committed] at hn
  exact hs.mergeNodes _ id n hn

/-! ## 7. The ledger after a commit -/

theorem ledger_joined (s : Store μ) (results : List (Completion μ)) :
    (joined s results).1.ledger = s.ledger := by
  rw [joined, Store.ledger_addEdges, written, Store.ledger_mergeNodes]

/-- **The ledger gains exactly the pairs of the results.** -/
theorem contains_ledger_committed (s : Store μ) (results : List (Completion μ)) (number : Nat)
    (pair : Pair) :
    (committed s results number).ledger.contains pair = true ↔
      pair ∈ results.map Completion.pair ∨ s.ledger.contains pair = true := by
  have hrows : (rows results number).map LedgerRow.pair =
      (results.mergeSort before).map Completion.pair := by
    rw [rows, List.map_map]
    rfl
  rw [committed, Store.contains_ledger_note, ledger_joined, hrows,
    ((List.mergeSort_perm results before).map Completion.pair).mem_iff]

end Whole

end Commit

end FactGraph
