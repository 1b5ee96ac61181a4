import FactGraph.Proofs.Failures
import FactGraph.Proofs.StoreIntegrity

/-!
# Batches

A batch is written item by item, and an item may be refused after others before it have been taken:
an edge that lacks one of its ends, a ledger row that lacks its node.  Then the whole batch is.

* An edge is refused for what is stored BEFORE the batch, since edges bring no nodes.  So the edge
  that a refused batch is blamed on is the first one that lacks an end, wherever it stands
  (`Store.createEdges_of_firstDangling`, `Store.holdsEnds_or_firstDangling`).
* A call that fails, for whatever reason, has done nothing, and one that answers has done everything
  (`Session.Atomic`).

`batches_all_or_nothing` says both of the three batches that a store takes.
-/

namespace FactGraph

open Session

/-! ## 1. The edge that a batch is refused for -/

namespace Store

variable {μ : Type}

/-- `e` is the first edge of the batch without one of its ends, and `missing` is the first end it
lacks. -/
structure FirstDangling (s : Store μ) (batch : List Edge) (e : Edge) (missing : String) : Prop where
  /-- Every edge before it has both ends. -/
  first : ∃ before later, batch = before ++ e :: later ∧
    ∀ e' ∈ before, s.contains e'.source = true ∧ s.contains e'.target = true
  /-- The source is looked at before the target. -/
  lacks : (s.contains e.source = false ∧ missing = e.source) ∨
    (s.contains e.source = true ∧ s.contains e.target = false ∧ missing = e.target)

theorem missingEnd?_eq_none {s : Store μ} {e : Edge} (hsource : s.contains e.source = true)
    (htarget : s.contains e.target = true) : s.missingEnd? e = none := by
  simp [missingEnd?, hsource, htarget]

theorem missingEnd?_eq_some {s : Store μ} {batch : List Edge} {e : Edge} {missing : String}
    (h : s.FirstDangling batch e missing) : s.missingEnd? e = some missing := by
  rcases h.lacks with ⟨hsource, rfl⟩ | ⟨hsource, htarget, rfl⟩
  · simp [missingEnd?, hsource]
  · simp [missingEnd?, hsource, htarget]

/-- **A batch is refused for its first edge without an end**, after the edges before it have been
written. -/
theorem createEdges_of_firstDangling {s : Store μ} {batch : List Edge} {e : Edge} {missing : String}
    (h : s.FirstDangling batch e missing) :
    s.createEdges batch = .error (missingEndError e missing) := by
  obtain ⟨before, later, rfl, hbefore⟩ := h.first
  -- the edges before `e` are written one by one, and none of them changes what is stored as a node
  induction before generalizing s with
  | nil => rw [List.nil_append, createEdges, missingEnd?_eq_some h]
  | cons e' rest ih =>
    have hends := hbefore e' List.mem_cons_self
    have hrest : ∀ e'' ∈ rest, (s.addEdge e').1.contains e''.source = true ∧
        (s.addEdge e').1.contains e''.target = true := by
      intro e'' he''
      simpa only [contains_addEdge] using hbefore e'' (List.mem_cons_of_mem _ he'')
    have hnext : (s.addEdge e').1.FirstDangling (rest ++ e :: later) e missing := by
      refine ⟨⟨rest, later, rfl, hrest⟩, ?_⟩
      simpa only [contains_addEdge] using h.lacks
    rw [List.cons_append, createEdges, missingEnd?_eq_none hends.1 hends.2]
    dsimp only
    rw [ih hrest hnext]
    rfl

/-- Either every edge of a batch has its ends, or one of them is the first that has not. -/
theorem holdsEnds_or_firstDangling (s : Store μ) (batch : List Edge) :
    (∀ e ∈ batch, s.holdsEnds e = true) ∨ ∃ e missing, s.FirstDangling batch e missing := by
  induction batch with
  | nil => exact .inl fun e he => by cases he
  | cons e rest ih =>
    cases hsource : s.contains e.source with
    | false => exact .inr ⟨e, e.source, ⟨[], rest, rfl, by simp⟩, .inl ⟨hsource, rfl⟩⟩
    | true =>
      cases htarget : s.contains e.target with
      | false =>
        exact .inr ⟨e, e.target, ⟨[], rest, rfl, by simp⟩, .inr ⟨hsource, htarget, rfl⟩⟩
      | true =>
        rcases ih with hall | ⟨e', missing, ⟨before, later, rfl, hbefore⟩, hlacks⟩
        · refine .inl fun e' he' => ?_
          rcases List.mem_cons.mp he' with rfl | he'
          · simp [holdsEnds, hsource, htarget]
          · exact hall e' he'
        · refine .inr ⟨e', missing, ⟨e :: before, later, rfl, fun e'' he'' => ?_⟩, hlacks⟩
          rcases List.mem_cons.mp he'' with rfl | he''
          · exact ⟨hsource, htarget⟩
          · exact hbefore e'' he''

theorem createEdges_eq_error_iff (s : Store μ) (batch : List Edge) (err : Error) :
    s.createEdges batch = .error err ↔
      ∃ e missing, s.FirstDangling batch e missing ∧ err = missingEndError e missing := by
  constructor
  · intro herr
    rcases s.holdsEnds_or_firstDangling batch with hall | ⟨e, missing, h⟩
    · rw [createEdges_eq s hall] at herr
      cases herr
    · rw [createEdges_of_firstDangling h] at herr
      cases herr
      exact ⟨e, missing, h, rfl⟩
  · rintro ⟨e, missing, h, rfl⟩
    exact createEdges_of_firstDangling h

/-- A batch is written if and only if every edge of it has its ends. -/
theorem createEdges_eq_ok_iff (s : Store μ) (batch : List Edge) (r : Store μ × Nat) :
    s.createEdges batch = .ok r ↔ (∀ e ∈ batch, s.holdsEnds e = true) ∧ r = s.addEdges batch := by
  constructor
  · intro hok
    rcases s.holdsEnds_or_firstDangling batch with hall | ⟨e, missing, h⟩
    · rw [createEdges_eq s hall, Except.ok.injEq] at hok
      exact ⟨hall, hok.symm⟩
    · rw [createEdges_of_firstDangling h] at hok
      cases hok
  · rintro ⟨hall, rfl⟩
    exact createEdges_eq s hall

theorem map_createEdges_eq_ok_iff (s : Store μ) (batch : List Edge) (s' : Store μ) :
    (s.createEdges batch).map (·.1) = .ok s' ↔
      (∀ e ∈ batch, s.holdsEnds e = true) ∧ s' = (s.addEdges batch).1 := by
  constructor
  · intro hok
    cases hr : s.createEdges batch with
    | error err =>
      rw [hr] at hok
      cases hok
    | ok r =>
      rw [hr] at hok
      cases hok
      obtain ⟨hall, rfl⟩ := (s.createEdges_eq_ok_iff batch r).mp hr
      exact ⟨hall, rfl⟩
  · rintro ⟨hall, rfl⟩
    rw [createEdges_eq s hall]
    rfl

theorem exists_firstDangling_iff (s : Store μ) (batch : List Edge) :
    (∃ e missing, s.FirstDangling batch e missing) ↔
      ∃ e ∈ batch, s.contains e.source = false ∨ s.contains e.target = false := by
  constructor
  · rintro ⟨e, missing, ⟨before, later, rfl, -⟩, hlacks⟩
    refine ⟨e, by simp, ?_⟩
    rcases hlacks with ⟨hsource, -⟩ | ⟨-, htarget, -⟩
    · exact .inl hsource
    · exact .inr htarget
  · rintro ⟨e, he, hlacks⟩
    rcases s.holdsEnds_or_firstDangling batch with hall | hfirst
    · have hends := hall e he
      rw [holdsEnds, Bool.and_eq_true] at hends
      rcases hlacks with hsource | htarget
      · simp [hends.1] at hsource
      · simp [hends.2] at htarget
    · exact hfirst

/-! ## 2. The row that a batch is refused for -/

theorem eq_note_of_record {s s' : Store μ} {rows : List LedgerRow} (h : s.record rows = .ok s') :
    s' = s.note rows := by
  rw [record_eq] at h
  split_ifs at h
  cases h
  rfl

theorem exists_record_eq_error_iff (s : Store μ) (rows : List LedgerRow) :
    (∃ err, s.record rows = .error err) ↔ ∃ row ∈ rows, s.contains row.pair.node = false := by
  rw [record_eq]
  constructor
  · rintro ⟨err, herr⟩
    split_ifs at herr with hall
    simpa using hall
  · rintro ⟨row, hrow, hnode⟩
    have hall : ¬ rows.all (fun row => s.contains row.pair.node) = true := by
      intro hall
      rw [List.all_eq_true.mp hall row hrow] at hnode
      cases hnode
    exact ⟨danglingRowError, if_neg hall⟩

end Store

/-! ## 3. Calls -/

namespace Session

variable {μ α : Type}

/-- **All or nothing**: a call that answers has done its work on the store, and one that fails has
left the store as it was. -/
structure Atomic (m : Session μ α) (work : Store μ → Store μ) : Prop where
  done : ∀ {σ : State μ} {a : α} {σ' : State μ}, Returns m σ a σ' → σ'.store = work σ.store
  undone : ∀ {σ : State μ} {e : Error} {σ' : State μ}, Fails m σ e σ' → σ'.store = σ.store

/-- A write is atomic, whatever storage lets fail, if what it makes of a store depends on the store
alone. -/
theorem Atomic.write {c : Call} {attempt : Store μ → Result (Store μ × α)} {work : Store μ → Store μ}
    (h : ∀ s s' a, attempt s = .ok (s', a) → s' = work s) : Atomic (write c attempt) work where
  done {σ a σ'} hret := by
    rw [Returns, run_write] at hret
    cases hfault : σ.faults c (countOf σ.counts c + 1) [] with
    | some e => rw [hfault] at hret; cases hret
    | none =>
      cases hattempt : attempt σ.store with
      | error e => rw [hfault, hattempt] at hret; cases hret
      | ok r =>
        rw [hfault, hattempt] at hret
        cases hret
        exact h σ.store r.1 r.2 hattempt
  undone {σ e σ'} hfail := by
    rw [Fails, run_write] at hfail
    cases hfault : σ.faults c (countOf σ.counts c + 1) [] with
    | some e' => rw [hfault] at hfail; cases hfail; rfl
    | none =>
      cases hattempt : attempt σ.store with
      | error e' => rw [hfault, hattempt] at hfail; cases hfail; rfl
      | ok r => rw [hfault, hattempt] at hfail; cases hfail

/-- Where storage does not fail, a write fails if and only if its work is refused. -/
theorem exists_fails_write_iff {c : Call} {attempt : Store μ → Result (Store μ × α)} {σ : State μ}
    (hrel : σ.Reliable) (err : Error) :
    (∃ σ', Fails (write c attempt) σ err σ') ↔ attempt σ.store = .error err := by
  constructor
  · rintro ⟨σ', hfail⟩
    rw [Fails, run_write, hrel] at hfail
    cases hattempt : attempt σ.store with
    | error e => rw [hattempt] at hfail; cases hfail; rfl
    | ok r => rw [hattempt] at hfail; cases hfail
  · intro hattempt
    refine ⟨{ σ with counts := bump σ.counts c }, ?_⟩
    rw [Fails, run_write, hrel, hattempt]

theorem atomic_createEdges (batch : List Edge) :
    Atomic (Session.createEdges batch : Session μ Nat) fun s => (s.addEdges batch).1 := by
  refine Atomic.write fun s s' created hs' => ?_
  rw [← ((s.createEdges_eq_ok_iff batch _).mp hs').2]

theorem atomic_recordRuns (rows : List LedgerRow) :
    Atomic (recordRuns rows : Session μ Nat) fun s => s.note rows := by
  refine Atomic.write fun s s' count hs' => ?_
  rw [Store.record_eq] at hs'
  split_ifs at hs'
  · simp only [Except.map, Except.ok.injEq, Prod.mk.injEq] at hs'
    exact hs'.1.symm
  · cases hs'

theorem atomic_mergeNodes [Measure μ] (batch : List (Node μ)) :
    Atomic (Session.mergeNodes batch) fun s => s.mergeNodes batch := by
  refine Atomic.write fun s s' count hs' => ?_
  simp only [Except.ok.injEq, Prod.mk.injEq] at hs'
  exact hs'.1.symm

end Session

/-! ## 4. The three batches -/

variable {μ : Type} [Measure μ]

/-- **A batch is written as a whole or not at all, and refused for good reason only.**  Over any
store with a history, and storage that does not fail by itself:

* edges are refused if and only if one of them lacks an end, with an error that names the first such
  edge and the first end it lacks;
* ledger rows are refused if and only if one of them lacks its node;
* nodes are never refused.

Whether refused or failed, none of the three changes the store, and each that answers has written
everything. -/
theorem batches_all_or_nothing {history : List (Store.Attempt μ)} {σ : State μ}
    (hσ : σ.store = Store.built history) (hrel : σ.Reliable) :
    (∀ batch : List Edge,
      ((∃ err σ', Fails (Session.createEdges batch) σ err σ') ↔
        ∃ e ∈ batch, (Store.built history).contains e.source = false ∨
          (Store.built history).contains e.target = false) ∧
      (∀ err, (∃ σ', Fails (Session.createEdges batch) σ err σ') ↔
        ∃ e missing, (Store.built history).FirstDangling batch e missing ∧
          err = Store.missingEndError e missing) ∧
      Atomic (Session.createEdges batch : Session μ Nat) fun s => (s.addEdges batch).1) ∧
    (∀ rows : List LedgerRow,
      ((∃ err σ', Fails (recordRuns rows) σ err σ') ↔
        ∃ row ∈ rows, (Store.built history).contains row.pair.node = false) ∧
      Atomic (recordRuns rows : Session μ Nat) fun s => s.note rows) ∧
    (∀ batch : List (Node μ),
      (∃ σ', Returns (Session.mergeNodes batch) σ batch.length σ') ∧
      Atomic (Session.mergeNodes batch) fun s => s.mergeNodes batch) := by
  have hedges : ∀ (batch : List Edge) (err : Error),
      (∃ σ', Fails (Session.createEdges batch) σ err σ') ↔
        ∃ e missing, (Store.built history).FirstDangling batch e missing ∧
          err = Store.missingEndError e missing := by
    intro batch err
    rw [← hσ, ← Store.createEdges_eq_error_iff]
    exact exists_fails_write_iff hrel err
  refine ⟨fun batch => ⟨?_, hedges batch, atomic_createEdges batch⟩,
    fun rows => ⟨?_, atomic_recordRuns rows⟩, fun batch => ⟨?_, atomic_mergeNodes batch⟩⟩
  · rw [← Store.exists_firstDangling_iff]
    constructor
    · rintro ⟨err, hfails⟩
      obtain ⟨e, missing, h, -⟩ := (hedges batch err).mp hfails
      exact ⟨e, missing, h⟩
    · rintro ⟨e, missing, h⟩
      exact ⟨_, (hedges batch _).mpr ⟨e, missing, h, rfl⟩⟩
  · rw [← hσ, ← Store.exists_record_eq_error_iff]
    refine exists_congr fun err => (exists_fails_write_iff hrel err).trans ?_
    cases σ.store.record rows <;> simp [Except.map]
  · refine ⟨{ σ with counts := bump σ.counts .mergeNodes, store := σ.store.mergeNodes batch }, ?_⟩
    rw [Returns, Session.mergeNodes, run_write, hrel]

/-- A history that stores two nodes. -/
def Store.twoFiles : List (Store.Attempt Float) :=
  [{ change := .mergeNodes [Node.new "a" "file", Node.new "b" "file"] }]

/-- The second edge lacks its target and the third both ends: the second is named, and the first,
which could have been written, is not there.  The second ledger row lacks its node, and the first is
not there either.  Nodes may repeat an id. -/
theorem batches_all_or_nothing_two_files :
    (∃ σ', Fails (Session.createEdges
        [⟨"a", "b", "near", none⟩, ⟨"a", "c", "near", none⟩, ⟨"d", "e", "near", none⟩])
        { store := Store.built Store.twoFiles }
        (Store.missingEndError ⟨"a", "c", "near", none⟩ "c") σ' ∧
      σ'.store = Store.built Store.twoFiles) ∧
    (∃ err σ', Fails (recordRuns
        [⟨⟨"lines", "a"⟩, ⟨.ran, 1, none⟩⟩, ⟨⟨"lines", "c"⟩, ⟨.ran, 1, none⟩⟩])
        { store := Store.built Store.twoFiles } err σ' ∧
      σ'.store = Store.built Store.twoFiles) ∧
    ∃ σ', Returns (Session.mergeNodes [Node.new "c" "file", Node.new "c" "directory"])
      { store := Store.built Store.twoFiles } 2 σ' := by
  obtain ⟨hedges, hrows, hnodes⟩ :=
    batches_all_or_nothing (σ := { store := Store.built Store.twoFiles }) rfl fun _ _ _ => rfl
  refine ⟨?_, ?_, (hnodes _).1⟩
  · obtain ⟨-, herr, hatomic⟩ :=
      hedges [⟨"a", "b", "near", none⟩, ⟨"a", "c", "near", none⟩, ⟨"d", "e", "near", none⟩]
    obtain ⟨σ', hfails⟩ := (herr _).mpr ⟨⟨"a", "c", "near", none⟩, "c",
      ⟨⟨[⟨"a", "b", "near", none⟩], [⟨"d", "e", "near", none⟩], rfl, by
        simp only [List.mem_singleton, forall_eq]
        decide +kernel⟩, .inr (by decide +kernel)⟩, rfl⟩
    exact ⟨σ', hfails, hatomic.undone hfails⟩
  · obtain ⟨herr, hatomic⟩ :=
      hrows [⟨⟨"lines", "a"⟩, ⟨.ran, 1, none⟩⟩, ⟨⟨"lines", "c"⟩, ⟨.ran, 1, none⟩⟩]
    obtain ⟨err, σ', hfails⟩ :=
      herr.mpr ⟨⟨⟨"lines", "c"⟩, ⟨.ran, 1, none⟩⟩, by simp, by decide +kernel⟩
    exact ⟨err, σ', hfails, hatomic.undone hfails⟩

end FactGraph
