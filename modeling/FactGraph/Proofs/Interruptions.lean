import FactGraph.Proofs.Failures
import FactGraph.Proofs.Runs

/-!
# Commits and runs that are cut short

A commit writes nodes, then edges, then the ledger, each in batches, and a batch is written as a whole
or not at all.  So what a commit leaves when it is cut short is a first part of that sequence
(`Commit.CutShort`), whatever the batches are and whichever call fails (`Commit.withstands_pass`).
Nothing of the ledger is in it, and each node is as it was or as the whole commit leaves it
(`Commit.CutShort.exists_split`).

A run is cut short in one of its commits or between two of them.  What it leaves is a number of whole
passes and a commit that was cut short, perhaps before it began (`Run.Interrupted`), and the number is
that of the writes of the ledger that storage has taken (`Run.interrupted_of_fails`).
-/

namespace FactGraph

open Session

/-! ## 1. Commits that are cut short -/

namespace Commit

variable {μ : Type}

theorem readOnly_current (staged : Staging μ) (id : String) : ReadOnly (current staged id) := by
  rw [current]
  cases staged.nodes.get? id with
  | some n => exact ReadOnly.pure _
  | none => exact ReadOnly.findNode _

theorem readOnly_stageObserved (staged : Staging μ) (seen : Node μ) :
    ReadOnly (stageObserved staged seen) := by
  refine (readOnly_current staged seen.id).bind fun found => ?_
  cases found with
  | some n => exact ReadOnly.pure _
  | none => exact ReadOnly.pure _

theorem readOnly_stagePatch [Measure μ] (staged : Staging μ) (target : String × Patch μ) :
    ReadOnly (stagePatch staged target) := by
  refine (readOnly_current staged target.1).bind fun found => ?_
  cases found with
  | some n => exact ReadOnly.pure _
  | none => exact ReadOnly.pure _

theorem readOnly_stage [Measure μ] (staged : Staging μ) (c : Completion μ) :
    ReadOnly (stage staged c) :=
  (ReadOnly.foldlM readOnly_stageObserved _ _).bind fun _ => ReadOnly.foldlM readOnly_stagePatch _ _

theorem readOnly_isLive (e : Edge) : ReadOnly (isLive e : Session μ Bool) := by
  refine (ReadOnly.containsNode e.source).bind fun hasSource => ?_
  cases hasSource with
  | false => exact ReadOnly.pure false
  | true => exact ReadOnly.containsNode e.target

theorem readOnly_liveEdges (edges : List Edge) :
    ReadOnly (liveEdges edges : Session μ (List Edge × Nat)) := by
  refine (ReadOnly.foldlM (fun counted e => ?_) edges ([], 0)).bind fun _ => ReadOnly.pure _
  refine (readOnly_isLive e).bind fun live => ?_
  cases live with
  | false => exact ReadOnly.pure _
  | true => exact ReadOnly.pure _

/-- Batches are written up to the one that fails, and that one not at all. -/
theorem withstands_writeBatches {α : Type} {write : List α → Session μ Nat}
    {effect : Store μ → List α → Store μ × Nat} {P : Store μ → List α → Prop}
    (hwrite : Batchwise write effect P)
    (hcall : ∀ part (σ : State μ), P σ.store part →
      Withstands (write part) σ (fun _ k => k = 0) fun k κ => k = 0 ∧ κ = σ.core)
    (parts : List (List α)) (σ : State μ) (hparts : ∀ part ∈ parts, P σ.store part) :
    Withstands (writeBatches write parts) σ (fun _ k => k = 0) fun k κ =>
      k = 0 ∧ ∃ done, done <+: parts ∧ κ = ⟨(effect σ.store done.flatten).1, σ.cancelled⟩ := by
  suffices ∀ total, Withstands
      (parts.foldlM (fun total part => return total + (← write part)) total) σ (fun _ k => k = 0)
      fun k κ => k = 0 ∧
        ∃ done, done <+: parts ∧ κ = ⟨(effect σ.store done.flatten).1, σ.cancelled⟩ from this 0
  induction parts generalizing σ with
  | nil =>
    intro total
    exact Withstands.pure rfl
  | cons part rest ih =>
    intro total
    rw [List.foldlM_cons]
    have hpart : P σ.store part := hparts part List.mem_cons_self
    have hcomputes := hwrite.computes part σ.store σ.cancelled hpart
    have hone : Withstands (do return total + (← write part)) σ (fun _ k => k = 0)
        fun k κ => k = 0 ∧ κ = σ.core :=
      (hcall part σ hpart).bind hcomputes fun σ' _ => Withstands.pure rfl
    refine (hone.mono (fun _ _ h => h) ?_).bind
      (hcomputes.bind (Computes.pure (total + (effect σ.store part).2) _)) fun σ' hσ' => ?_
    · rintro k κ ⟨hk, rfl⟩
      refine ⟨hk, [], List.nil_prefix, ?_⟩
      rw [List.flatten_nil, hwrite.nil]
      rfl
    · have hstore : σ'.store = (effect σ.store part).1 := congrArg Core.store hσ'
      have hcancelled : σ'.cancelled = σ.cancelled := congrArg Core.cancelled hσ'
      have hrest : ∀ part' ∈ rest, P σ'.store part' := by
        intro part' hmem
        rw [hstore]
        exact hwrite.stable _ _ _ (hparts part' (List.mem_cons_of_mem _ hmem))
      refine (ih σ' hrest _).mono (fun _ _ h => h) ?_
      rintro k κ ⟨hk, done, hdone, rfl⟩
      refine ⟨hk, part :: done, (List.prefix_cons_inj part).mpr hdone, ?_⟩
      rw [List.flatten_cons, hwrite.append, hstore, hcancelled]

section Whole

variable [Measure μ]

/-- **What a commit may leave when it is cut short.**  It writes the nodes that it touches in the
order of their ids, then the edges, then the ledger, so it leaves the first of the nodes and nothing
else, or all nodes and the first of the edges. -/
inductive CutShort (s : Store μ) (results : List (Completion μ)) : Store μ → Prop
  | nodes (done rest : List (Node μ)) (h : (folded s results).nodes.values = done ++ rest) :
      CutShort s results (s.mergeNodes done)
  | edges (added : List Edge) (h : added <+: (edges results).filter (written s results).holdsEnds) :
      CutShort s results ((written s results).addEdges added).1

/-- A commit that has not begun is cut short too. -/
theorem CutShort.refl (s : Store μ) (results : List (Completion μ)) : CutShort s results s :=
  .nodes [] _ rfl

theorem flatten_prefix_of_batches {α : Type} {size : Nat} {xs : List α} {done : List (List α)}
    (h : done <+: batches size xs) : done.flatten <+: xs := by
  obtain ⟨rest, hrest⟩ := h
  refine ⟨rest.flatten, ?_⟩
  rw [← List.flatten_append, hrest, flatten_batches]

theorem withstands_writeNodes (size : Nat) (nodes : List (Node μ)) (σ : State μ) :
    Withstands (writeBatches Session.mergeNodes (batches size nodes)) σ (fun _ k => k = 0)
      fun k κ => k = 0 ∧ ∃ done rest, nodes = done ++ rest ∧ κ.store = σ.store.mergeNodes done := by
  refine (withstands_writeBatches batchwise_mergeNodes
    (fun part σ' _ => Withstands.write rfl ⟨rfl, rfl⟩) _ σ fun _ _ => trivial).mono
    (fun _ _ h => h) ?_
  rintro k κ ⟨hk, done, hdone, rfl⟩
  obtain ⟨rest, hrest⟩ := flatten_prefix_of_batches hdone
  exact ⟨hk, done.flatten, rest, hrest.symm, rfl⟩

omit [Measure μ] in
theorem withstands_writeEdges (size : Nat) (live : List Edge) (σ : State μ)
    (hlive : ∀ e ∈ live, σ.store.holdsEnds e = true) :
    Withstands (writeBatches Session.createEdges (batches size live)) σ (fun _ k => k = 0)
      fun k κ => k = 0 ∧ ∃ added, added <+: live ∧ κ.store = (σ.store.addEdges added).1 := by
  have hparts : ∀ part ∈ batches size live, ∀ e ∈ part, σ.store.holdsEnds e = true := by
    intro part hpart e he
    have hmem : e ∈ (batches size live).flatten := List.mem_flatten.mpr ⟨part, hpart, he⟩
    rw [flatten_batches] at hmem
    exact hlive e hmem
  refine (withstands_writeBatches batchwise_createEdges (fun part σ' hpart =>
    Withstands.write (Store.createEdges_eq σ'.store hpart) ⟨rfl, rfl⟩) _ σ hparts).mono
    (fun _ _ h => h) ?_
  rintro k κ ⟨hk, done, hdone, rfl⟩
  exact ⟨hk, done.flatten, flatten_prefix_of_batches hdone, rfl⟩

/-- The end of a commit, when all nodes are written: the edges, then the ledger. -/
theorem withstands_closing {α : Type} {s : Store μ} {results : List (Completion μ)}
    (hgrounded : grounded s results = true) (number size : Nat) (answer : Nat → Nat → α)
    (σ : State μ) (hstore : σ.store = written s results) :
    Withstands (do
      let created ← writeBatches Session.createEdges
        (batches size ((edges results).filter (written s results).holdsEnds))
      let recorded ← Session.recordRuns (rows results number)
      return answer created recorded) σ (fun _ k => k = 1)
      fun k κ => k = 0 ∧ CutShort s results κ.store := by
  have hholds : ∀ e ∈ (edges results).filter (written s results).holdsEnds,
      σ.store.holdsEnds e = true := by
    intro e he
    rw [hstore]
    exact (List.mem_filter.mp he).2
  have hparts : ∀ part ∈ batches size ((edges results).filter (written s results).holdsEnds),
      ∀ e ∈ part, σ.store.holdsEnds e = true := by
    intro part hpart e he
    refine hholds e ?_
    rw [← flatten_batches size ((edges results).filter _)]
    exact List.mem_flatten.mpr ⟨part, hpart, he⟩
  refine Withstands.bind ((withstands_writeEdges size _ σ hholds).mono (fun _ _ h => h) ?_)
    (computes_writeEdges _ σ.store σ.cancelled hparts) fun σ₁ h₁ => ?_
  · rintro k κ ⟨hk, added, hadded, hκ⟩
    rw [hκ, hstore]
    exact ⟨hk, .edges added hadded⟩
  rw [flatten_batches, hstore] at h₁
  have hstore₁ : σ₁.store = (joined s results).1 := congrArg Core.store h₁
  have hrecord : (σ₁.store.record (rows results number)).map
      (fun s => (s, (rows results number).length)) =
        .ok (committed s results number, (rows results number).length) := by
    rw [hstore₁, record_joined, hgrounded]
    rfl
  refine Withstands.bind (Withstands.write hrecord ⟨rfl, ?_⟩) (Computes.write hrecord) fun σ₂ h₂ => ?_
  · rw [show σ₁.core.store = _ from hstore₁]
    exact .edges _ (List.prefix_refl _)
  · exact Withstands.pure rfl

/-- **A commit that fails is cut short**, and one that answers has had its ledger taken.  The results
are about nodes that are stored once the nodes are written, so nothing is refused. -/
theorem withstands_pass (results : List (Completion μ)) (number batchSize : Nat) (σ : State μ)
    (hgrounded : grounded σ.store results = true) :
    Withstands (pass results number batchSize) σ (fun _ k => k = 1) fun k κ =>
      k = 0 ∧ CutShort σ.store results κ.store := by
  refine Withstands.bind (ReadOnly.withstands (ReadOnly.foldlM readOnly_stage _ _)
    ⟨rfl, CutShort.refl _ _⟩) (Computes.foldlM_read (foldResult σ.store) ?_ _ {}) fun σ₁ h₁ => ?_
  · intro st c
    exact computes_stage st c σ.core
  have hstore₁ : σ₁.store = σ.store := congrArg Core.store h₁
  refine Withstands.bind ((withstands_writeNodes _ _ σ₁).mono (fun _ _ h => h) ?_)
    (computes_writeNodes _ σ₁.store σ₁.cancelled) fun σ₂ h₂ => ?_
  · rintro k κ ⟨hk, done, rest, hsplit, hκ⟩
    rw [hκ, hstore₁]
    exact ⟨hk, .nodes done rest hsplit⟩
  rw [flatten_batches, hstore₁] at h₂
  have hstore₂ : σ₂.store = written σ.store results := congrArg Core.store h₂
  refine Withstands.bind ((readOnly_liveEdges _).withstands ⟨rfl, ?_⟩)
    (computes_liveEdges _ σ₂.core) fun σ₃ h₃ => ?_
  · rw [show σ₂.core.store = _ from hstore₂]
    exact .edges [] List.nil_prefix
  · have hstore₃ : σ₃.store = written σ.store results := (congrArg Core.store h₃).trans hstore₂
    rw [show σ₂.core.store = _ from hstore₂]
    exact withstands_closing hgrounded number batchSize _ σ₃ hstore₃

/-! ## 2. What is left of a commit -/

variable {s t : Store μ} {results : List (Completion μ)}

/-- Nothing of the ledger is written. -/
theorem CutShort.ledger (h : CutShort s results t) : t.ledger = s.ledger := by
  cases h with
  | nodes done rest _ => exact Store.ledger_mergeNodes s done
  | edges added _ => rw [Store.ledger_addEdges, written, Store.ledger_mergeNodes]

theorem CutShort.keyed (h : CutShort s results t) (hs : s.Keyed) : t.Keyed := by
  cases h with
  | nodes done rest _ => exact hs.mergeNodes done
  | edges added _ => exact (hs.mergeNodes _).addEdges added

theorem keys_folded (hs : s.Keyed) (results : List (Completion μ)) :
    (folded s results).nodes.keys = (folded s results).nodes.values.map Node.id := by
  rw [Table.keys, Table.values, List.map_map]
  refine List.map_congr_left fun row hrow => ?_
  exact (id_folded hs results (Table.mem_rows.mp hrow)).symm

/-- The first of the nodes that a commit touches are as the commit would leave them, and all others
as they were. -/
theorem node?_mergeNodes_folded (hs : s.Keyed) {done rest : List (Node μ)}
    (h : (folded s results).nodes.values = done ++ rest) (id : String) :
    (s.mergeNodes done).node? id =
      if id ∈ done.map Node.id then (written s results).node? id else s.node? id := by
  split
  · next hmem =>
    obtain ⟨n, hn, rfl⟩ := List.mem_map.mp hmem
    have hvalue : n ∈ (folded s results).nodes.values := h ▸ List.mem_append_left rest hn
    have hnodup : ((done ++ rest).map Node.id).Nodup := by
      rw [← h, ← keys_folded hs]
      exact Table.nodup_keys _
    rw [List.map_append] at hnodup
    obtain ⟨key, hkey⟩ := Table.mem_values.mp hvalue
    rw [← id_folded hs results hkey] at hkey
    rw [Store.node?_mergeNodes_of_mem s (List.nodup_append.mp hnodup).1 hn, node?_written hs, hkey]
    rfl
  · next hmem => exact Store.node?_mergeNodes_of_not_mem s hmem

/-- **What is left of a commit, by views**: the ids that it touches are cut in two, the nodes of the
first part are as the commit would leave them and all others as they were, and there is a new edge
only if no id is left out. -/
theorem CutShort.exists_split (hs : s.Keyed) (h : CutShort s results t) :
    ∃ done rest : List String, (folded s results).nodes.keys = done ++ rest ∧
      (∀ id, t.node? id = if id ∈ done then (written s results).node? id else s.node? id) ∧
      (t.edges ≠ s.edges → rest = []) := by
  rw [keys_folded hs]
  cases h with
  | nodes done rest h =>
    refine ⟨done.map Node.id, rest.map Node.id, by rw [h, List.map_append],
      node?_mergeNodes_folded hs h, fun hedges => absurd ?_ hedges⟩
    exact Store.edges_mergeNodes s done
  | edges added _ =>
    refine ⟨_, [], (List.append_nil _).symm, fun id => ?_, fun _ => rfl⟩
    rw [Store.node?_addEdges]
    exact node?_mergeNodes_folded hs (List.append_nil _).symm id

end Whole

end Commit

/-! ## 3. Runs that are cut short -/

namespace Run

variable {γ μ : Type} [Measure μ] {active : List (Active γ μ)} {context : γ} {limits : Limits}
  {stop : Nat → Bool} {s : Store μ}

/-- **What is left of a run that fails after `n` commits**: the store after that many passes, and what
the next commit wrote before it was cut short.  Every pass but the last one added a fact, or the
run would have ended there. -/
structure Interrupted (active : List (Active γ μ)) (context : γ) (s : Store μ) (n : Nat)
    (t : Store μ) : Prop where
  underway : Underway active context s (n - 1)
  busy : ∀ m, n = m + 1 → agenda active (after active context s m) ≠ []
  cut : Commit.CutShort (after active context s n)
    (finishing active context (after active context s n)) t

/-- A run may fail between two commits. -/
theorem Interrupted.between {n : Nat} (hrun : Underway active context s (n - 1))
    (hbusy : ∀ m, n = m + 1 → agenda active (after active context s m) ≠ []) :
    Interrupted active context s n (after active context s n) :=
  ⟨hrun, hbusy, Commit.CutShort.refl _ _⟩

/-- A pass fails while its commit is under way, or when the commit is done. -/
theorem withstands_onePass (active : List (Active γ μ)) (context : γ) (limits : Limits)
    {σ : State μ} (hs : σ.store.Keyed) (p : Progress) :
    Withstands (onePass context limits p (agenda active σ.store)) σ (fun _ k => k = 1) fun k κ =>
      (k = 0 ∧ Commit.CutShort σ.store (finishing active context σ.store) κ.store) ∨
        (k = 1 ∧ κ.store = advance active context (p.passes.length + 1) σ.store) := by
  refine Withstands.bind (ReadOnly.factCount.withstands (.inl ⟨rfl, Commit.CutShort.refl _ _⟩))
    (Computes.factCount _) fun σ₁ h₁ => Withstands.cancelIf fun σ₂ h₂ => ?_
  have hstore : σ₂.store = σ.store := (congrArg Core.store h₂).trans (congrArg Core.store h₁)
  have hgrounded : Commit.grounded σ₂.store (finishing active context σ.store) = true := by
    rw [hstore]
    exact grounded_finishing hs
  have hcommit := Commit.computes_pass (finishing active context σ.store) (p.passes.length + 1)
    limits.batchSize σ₂.store σ₂.cancelled
  rw [Commit.answer, Commit.left, hgrounded] at hcommit
  refine Withstands.bind ((Commit.withstands_pass _ _ _ σ₂ hgrounded).mono (fun _ _ h => h) ?_)
    hcommit fun σ₃ h₃ => ?_
  · rintro k κ ⟨hk, hcut⟩
    exact .inl ⟨hk, hstore ▸ hcut⟩
  · rw [hstore] at h₃
    refine Withstands.bind (ReadOnly.factCount.withstands (.inr ⟨rfl, congrArg Core.store h₃⟩))
      (Computes.factCount _) fun σ₄ h₄ => ?_
    exact Withstands.pure rfl

/-- The rest of a loop after a pass. -/
theorem withstands_afterPass {α : Type} {p : Progress} {σ : State μ} {R : α → Nat → Prop}
    {rest : Progress × PassSummary → Session μ α} (hs : s.Keyed)
    (hstore : σ.store = after active context s p.passes.length)
    (hrun : Underway active context s p.passes.length)
    (hbusy : agenda active (after active context s p.passes.length) ≠ [])
    (hrest : ∀ σ' : State μ, σ'.store = after active context s (p.passes.length + 1) →
      Withstands (rest (p.next active context limits σ.store,
          summaryOf active context limits (p.passes.length + 1) σ.store)) σ'
        (fun a j => R a (j + 1))
        fun j κ => Interrupted active context s (j + 1 + p.passes.length) κ.store) :
    Withstands (onePass context limits p (agenda active σ.store) >>= rest) σ R fun k κ =>
      Interrupted active context s (k + p.passes.length) κ.store := by
  have hkeyed : σ.store.Keyed := hstore ▸ keyed_after hs _
  refine Withstands.bind ((withstands_onePass active context limits hkeyed p).mono
    (fun _ _ h => h) ?_) (computes_onePass active context limits hkeyed p σ.cancelled)
    fun σ' hσ' => hrest σ' ?_
  · rintro k κ (⟨rfl, hcut⟩ | ⟨rfl, hadvance⟩)
    · rw [Nat.zero_add]
      rw [hstore] at hcut
      exact ⟨hrun.mono (Nat.sub_le _ _), hrun.busy, hcut⟩
    · rw [hadvance, hstore, ← after_succ, Nat.add_comm 1]
      refine Interrupted.between hrun fun m hm => ?_
      rw [← Nat.succ.inj hm]
      exact hbusy
  · rw [after_succ, ← hstore]
    exact congrArg Core.store hσ'

/-- **A loop that fails is cut short in one of its commits or between two of them.** -/
theorem withstands_loop (active : List (Active γ μ)) (context : γ) (limits : Limits)
    (stop : Nat → Bool) (hs : s.Keyed) (left : Nat) (p : Progress) (σ : State μ)
    (hstore : σ.store = after active context s p.passes.length)
    (hp : p.completed = σ.store.finished) (hrun : Underway active context s p.passes.length) :
    Withstands (loop active context limits stop left p) σ
      (fun r k => r.1.passes.length = k + p.passes.length)
      fun k κ => Interrupted active context s (k + p.passes.length) κ.store := by
  induction left using Nat.strong_induction_on generalizing p σ with
  | _ left ih =>
  have hnow : ∀ σ' : State μ, σ'.store = σ.store →
      Interrupted active context s (0 + p.passes.length) σ'.store := by
    intro σ' hσ'
    rw [hσ', hstore, Nat.zero_add]
    exact Interrupted.between (hrun.mono (Nat.sub_le _ _)) hrun.busy
  rw [loop]
  refine Withstands.cancelIf fun σ₁ h₁ => ?_
  have hstore₁ : σ₁.store = σ.store := congrArg Core.store h₁
  refine Withstands.bind (ReadOnly.isCancelled.withstands (hnow σ₁ hstore₁))
    (Computes.isCancelled _) fun σ₂ h₂ => ?_
  have hstore₂ : σ₂.store = σ.store := (congrArg Core.store h₂).trans hstore₁
  cases σ₁.core.cancelled with
  | true => exact Withstands.pure (Nat.zero_add _).symm
  | false =>
    refine Withstands.bind (ReadOnly.allNodes.withstands (hnow σ₂ hstore₂))
      (Computes.allNodes _) fun σ₃ h₃ => ?_
    have hstore₃ : σ₃.store = σ.store := (congrArg Core.store h₃).trans hstore₂
    have htasks : pending active σ₂.core.store.allNodes p.completed = agenda active σ₃.store := by
      rw [show σ₂.core.store = σ₂.store from rfl, hstore₂, hstore₃, hp]
      rfl
    rw [htasks]
    dsimp only
    by_cases hempty : agenda active σ₃.store = []
    · rw [hempty]
      exact Withstands.pure (Nat.zero_add _).symm
    · have hsome : ¬ (agenda active σ₃.store).isEmpty = true :=
        fun h => hempty (List.isEmpty_iff.mp h)
      rw [if_neg hsome]
      cases left with
      | zero => exact Withstands.pure (Nat.zero_add _).symm
      | succ left =>
        have hstore₃' : σ₃.store = after active context s p.passes.length := hstore₃.trans hstore
        refine withstands_afterPass hs hstore₃' hrun (hstore₃' ▸ hempty) fun σ₄ h₄ => ?_
        have hnext : (p.next active context limits σ₃.store).completed = σ₄.store.finished := by
          rw [h₄, after_succ, ← hstore₃']
          refine completed_next active context limits ?_ _
          rw [hp, hstore₃]
        split
        · exact Withstands.pure (Nat.add_comm _ _)
        · next hfacts =>
          have hrun' : Underway active context s (p.passes.length + 1) := by
            intro i hi
            rcases Nat.lt_succ_iff_lt_or_eq.mp hi with hi | rfl
            · exact hrun i hi
            · refine ⟨hstore₃' ▸ hempty, ?_⟩
              rw [after_succ, ← hstore₃']
              exact hfacts
          refine (ih left (Nat.lt_succ_self left) (p.next active context limits σ₃.store) σ₄ h₄ hnext
            hrun').mono ?_ ?_
          · intro r k hr
            rw [hr]
            show k + (p.passes.length + 1) = _
            omega
          · intro k κ hκ
            rw [Nat.add_right_comm]
            exact hκ

/-- A loop that answers has made the passes it reports. -/
theorem ends_of_returns_loop (hs : s.Keyed) {left : Nat} {p q : Progress} {reason : StopReason}
    {σ σ' : State μ} (hstore : σ.store = s) (hpasses : p.passes = []) (hp : p.completed = s.finished)
    (h : Returns (loop active context limits stop left p) σ (q, reason) σ') :
    σ'.store = after active context s q.passes.length ∧
      Ends active context s left q.passes.length reason := by
  rw [← fst_loopTraced] at h
  obtain ⟨⟨ended, logs⟩, h, rfl⟩ := returns_map.mp h
  obtain ⟨n, q, reason, b', -, hloop, hlength, -, hends⟩ :=
    goesOn_loopTraced active context limits stop hs left 0 p σ.cancelled (by rw [hpasses]; rfl) hp
      (fun i hi => absurd hi (Nat.not_lt_zero i)) (Nat.zero_add left)
  obtain ⟨hok, hcore⟩ := hloop.of_returns (by rw [State.core, hstore]; rfl) h
  cases hok
  rw [hlength]
  exact ⟨congrArg Core.store hcore, hends⟩

omit [Measure μ] in
theorem readOnly_unresolved (active : List (Active γ μ)) (completed : KeySet Pair) :
    ReadOnly (unresolved active completed) := by
  refine (ReadOnly.mapM (fun a => ?_) _).bind fun entries => ReadOnly.pure _
  refine (ReadOnly.filterM (fun tag => ?_) _).bind fun missing => ReadOnly.pure _
  exact (ReadOnly.findByTag tag).bind fun found => ReadOnly.pure _

/-- **A run that fails is cut short in one of its commits or between two of them**, and it fails only
with an error that storage brings about, if need be for nodes that are left. -/
theorem interrupted_of_fails {roster : Roster γ μ} {σ σ' : State μ} {e : Error}
    (hs : σ.store.Keyed) (h : Fails (run roster context limits stop) σ e σ') :
    σ'.Injects e ∧ ∃ n, σ.Reaches n σ' ∧
      Interrupted (Run.active roster context limits) context σ.store n σ'.store := by
  have hstart : Interrupted (Run.active roster context limits) context σ.store 0 σ.store :=
    Interrupted.between (fun i hi => absurd hi (Nat.not_lt_zero i)) fun m hm => by cases hm
  suffices Withstands (run roster context limits stop) σ (fun _ _ => True) fun n κ =>
      Interrupted (Run.active roster context limits) context σ.store n κ.store from this.fails h
  refine Withstands.bind (ReadOnly.completedRuns.withstands hstart)
    (Computes.completedRuns _) fun σ₁ h₁ => ?_
  have hstore : σ₁.store = σ.store := congrArg Core.store h₁
  refine Withstands.bind_readOnly (withstands_loop (Run.active roster context limits) context limits
    stop hs limits.maxPasses (start roster context limits σ.store) σ₁ hstore ?_ ?_) ?_ ?_
  · rw [hstore]
    rfl
  · exact fun i hi => absurd hi (Nat.not_lt_zero i)
  · intro r
    exact (readOnly_unresolved _ _).bind fun found => ReadOnly.pure _
  · rintro ⟨q, reason⟩ σ₂ k hret hk
    have hret : Returns (loop (Run.active roster context limits) context limits stop
      limits.maxPasses (start roster context limits σ.store)) σ₁ (q, reason) σ₂ := hret
    obtain ⟨hstore₂, hends⟩ := ends_of_returns_loop hs hstore rfl rfl hret
    have hk : q.passes.length = k := hk
    rw [show σ₂.core.store = _ from hstore₂, Nat.add_zero, ← hk]
    exact Interrupted.between hends.underway hends.busy

end Run

end FactGraph
