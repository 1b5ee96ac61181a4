import FactGraph.Proofs.CrashConsistency

/-!
# What makes a run fail

A run fails only if storage does.  A commit can be refused for an edge without its ends or for a ledger
row without its node, and analyzers may well ask for such edges, but neither is ever sent: edges are
sifted once all nodes are written, and no commit removes a node that a pass has looked at.

But storage may fail for what an analyzer wrote.  A value may be nested as deeply as one likes when it
is written, and only so deeply when it is read.  An analyzer that sets a property which is nested too
deeply succeeds, its commit goes through, and from then on the node is refused.  Storage in order
(`Session.Faults.readBack`) refuses nothing else.

So whether a run answers is a question about depth.  Every way of changing a node keeps it legible if
what is new is legible: seeing it again (`Node.legible_absorb`), a patch with its sums
(`Patch.legible_apply`), being stored (`Node.legible_stored`).  So does a commit
(`Commit.legible_written`), and so do the passes of a run whose analyzers set legible properties
(`Run.legible_after`).

* `exists_returns_of_legible`: such a run answers.
* `Run.legible_of_returns`: a run that answers could read every store that it looked at.
* `error_of_failed_run` puts this together with what holds of any storage.
-/

namespace FactGraph

open Session

/-! ## 1. Depth -/

namespace Value

mutual

theorem nesting_mapFloat (f : Float → Float) (v : Value) : (v.mapFloat f).nesting = v.nesting := by
  cases v with
  | arr items => rw [mapFloat, nesting, nesting, nestingItems_mapFloat f items]
  | obj fields => rw [mapFloat, nesting, nesting, nestingFields_mapFloat f fields]
  | _ => rfl

theorem nestingItems_mapFloat (f : Float → Float) (items : List Value) :
    nestingItems (mapFloatItems f items) = nestingItems items := by
  cases items with
  | nil => rfl
  | cons v rest =>
    rw [mapFloatItems, nestingItems, nestingItems, nesting_mapFloat f v,
      nestingItems_mapFloat f rest]

theorem nestingFields_mapFloat (f : Float → Float) (fields : List (String × Value)) :
    nestingFields (mapFloatFields f fields) = nestingFields fields := by
  cases fields with
  | nil => rfl
  | cons field rest =>
    cases field with
    | mk key v =>
      rw [mapFloatFields, nestingFields, nestingFields, nesting_mapFloat f v,
        nestingFields_mapFloat f rest]

end

/-- Texts and numbers can always be read back. -/
theorem nestingLimit_pos : 0 < nestingLimit := by decide

/-- Storing a value changes numbers, never its depth. -/
theorem nesting_stored (v : Value) : v.stored.nesting = v.nesting := nesting_mapFloat reread v

theorem nestingFields_lt_iff {limit : Nat} (hlimit : 0 < limit) (fields : List (String × Value)) :
    nestingFields fields < limit ↔ ∀ field ∈ fields, field.2.nesting < limit := by
  induction fields with
  | nil => simpa [nestingFields] using hlimit
  | cons field rest ih =>
    rw [nestingFields, Nat.max_lt, ih, List.forall_mem_cons]

end Value

/-! ## 2. Legible properties and nodes -/

/-- Each of the properties can be read back as part of a node. -/
def Properties.Legible (ps : Properties) : Prop :=
  ∀ key v, ps.get? key = some v → v.nesting < Value.nestingLimit

namespace Properties

theorem legible_empty : Properties.Legible ∅ := by
  intro key v h
  cases h

theorem Legible.insert {ps : Properties} (h : ps.Legible) {key : String} {v : Value}
    (hv : v.nesting < Value.nestingLimit) : Properties.Legible (Table.insert ps key v) := by
  intro key' v' h'
  rw [Table.get?_insert] at h'
  split_ifs at h'
  · cases h'
    exact hv
  · exact h key' v' h'

theorem Legible.overlay {ps newer : Properties} (h : ps.Legible) (hnewer : newer.Legible) :
    Properties.Legible (Table.overlay ps newer) := by
  intro key v hv
  rw [Table.get?_overlay, Option.or_eq_some_iff] at hv
  rcases hv with hv | ⟨-, hv⟩
  · exact hnewer key v hv
  · exact h key v hv

end Properties

namespace Node

variable {μ : Type}

/-- A node can be read back if and only if each of its properties can. -/
theorem legible_iff (n : Node μ) : n.legible = true ↔ n.properties.Legible := by
  have hlimit : n.legible = true ↔ Value.nestingFields n.properties.rows < Value.nestingLimit :=
    decide_eq_true_iff
  rw [hlimit, Value.nestingFields_lt_iff Value.nestingLimit_pos]
  constructor
  · intro h key v hv
    exact h (key, v) (Table.mem_rows.mpr hv)
  · rintro h ⟨key, v⟩ hrow
    exact h key v (Table.mem_rows.mp hrow)

theorem legible_property {n : Node μ} (h : n.legible = true) (key : String) {v : Value}
    (hv : v.nesting < Value.nestingLimit) : (n.property key v).legible = true := by
  rw [legible_iff] at *
  exact h.insert hv

theorem legible_absorb {n newer : Node μ} (h : n.legible = true) (hnewer : newer.legible = true) :
    (n.absorb newer).legible = true := by
  rw [legible_iff] at *
  exact h.overlay hnewer

theorem legible_stored [Measure μ] {n : Node μ} (h : n.legible = true) : n.stored.legible = true := by
  rw [legible_iff] at *
  intro key v hv
  rw [stored, Table.get?_mapValues, Option.map_eq_some_iff] at hv
  obtain ⟨v, hv, rfl⟩ := hv
  rw [Value.nesting_stored]
  exact h key v hv

/-- What can be read back can be counted. -/
theorem countable_of_legible {n : Node μ} (h : n.legible = true) : n.countable = true := by
  have hdepth : n.record.nesting ≤ Value.nestingLimit := of_decide_eq_true h
  exact decide_eq_true (hdepth.trans (by decide))

end Node

/-- A patch keeps a node legible if the properties that it sets are; a sum sets a number. -/
theorem Patch.legible_apply {μ : Type} [Measure μ] {p : Patch μ} (hp : p.properties.Legible)
    {n : Node μ} (h : n.legible = true) : (p.apply n).legible = true := by
  have hsums : ∀ (rows : List (String × Tally μ)) (n : Node μ), n.legible = true →
      (rows.foldl (fun n row => addSum n row.1 row.2) n).legible = true := by
    intro rows
    induction rows with
    | nil => exact fun n hn => hn
    | cons row rest ih =>
      intro n hn
      refine ih _ ?_
      rw [Node.legible_iff] at hn ⊢
      exact hn.insert Value.nestingLimit_pos
  refine hsums p.sums.rows _ ?_
  rw [Node.legible_iff] at h ⊢
  exact h.overlay hp

/-! ## 3. Legible findings -/

/-- All properties that are found can be read back. -/
structure Findings.Legible {μ : Type} (f : Findings μ) : Prop where
  observed : ∀ n ∈ f.observed, n.legible = true
  patches : ∀ id p, f.patches.get? id = some p → p.properties.Legible

namespace Findings

variable {μ : Type}

theorem legible_empty : ({} : Findings μ).Legible where
  observed _ hn := absurd hn List.not_mem_nil
  patches _ _ hp := by cases hp

theorem Legible.patch {f : Findings μ} (h : f.Legible) (id : String) {change : Patch μ → Patch μ}
    (hchange : ∀ p : Patch μ, p.properties.Legible → (change p).properties.Legible) :
    (f.patch id change).Legible where
  observed := h.observed
  patches id' p hp := by
    rw [Findings.patch, Table.get?_modify] at hp
    split_ifs at hp
    · cases hp
      refine hchange _ ?_
      cases hold : f.patches.get? id with
      | none => exact Properties.legible_empty
      | some q => exact h.patches id q hold
    · exact h.patches id' p hp

theorem Legible.edge {f : Findings μ} (h : f.Legible) (e : Edge) : (f.edge e).Legible :=
  ⟨h.observed, h.patches⟩

theorem Legible.observe {f : Findings μ} (h : f.Legible) {n : Node μ} (hn : n.legible = true) :
    (f.observe n).Legible where
  observed seen hseen := by
    rcases List.mem_append.mp hseen with hseen | hseen
    · exact h.observed seen hseen
    · cases List.mem_singleton.mp hseen
      exact hn
  patches := h.patches

theorem Legible.tag {f : Findings μ} (h : f.Legible) (id tag : String) : (f.tag id tag).Legible :=
  h.patch id fun _ hp => hp

theorem Legible.metric [Measure μ] {f : Findings μ} (h : f.Legible) (id key : String) (x : μ) :
    (f.metric id key x).Legible := by
  unfold Findings.metric
  split_ifs
  · exact h.patch id fun _ hp => hp
  · exact h

theorem Legible.sum [Measure μ] {f : Findings μ} (h : f.Legible) (id key : String) (x : μ) :
    (f.sum id key x).Legible := by
  unfold Findings.sum
  split_ifs
  · exact h.patch id fun _ hp => hp
  · exact h

theorem Legible.error {f : Findings μ} (h : f.Legible) (analyzer id message : String) :
    (f.error analyzer id message).Legible := by
  have hpatch : (f.patch id fun p =>
      { p with
        tags := (p.tags.add errorTag).add (errorKey analyzer)
        properties := p.properties.insert (errorKey analyzer) (.str message) }).Legible :=
    h.patch id fun p hp => hp.insert Value.nestingLimit_pos
  exact ⟨hpatch.observed, hpatch.patches⟩

/-- That an inspection failed can always be read back. -/
theorem legible_failure (analyzer id message : String) :
    (failure analyzer id message : Findings μ).Legible :=
  legible_empty.error analyzer id message

end Findings

/-- On legible nodes the analyzers set legible properties. -/
def Roster.Legible {γ μ : Type} (roster : Roster γ μ) (context : γ) : Prop :=
  ∀ a ∈ roster.analyzers, ∀ n : Node μ, n.legible = true → (a.inspect context n).findings.Legible

/-! ## 4. Legible stores -/

/-- All nodes can be read back. -/
def Store.Legible {μ : Type} (s : Store μ) : Prop := ∀ n ∈ s.allNodes, n.legible = true

instance {μ : Type} (s : Store μ) : Decidable s.Legible :=
  inferInstanceAs (Decidable (∀ n ∈ s.allNodes, n.legible = true))

theorem Store.legible_iff {μ : Type} {s : Store μ} :
    s.Legible ↔ ∀ id n, s.node? id = some n → n.legible = true := by
  constructor
  · intro h id n hn
    exact h n (Store.mem_allNodes_of_node? hn)
  · intro h n hn
    obtain ⟨id, hid⟩ := Table.mem_values.mp hn
    rw [Store.get?_nodes] at hid
    exact h id n hid

theorem Store.legible_empty {μ : Type} : (Store.empty : Store μ).Legible := by
  intro n hn
  cases hn

namespace Commit

variable {μ : Type} [Measure μ] {s : Store μ} {results : List (Completion μ)}

theorem legible_viewed (hs : s.Legible) (h : ∀ c ∈ results, c.findings.Legible) {id : String}
    {n : Node μ} (hn : viewed s results id = some n) : n.legible = true := by
  refine viewed_induction (fun o => ∀ n, o = some n → n.legible = true)
    (Store.legible_iff.mp hs id) ?_ n hn
  intro w hw o ho m hm
  obtain ⟨c, hc, hw⟩ := mem_writes.mp hw
  rcases List.mem_append.mp hw with hw | hw
  · obtain ⟨seen, hseen, rfl⟩ := List.mem_map.mp hw
    have hlegible := (h c hc).observed seen hseen
    rw [Write.onto] at hm
    split_ifs at hm
    · cases o with
      | none =>
        cases hm
        exact hlegible
      | some old =>
        cases hm
        exact Node.legible_absorb (ho old rfl) hlegible
    · exact ho m hm
  · obtain ⟨⟨target, p⟩, hrow, rfl⟩ := List.mem_map.mp hw
    rw [Write.onto] at hm
    split_ifs at hm
    · obtain ⟨old, hold, rfl⟩ := Option.map_eq_some_iff.mp hm
      exact Patch.legible_apply ((h c hc).patches target p (Table.mem_rows.mp hrow)) (ho old hold)
    · exact ho m hm

/-- **A commit of legible findings leaves a legible store.** -/
theorem legible_written (hkeyed : s.Keyed) (hs : s.Legible)
    (h : ∀ c ∈ results, c.findings.Legible) : (written s results).Legible := by
  rw [Store.legible_iff]
  intro id n hn
  rcases node?_written_cases hkeyed results id with hw | hw <;> rw [hw] at hn
  · exact legible_viewed hs h hn
  · obtain ⟨m, hm, rfl⟩ := Option.map_eq_some_iff.mp hn
    exact Node.legible_stored (legible_viewed hs h hm)

theorem legible_committed (hkeyed : s.Keyed) (hs : s.Legible)
    (h : ∀ c ∈ results, c.findings.Legible) (number : Nat) : (committed s results number).Legible := by
  rw [Store.legible_iff]
  intro id n hn
  rw [node?_committed] at hn
  exact Store.legible_iff.mp (legible_written hkeyed hs h) id n hn

end Commit

namespace Run

variable {γ μ : Type} {roster : Roster γ μ} {active : List (Active γ μ)} {context : γ} {s : Store μ}

theorem legible_finishing (hroster : roster.Legible context)
    (hactive : ∀ x ∈ active, x.analyzer ∈ roster.analyzers) (hkeyed : s.Keyed) (hs : s.Legible) :
    ∀ c ∈ finishing active context s, c.findings.Legible := by
  intro c hc
  obtain ⟨t, ht, he⟩ := mem_completions.mp hc
  obtain ⟨hx, hnode, -⟩ := (mem_agenda hkeyed).mp ht
  rcases findings_of_completion he with hf | hf | ⟨message, hf⟩ <;> rw [hf]
  · exact hroster _ (hactive _ hx) t.node (Store.legible_iff.mp hs _ _ hnode)
  · exact Findings.legible_empty
  · exact Findings.legible_failure _ _ _

variable [Measure μ]

/-- **The passes of a legible roster leave legible stores.** -/
theorem legible_after (hroster : roster.Legible context)
    (hactive : ∀ x ∈ active, x.analyzer ∈ roster.analyzers) (hkeyed : s.Keyed) (hs : s.Legible)
    (k : Nat) : (after active context s k).Legible := by
  induction k with
  | zero => exact hs
  | succ k ih =>
    have hkeyed' : (after active context s k).Keyed := keyed_after hkeyed k
    rw [after_succ]
    exact Commit.legible_committed hkeyed' ih (legible_finishing hroster hactive hkeyed' ih) (k + 1)

/-- So does a run of it that is cut short. -/
theorem Crashed.legible {σ σ' : State μ} {k : Nat} {written unwritten : List String}
    (h : Crashed active context σ σ' k written unwritten)
    (hafter : ∀ k, (after active context σ.store k).Legible) : σ'.store.Legible := by
  rw [Store.legible_iff]
  intro id n hn
  rw [h.node?] at hn
  split_ifs at hn
  · exact Store.legible_iff.mp (hafter (k + 1)) id n hn
  · exact Store.legible_iff.mp (hafter k) id n hn

end Run

/-! ## 5. What storage in order refuses -/

/-- An error says that a node cannot be read back, or that its properties cannot be counted. -/
def Node.Refuses {μ : Type} (n : Node μ) (e : Error) : Prop :=
  n.legible = false ∧ (e = n.record.refusal ∨ Node.uncounted? [n] = some e)

/-- It is neither the refusal of an edge nor that of a ledger row. -/
theorem Node.Refuses.ne {μ : Type} {n : Node μ} {e : Error} (h : n.Refuses e) :
    (∀ edge missing, e ≠ Store.missingEndError edge missing) ∧ e ≠ Store.danglingRowError := by
  obtain ⟨-, rfl | hdeep⟩ := h
  · refine ⟨fun edge missing hedge => (by cases hedge), fun hrow => ?_⟩
    -- the two begin with different letters
    have htext := (Error.database.injEq ..).mp hrow |>.1
    have hfirst := congrArg (fun text => text.toList.head?) htext
    simp at hfirst
  · rw [Node.uncounted?] at hdeep
    split_ifs at hdeep
    cases hdeep
    exact ⟨fun edge missing hedge => (by cases hedge), by decide⟩

section Refusals

variable {μ : Type} {nodes : List (Node μ)} {e : Error}

theorem Node.refused?_eq_none_iff : refused? nodes = none ↔ ∀ x ∈ nodes, x.legible = true := by
  simp [refused?]

theorem Node.refuses_of_refused? (h : refused? nodes = some e) : ∃ x ∈ nodes, x.Refuses e := by
  obtain ⟨x, hx, rfl⟩ := Option.map_eq_some_iff.mp h
  have hillegible := List.find?_some hx
  rw [Bool.not_eq_true'] at hillegible
  exact ⟨x, List.mem_of_find?_eq_some hx, hillegible, .inl rfl⟩

/-- What cannot be counted cannot be read back either. -/
theorem Node.refuses_of_uncounted? (h : uncounted? nodes = some e) : ∃ x ∈ nodes, x.Refuses e := by
  rw [uncounted?] at h
  split_ifs at h with hall
  obtain ⟨x, hx, hdeep⟩ := List.all_eq_false.mp (Bool.eq_false_iff.mpr hall)
  have hillegible : x.legible = false :=
    Bool.eq_false_iff.mpr fun hlegible => hdeep (countable_of_legible hlegible)
  refine ⟨x, hx, hillegible, .inr ?_⟩
  rw [uncounted?, if_neg (by simpa using hdeep)]
  exact h

end Refusals

namespace Session

variable {μ : Type}

/-- Storage in order fails for a node that cannot be read back, and says so. -/
theorem Faults.of_readBack {c : Call} {n : Nat} {nodes : List (Node μ)} {e : Error}
    (h : Faults.readBack c n nodes = some e) : ∃ x ∈ nodes, x.Refuses e := by
  cases c with
  | factCount => exact Node.refuses_of_uncounted? h
  | _ => exact Node.refuses_of_refused? h

theorem Faults.readBack_allNodes {n : Nat} {nodes : List (Node μ)}
    (h : Faults.readBack .allNodes n nodes = Option.none) : ∀ x ∈ nodes, x.legible = true :=
  Node.refused?_eq_none_iff.mp h

/-- Where storage is in order, an error is the refusal of a node that is left. -/
theorem State.Injects.of_readBack {σ : State μ} {e : Error} (hfaults : σ.faults = Faults.readBack)
    (h : σ.Injects e) : ∃ x ∈ σ.store.allNodes, x.Refuses e := by
  obtain ⟨c, n, nodes, hnodes, he⟩ := h
  rw [hfaults] at he
  obtain ⟨x, hx, hrefused⟩ := Faults.of_readBack he
  exact ⟨x, hnodes x hx, hrefused⟩

end Session

/-! ## 6. Runs that answer -/

namespace Run

variable {γ μ : Type} [Measure μ] {active : List (Active γ μ)} {context : γ} {limits : Limits}
  {stop : Nat → Bool} {s : Store μ}

omit [Measure μ] in
/-- A run that goes past the gate has read all nodes. -/
theorem of_returns_gate {α : Type} {c : Bool} {m : List (Node μ) → Session μ α} {a b : α}
    {σ σ' : State μ} (hfaults : σ.faults = Faults.readBack)
    (h : Returns (if c then Session.cancel >>= fun _ => Session.isCancelled >>= fun d =>
        if d then pure a else Session.allNodes >>= m
      else Session.isCancelled >>= fun d => if d then pure a else Session.allNodes >>= m) σ b σ') :
    b = a ∨ (σ.store.Legible ∧ ∃ σ₁, σ₁.store = σ.store ∧ σ₁.faults = Faults.readBack ∧
      Returns (m σ.store.allNodes) σ₁ b σ') := by
  have hread : ∀ τ : State μ, τ.store = σ.store → τ.faults = Faults.readBack →
      Returns (Session.isCancelled >>= fun d => if d then pure a else Session.allNodes >>= m) τ b σ' →
      b = a ∨ (σ.store.Legible ∧ ∃ σ₁, σ₁.store = σ.store ∧ σ₁.faults = Faults.readBack ∧
        Returns (m σ.store.allNodes) σ₁ b σ') := by
    intro τ hstore hτ hret
    obtain ⟨d, τ₁, hd, hret⟩ := returns_bind.mp hret
    cases hd
    cases hc : τ.cancelled with
    | true =>
      rw [hc, if_pos rfl] at hret
      exact .inl (returns_pure.mp hret).1
    | false =>
      rw [hc, if_neg Bool.false_ne_true] at hret
      obtain ⟨nodes, τ₂, hnodes, hret⟩ := returns_bind.mp hret
      rw [Returns, Session.allNodes, Session.read, run_call, hτ] at hnodes
      cases hfault : Faults.readBack Call.allNodes (countOf τ.counts .allNodes + 1)
          τ.store.allNodes with
      | some e => rw [hfault] at hnodes; cases hnodes
      | none =>
        rw [hfault] at hnodes
        cases hnodes
        rw [hstore] at hfault hret
        refine .inr ⟨Faults.readBack_allNodes hfault, _, ?_, ?_, hret⟩ <;> rfl
  cases c with
  | false => exact hread σ rfl hfaults h
  | true =>
    obtain ⟨_, τ, hcancel, hret⟩ := returns_bind.mp h
    cases hcancel
    exact hread { σ with cancelled := true } rfl hfaults hret

/-- The stores that a loop looks at: those before its passes, and the last one if it is looked at and
not found to have grown. -/
theorem legible_of_returns_loop (hs : s.Keyed) (left : Nat) {p q : Progress} {reason : StopReason}
    {σ σ' : State μ} (hfaults : σ.faults = Faults.readBack)
    (hstore : σ.store = after active context s p.passes.length)
    (hp : p.completed = (after active context s p.passes.length).finished)
    (h : Returns (loop active context limits stop left p) σ (q, reason) σ') :
    (∀ k, p.passes.length ≤ k → k < q.passes.length → (after active context s k).Legible) ∧
      (reason = .converged ∨ reason = .passCeiling →
        (after active context s q.passes.length).Legible) := by
  induction left generalizing p σ with
  | zero =>
    rw [loop] at h
    rcases of_returns_gate hfaults h with hstopped | ⟨hlegible, σ₁, -, -, hret⟩
    · cases hstopped
      exact ⟨fun k hk hlt => absurd hlt (by simpa [Progress.note] using hk), by simp⟩
    · rw [hstore] at hlegible hret
      dsimp only at hret
      split_ifs at hret
      · cases hret
        exact ⟨fun k hk hlt => absurd hlt (Nat.not_lt.mpr hk), fun _ => hlegible⟩
      · cases hret
        exact ⟨fun k hk hlt => absurd hlt (Nat.not_lt.mpr hk), fun _ => hlegible⟩
  | succ left ih =>
    rw [loop] at h
    rcases of_returns_gate hfaults h with hstopped | ⟨hlegible, σ₁, hstore₁, hfaults₁, hret⟩
    · cases hstopped
      exact ⟨fun k hk hlt => absurd hlt (by simpa [Progress.note] using hk), by simp⟩
    · rw [hstore] at hlegible hret hstore₁
      dsimp only at hret
      split_ifs at hret
      · cases hret
        exact ⟨fun k hk hlt => absurd hlt (Nat.not_lt.mpr hk), fun _ => hlegible⟩
      · rw [hp, ← agenda, ← hstore₁] at hret
        obtain ⟨⟨p', summary⟩, σ₂, hpass, hret⟩ := returns_bind.mp hret
        have hkeyed : σ₁.store.Keyed := hstore₁ ▸ keyed_after hs _
        obtain ⟨hok, hcore⟩ :=
          (computes_onePass active context limits hkeyed p σ₁.cancelled).of_returns rfl hpass
        obtain ⟨k, hreaches, -⟩ := (withstands_onePass active context limits hkeyed p).answers hpass
        cases hok
        have hstore₂ : σ₂.store = after active context s (p.passes.length + 1) := by
          rw [show σ₂.store = _ from congrArg Core.store hcore, hstore₁]
          rfl
        have hfirst : ∀ k, p.passes.length ≤ k → k < p.passes.length + 1 →
            (after active context s k).Legible := by
          intro k hk hlt
          rwa [show k = p.passes.length by omega]
        dsimp only at hret
        split_ifs at hret
        · cases hret
          exact ⟨hfirst, by simp⟩
        · have hnext : (p.next active context limits σ₁.store).completed =
              (after active context s (p.passes.length + 1)).finished := by
            rw [after_succ, ← hstore₁]
            exact completed_next active context limits (hstore₁ ▸ hp) _
          obtain ⟨hlater, hlast⟩ := ih (p := p.next active context limits σ₁.store)
            (hreaches.faults.trans hfaults₁) hstore₂ hnext hret
          refine ⟨fun k hk hlt => ?_, hlast⟩
          rcases Nat.eq_or_lt_of_le hk with rfl | hk
          · exact hlegible
          · exact hlater k hk hlt

/-- **A run that answers could read every store that it looked at.** -/
theorem legible_of_returns {roster : Roster γ μ} {σ σ' : State μ} {report : Report}
    (hs : σ.store.Keyed) (hfaults : σ.faults = Faults.readBack)
    (h : Returns (run roster context limits stop) σ report σ') :
    (∀ k < report.passes.length,
      (after (Run.active roster context limits) context σ.store k).Legible) ∧
    (report.stop = .converged ∨ report.stop = .passCeiling →
      (after (Run.active roster context limits) context σ.store report.passes.length).Legible) := by
  rw [run] at h
  obtain ⟨completed, σ₁, hledger, h⟩ := returns_bind.mp h
  obtain ⟨⟨q, reason⟩, σ₂, hloop, h⟩ := returns_bind.mp h
  obtain ⟨found, σ₃, -, h⟩ := returns_bind.mp h
  cases (returns_pure.mp h).1
  obtain ⟨hcompleted, hcore⟩ := (Computes.completedRuns σ.core).of_returns rfl hledger
  cases hcompleted
  have hreaches := ReadOnly.completedRuns.reaches σ
  rw [show Session.completedRuns.run σ = _ from hledger] at hreaches
  have hloop : Returns (loop (Run.active roster context limits) context limits stop limits.maxPasses
    (start roster context limits σ.store)) σ₁ (q, reason) σ₂ := hloop
  have hfaults₁ : σ₁.faults = Faults.readBack := hreaches.faults.trans hfaults
  have hstore₁ : σ₁.store = σ.store := congrArg Core.store hcore
  obtain ⟨hpasses, hlast⟩ := legible_of_returns_loop
    (p := start roster context limits σ.store) hs limits.maxPasses hfaults₁ hstore₁ rfl hloop
  dsimp only
  rw [List.length_reverse]
  exact ⟨fun k hk => hpasses k (Nat.zero_le k) hk, hlast⟩

end Run

section Whole

variable {γ μ : Type} [Measure μ] (roster : Roster γ μ) (context : γ) (limits : Limits)
  (stop : Nat → Bool) {σ : State μ}

/-- **Where storage is in order, a run fails only for a node that it leaves behind.** -/
theorem illegible_of_fails (hs : σ.store.Keyed) (hfaults : σ.faults = Faults.readBack) {e : Error}
    {σ' : State μ} (h : Fails (run roster context limits stop) σ e σ') :
    ∃ n ∈ σ'.store.allNodes, n.Refuses e := by
  obtain ⟨hinjects, k, hreaches, -⟩ := Run.interrupted_of_fails hs h
  exact hinjects.of_readBack (hreaches.faults.trans hfaults)

/-- **Whatever comes of a run, it leaves a legible store**, if what is stored and what its analyzers set
can be read back. -/
theorem legible_run (hs : σ.store.Keyed) (hlegible : σ.store.Legible)
    (hroster : roster.Legible context) :
    ((run roster context limits stop).run σ).2.store.Keyed ∧
      ((run roster context limits stop).run σ).2.store.Legible := by
  have hafter : ∀ k, (Run.after (Run.active roster context limits) context σ.store k).Legible :=
    Run.legible_after hroster (fun x hx => Run.analyzer_mem hx) hs hlegible
  rcases returns_or_fails (run roster context limits stop) σ with ⟨report, σ', h⟩ | ⟨e, σ', h⟩
  · rw [show (run roster context limits stop).run σ = (.ok report, σ') from h,
      (returns_run hs h).1]
    exact ⟨Run.keyed_after hs _, hafter _⟩
  · rw [show (run roster context limits stop).run σ = (.error e, σ') from h]
    obtain ⟨-, k, hreaches, hcut⟩ := Run.interrupted_of_fails hs h
    obtain ⟨written, unwritten, hcrashed⟩ := hcut.exists_crashed hs hreaches
    exact ⟨hcrashed.keyed, hcrashed.legible hafter⟩

/-- **A run answers if what is stored and what its analyzers set can be read back.** -/
theorem exists_returns_of_legible (hs : σ.store.Keyed) (hfaults : σ.faults = Faults.readBack)
    (hlegible : σ.store.Legible) (hroster : roster.Legible context) :
    ∃ report σ', Returns (run roster context limits stop) σ report σ' := by
  refine (returns_or_fails _ σ).resolve_right ?_
  rintro ⟨e, σ', hfails⟩
  -- a run that is cut short leaves legible nodes too, so there is nothing to fail for
  obtain ⟨n, hn, hillegible, -⟩ := illegible_of_fails roster context limits stop hs hfaults hfails
  have hleft := (legible_run roster context limits stop hs hlegible hroster).2
  rw [show (run roster context limits stop).run σ = (.error e, σ') from hfails] at hleft
  rw [hleft n hn] at hillegible
  cases hillegible

end Whole

/-- **What makes a run fail.**  Whatever analyzers do, and whatever storage does:

* if no call fails, every run answers;
* an error of a run, or of a commit of what a pass finishes, is one that storage brought about, by
  itself or for nodes that are left.

Where storage is in order, it is a question of depth:

* if all nodes are legible and all that is set on legible nodes is legible, every run answers;
* a run that answers could read all nodes before each of its passes;
* a run or a commit that fails leaves a node that cannot be read back, and that is what its error
  says; it is never the refusal of an edge without its ends or of a ledger row without its node. -/
theorem error_of_failed_run {γ μ : Type} [Measure μ] (roster : Roster γ μ) (context : γ)
    (limits : Limits) (stop : Nat → Bool) {σ : State μ} (hs : σ.store.Keyed) :
    (σ.Reliable → ∃ report σ', Returns (run roster context limits stop) σ report σ') ∧
    (∀ e σ', Fails (run roster context limits stop) σ e σ' → σ'.Injects e) ∧
    (∀ number e σ', Fails (Commit.pass (Run.finishing (Run.active roster context limits) context
      σ.store) number limits.batchSize) σ e σ' → σ'.Injects e) ∧
    (σ.faults = Faults.readBack →
      (σ.store.Legible → roster.Legible context →
        ∃ report σ', Returns (run roster context limits stop) σ report σ') ∧
      (∀ report σ', Returns (run roster context limits stop) σ report σ' →
        ∀ k < report.passes.length,
          (Run.after (Run.active roster context limits) context σ.store k).Legible) ∧
      ∀ e σ', (Fails (run roster context limits stop) σ e σ' ∨
          ∃ number, Fails (Commit.pass (Run.finishing (Run.active roster context limits) context
            σ.store) number limits.batchSize) σ e σ') →
        (∃ n ∈ σ'.store.allNodes, n.Refuses e) ∧
        (∀ edge missing, e ≠ Store.missingEndError edge missing) ∧ e ≠ Store.danglingRowError) := by
  have hcommit : ∀ number e σ', Fails (Commit.pass (Run.finishing (Run.active roster context limits)
      context σ.store) number limits.batchSize) σ e σ' → σ'.Injects e ∧ σ'.faults = σ.faults := by
    intro number e σ' h
    obtain ⟨hinjects, k, hreaches, -⟩ :=
      (Commit.withstands_pass _ number _ σ (Run.grounded_finishing hs)).fails h
    exact ⟨hinjects, hreaches.faults⟩
  refine ⟨exists_returns_run roster context limits stop hs,
    fun e σ' h => (Run.interrupted_of_fails hs h).1, fun number e σ' h => (hcommit number e σ' h).1,
    fun hfaults => ⟨exists_returns_of_legible roster context limits stop hs hfaults,
      fun report σ' h => (Run.legible_of_returns hs hfaults h).1, fun e σ' h => ?_⟩⟩
  have hrefuses : ∃ n ∈ σ'.store.allNodes, n.Refuses e := by
    rcases h with h | ⟨number, h⟩
    · exact illegible_of_fails roster context limits stop hs hfaults h
    · obtain ⟨hinjects, hsame⟩ := hcommit number e σ' h
      exact hinjects.of_readBack (hsame.trans hfaults)
  obtain ⟨n, hn, hrefuses⟩ := hrefuses
  exact ⟨⟨n, hn, hrefuses⟩, hrefuses.ne⟩

/-- Sees a node that is not there, joins it to another that is not there either, and adds to a sum of
a third one. -/
def rumour : Analyzer Unit Float where
  name := "rumour"
  inspect _ n :=
    { findings := (((Findings.observe {} (Node.new "b" "file")).edge ⟨"b", "c", "near", none⟩).edge
        ⟨n.id, "b", "near", none⟩).sum "d" "heard" 1.0
      verdict := .done }

/-- Crashes before it looks, or while it looks. -/
def clumsy : Analyzer Unit Float where
  name := "clumsy"
  supports n := if n.id = "a" then .error "dropped" else .ok true
  inspect _ _ := { findings := {}, verdict := .crashed "dropped" }

/-- Cannot be set up. -/
def absent : Analyzer Unit Float where
  name := "absent"
  setup _ := .error "not here"
  inspect _ _ := { findings := {}, verdict := .done }

theorem legible_unruly : Roster.Legible ⟨[rumour, clumsy, absent]⟩ () := by
  intro a ha n hn
  simp only [List.mem_cons, List.not_mem_nil, or_false] at ha
  rcases ha with rfl | rfl | rfl
  · have hseen : (Node.new "b" "file" : Node Float).legible = true := by decide +kernel
    exact (((Findings.legible_empty.observe hseen).edge _).edge _).sum "d" "heard" 1.0
  · exact Findings.legible_empty
  · exact Findings.legible_empty

/-- Three analyzers that do everything wrong make no run fail, on storage that never fails and on
storage in order. -/
theorem error_of_failed_run_unruly :
    (∃ report σ', Returns (run ⟨[rumour, clumsy, absent]⟩ () { maxPasses := 9, batchSize := 0 }
      fun _ => false) { store := Store.empty.mergeNodes [Node.new "a" "file"] } report σ') ∧
    ∃ report σ', Returns (run ⟨[rumour, clumsy, absent]⟩ () { maxPasses := 9, batchSize := 0 }
      fun _ => false) { store := Store.empty.mergeNodes [Node.new "a" "file"]
                        faults := Faults.readBack } report σ' := by
  have hs : (Store.empty.mergeNodes [(Node.new "a" "file" : Node Float)]).Keyed :=
    Store.keyed_empty.mergeNodes _
  refine ⟨(error_of_failed_run _ _ _ _ hs).1 fun _ _ _ => rfl, ?_⟩
  exact ((error_of_failed_run _ _ _ _ hs).2.2.2 rfl).1 (by decide +kernel) legible_unruly

/-- Lists in lists. -/
def Value.well : Nat → Value
  | 0 => .null
  | depth + 1 => .arr [well depth]

/-- Sets a property that is one level too deep. -/
def digger : Analyzer Unit Float where
  name := "digger"
  inspect _ n := { findings := Findings.property {} n.id "deep" (Value.well 127), verdict := .done }

/-- **A run fails though storage is in order**: the property is written, the pair is recorded as done,
and the next pass cannot read the node. -/
theorem run_fails_for_depth : ∃ e σ',
    Fails (run ⟨[digger]⟩ () { maxPasses := 9, batchSize := 10 } fun _ => false)
      { store := Store.empty.mergeNodes [Node.new "a" "file"], faults := Faults.readBack } e σ' ∧
    σ'.store.ledger.contains ⟨"digger", "a"⟩ = true ∧ ¬ σ'.store.Legible := by
  have hstops : stops (run ⟨[digger]⟩ () { maxPasses := 9, batchSize := 10 } fun _ => false)
      { store := Store.empty.mergeNodes [Node.new "a" "file"], faults := Faults.readBack }
      (fun σ' => σ'.store.ledger.contains ⟨"digger", "a"⟩ = true ∧ ¬ σ'.store.Legible) = true := by
    decide +kernel
  obtain ⟨e, σ', hfails, hleft⟩ := exists_fails hstops
  exact ⟨e, σ', hfails, of_decide_eq_true hleft⟩

end FactGraph
