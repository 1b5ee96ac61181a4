import FactGraph.Proofs.Runs

/-!
# Rules reach their least fixed point

Take analyzers that are RULES: each looks at nodes of some kinds, waits for a set of tags, and then
adds a fixed set of tags to the node.  The rules of a run say which sets of tags are closed, and the
run can only ever be blamed for two things: to add a tag that the rules do not force, or to stop
while they still force one.

* It adds nothing that is not forced, for every pass stays inside every closed set that holds the
  tags of the node at first (`Run.hasTag_mem_of_closed`).
* It stops at a closed set, for either reason that counts as a fixed point (`Run.closed_of_stop`).
  If nothing is pending, every rule that looks at the node has fired, and a rule that has fired has
  its tags (`Run.hasTag_of_contains_ledger`).  If a pass added no fact, no tag is new, so whatever a
  rule waits for now was there before the pass, and the pass would have fired it.

So the tags at the end are the least closed set (`tags_isLeast`), which mentions neither the order
of registration nor the plan, the batches or the ceiling.
-/

namespace FactGraph

open Session

/-! ## 1. Rules -/

section Rules

variable {γ μ : Type}

/-- An analyzer is a rule: it supports every node, and inspecting a node succeeds and adds the same
tags to it. -/
structure Analyzer.IsRule (a : Analyzer γ μ) (context : γ) (adds : List String) : Prop where
  supports : ∀ n, a.supports n = .ok true
  verdict : ∀ n, (a.inspect context n).verdict = .done
  findings : ∀ n, (a.inspect context n).findings = Findings.tagged n.id adds

theorem Analyzer.isRule_rule (name : String) (consumes adds targets : List String) (context : γ) :
    (Analyzer.rule name consumes adds targets : Analyzer γ μ).IsRule context adds :=
  ⟨fun _ => rfl, fun _ => rfl, fun _ => rfl⟩

end Rules

namespace Run

variable {γ μ : Type} {active : List (Active γ μ)} {context : γ} {adds : Analyzer γ μ → List String}
  {s : Store μ}

/-- All of some analyzers are rules. -/
def AreRules (active : List (Active γ μ)) (context : γ) (adds : Analyzer γ μ → List String) :
    Prop :=
  ∀ x ∈ active, x.analyzer.IsRule context (adds x.analyzer)

/-- A set of tags is closed under the rules of a kind of nodes: if it holds all that a rule waits
for, it holds all that the rule adds. -/
def Closed (among : Analyzer γ μ → Prop) (adds : Analyzer γ μ → List String) (kind : String)
    (T : Set String) : Prop :=
  ∀ a, among a → a.targetsKind kind = true →
    (∀ tag ∈ a.contract.consumes.members, tag ∈ T) → ∀ tag ∈ adds a, tag ∈ T

theorem AreRules.quiet (h : AreRules active context adds) : Quiet active context := by
  intro x hx n
  rw [(h x hx).findings]
  exact Findings.observed_tagged _ _

/-- A rule that applies fires. -/
theorem completion_rule {t : Task γ μ} {tags : List String}
    (h : t.active.analyzer.IsRule context tags) (happ : t.Applies) :
    (evaluate context t).completion? =
      some (t.finish .ran (Findings.tagged t.node.id tags) none) := by
  rw [evaluate, happ.1, h.supports]
  show some (t.conclude (t.active.analyzer.inspect context t.node)) = _
  rw [Task.conclude, h.verdict, h.findings, Findings.errors_tagged]
  rfl

/-- What rules give a node in a pass comes from a rule that applies to it. -/
theorem AreRules.exists_of_gives (h : AreRules active context adds) (hs : s.Keyed)
    {c : Completion μ} (hc : c ∈ finishing active context s) {id tag : String}
    (hgives : c.findings.Gives id tag) :
    ∃ t ∈ agenda active s, t.Applies ∧ t.node.id = id ∧ tag ∈ adds t.active.analyzer := by
  obtain ⟨t, ht, he⟩ := mem_completions.mp hc
  have happ : t.Applies := (exists_completion context).mp ⟨c, he⟩
  have hrule := h t.active ((mem_agenda hs).mp ht).1
  rw [completion_rule hrule happ] at he
  cases he
  obtain ⟨hid, htag⟩ := Findings.gives_tagged.mp hgives
  exact ⟨t, ht, happ, hid.symm, htag⟩

/-- A rule on the agenda that applies gives its tags. -/
theorem AreRules.exists_gives (h : AreRules active context adds) (hs : s.Keyed) {t : Task γ μ}
    (ht : t ∈ agenda active s) (happ : t.Applies) {tag : String}
    (htag : tag ∈ adds t.active.analyzer) :
    ∃ c ∈ finishing active context s, c.findings.Gives t.node.id tag := by
  have hrule := h t.active ((mem_agenda hs).mp ht).1
  exact ⟨_, mem_completions.mpr ⟨t, ht, completion_rule hrule happ⟩,
    Findings.gives_tagged.mpr ⟨rfl, htag⟩⟩

/-! ## 2. Nothing is added that is not forced -/

section Invariants

variable [Measure μ] {id : String} {n m : Node μ}

/-- Tags stay. -/
theorem AreRules.hasTag_after_mono (h : AreRules active context adds) (hs : s.Keyed) {i j : Nat}
    (hij : i ≤ j) {a b : Node μ} (ha : (after active context s i).node? id = some a)
    (hb : (after active context s j).node? id = some b) {tag : String}
    (htag : a.hasTag tag = true) : b.hasTag tag = true := by
  induction j, hij using Nat.le_induction generalizing b with
  | base =>
    rw [ha] at hb
    cases hb
    exact htag
  | succ j _ ih =>
    have hkeyed : (after active context s j).Keyed := keyed_after hs j
    obtain ⟨b', hb', -⟩ := exists_node?_between h.quiet hs hb j
    exact (hasTag_advance h.quiet hkeyed hb' hb tag).mpr (.inl (ih hb'))

/-- **Passes stay inside every closed set** that holds the tags of a node at first. -/
theorem hasTag_mem_of_closed (h : AreRules active context adds) (hs : s.Keyed)
    (hn : s.node? id = some n) {T : Set String} (hT : ∀ tag, n.hasTag tag = true → tag ∈ T)
    (hclosed : Closed (∃ x ∈ active, x.analyzer = ·) adds n.kind T) (i : Nat)
    (hm : (after active context s i).node? id = some m) :
    ∀ tag, m.hasTag tag = true → tag ∈ T := by
  induction i generalizing m with
  | zero =>
    rw [after_zero, hn] at hm
    cases hm
    exact hT
  | succ i ih =>
    have hkeyed : (after active context s i).Keyed := keyed_after hs i
    obtain ⟨a, ha, hkind⟩ := exists_node?_after h.quiet hs hn i
    intro tag htag
    rcases (hasTag_advance h.quiet hkeyed ha hm tag).mp htag with hold | ⟨c, hc, hgives⟩
    · exact ih ha tag hold
    · -- the rule that gave the tag had all it waits for inside the set
      obtain ⟨t, ht, happ, rfl, htag⟩ := h.exists_of_gives hkeyed hc hgives
      obtain ⟨hactive, hnode, htargets, -⟩ := (mem_agenda hkeyed).mp ht
      rw [ha] at hnode
      cases hnode
      refine hclosed _ ⟨t.active, hactive, rfl⟩ (hkind ▸ htargets) (fun tag' htag' => ?_) tag htag
      exact ih ha tag' (List.all_eq_true.mp happ.1 tag' htag')

/-! ## 3. Nothing that is forced is left out -/

/-- **A rule that has fired has its tags.** -/
theorem hasTag_of_contains_ledger (h : AreRules active context adds) (hs : s.Keyed)
    (hnames : (active.map (·.analyzer.name)).Nodup) {x : Active γ μ} (hx : x ∈ active)
    (hfresh : s.ledger.contains ⟨x.analyzer.name, id⟩ = false) {i : Nat}
    (hledger : (after active context s i).ledger.contains ⟨x.analyzer.name, id⟩ = true)
    (hm : (after active context s i).node? id = some m) :
    ∀ tag ∈ adds x.analyzer, m.hasTag tag = true := by
  induction i generalizing m with
  | zero =>
    rw [after_zero, hfresh] at hledger
    cases hledger
  | succ i ih =>
    have hkeyed : (after active context s i).Keyed := keyed_after hs i
    obtain ⟨a, ha, -⟩ := exists_node?_between h.quiet hs hm i
    intro tag htag
    rw [hasTag_advance h.quiet hkeyed ha hm]
    rcases (contains_ledger_advance _ _).mp hledger with hnow | hbefore
    · obtain ⟨n, htask, rfl, happ⟩ := exists_task_of_finishing hkeyed hnames hx hnow
      exact .inr (h.exists_gives hkeyed htask happ htag)
    · exact .inl (ih hbefore ha tag htag)

/-- A pass of rules loses no metric. -/
theorem AreRules.keepsMetrics_advance (h : AreRules active context adds) (hs : s.Keyed)
    (hfinite : s.FiniteMetrics) (number : Nat) :
    s.KeepsMetrics (advance active context number s) := by
  refine Commit.keepsMetrics_committed hs hfinite (not_observes_finishing h.quiet hs)
    fun c hc id p hp => ?_
  obtain ⟨t, ht, he⟩ := mem_completions.mp hc
  have hrule := h t.active ((mem_agenda hs).mp ht).1
  rw [completion_rule hrule ((exists_completion context).mp ⟨c, he⟩)] at he
  cases he
  exact Findings.metrics_patch_tagged id p hp

/-- **A run stops at a closed set**, whichever reason makes it a fixed point. -/
theorem closed_of_stop (h : AreRules active context adds) (hs : s.Keyed)
    (hfinite : s.FiniteMetrics) (hnames : (active.map (·.analyzer.name)).Nodup)
    (hfresh : ∀ x ∈ active, ∀ id, s.ledger.contains ⟨x.analyzer.name, id⟩ = false)
    {ceiling k : Nat} {reason : StopReason} (hends : Ends active context s ceiling k reason)
    (hstop : reason.isFixedPoint = true) (hm : (after active context s k).node? id = some m) :
    Closed (∃ x ∈ active, x.analyzer = ·) adds m.kind {tag | m.hasTag tag = true} := by
  rintro _ ⟨x, hx, rfl⟩ htargets hconsumes
  refine hasTag_of_contains_ledger h hs hnames hx (hfresh x hx id) ?_ hm
  have hkeyed : (after active context s k).Keyed := keyed_after hs k
  refine Classical.byContradiction fun hnot => ?_
  cases reason with
  | passCeiling => cases hstop
  | cancelled => cases hstop
  | converged =>
    -- the pair would be on an agenda that is empty
    have hid : m.id = id := hkeyed.own id m hm
    have htask : (⟨x, m⟩ : Task γ μ) ∈ agenda active (after active context s k) := by
      refine (mem_agenda hkeyed).mpr ⟨hx, hid ▸ hm, htargets, ?_⟩
      exact Bool.eq_false_iff.mpr fun hheld => hnot (hid ▸ hheld)
    rw [hends.converged rfl] at htask
    cases htask
  | noProgress =>
    obtain ⟨j, rfl, hfacts⟩ := hends.noProgress rfl
    have hkeyed : (after active context s j).Keyed := keyed_after hs j
    have hmetrics := h.keepsMetrics_advance hkeyed (finiteMetrics_after hfinite j) (j + 1)
    -- the last pass gave the node no tag, so the rule had all it waits for before it
    obtain ⟨a, ha, htags⟩ := same_tags_of_factCount_eq hkeyed hmetrics hfacts hm
    obtain ⟨a', ha', hkind⟩ := exists_node?_between h.quiet hs hm j
    rw [ha] at ha'
    cases ha'
    have hblocked := blocked_of_pending hkeyed hx (Bool.eq_false_iff.mpr hnot)
    refine hblocked a ha (hkind ▸ htargets) ⟨?_, ?_⟩
    · refine List.all_eq_true.mpr fun tag htag => ?_
      rw [Node.hasTag, htags]
      exact hconsumes tag htag
    · simp [(h x hx).supports]

/-! ## 4. The least fixed point -/

/-- The tags of a node when an iteration stops are the least closed set over those it had. -/
theorem isLeast_of_stop (h : AreRules active context adds) (hs : s.Keyed)
    (hfinite : s.FiniteMetrics) (hnames : (active.map (·.analyzer.name)).Nodup)
    (hfresh : ∀ x ∈ active, ∀ id, s.ledger.contains ⟨x.analyzer.name, id⟩ = false)
    {ceiling k : Nat} {reason : StopReason} (hends : Ends active context s ceiling k reason)
    (hstop : reason.isFixedPoint = true) (hn : s.node? id = some n)
    (hm : (after active context s k).node? id = some m) :
    IsLeast {T | (∀ tag, n.hasTag tag = true → tag ∈ T) ∧
      Closed (∃ x ∈ active, x.analyzer = ·) adds n.kind T} {tag | m.hasTag tag = true} := by
  obtain ⟨n', hn', hkind⟩ := exists_node?_of_after h.quiet hs hm
  rw [hn] at hn'
  cases hn'
  refine ⟨⟨fun tag htag => ?_, ?_⟩, fun T hT tag htag => ?_⟩
  · exact h.hasTag_after_mono hs (Nat.zero_le k) hn hm htag
  · rw [← hkind]
    exact closed_of_stop h hs hfinite hnames hfresh hends hstop hm
  · exact hasTag_mem_of_closed h hs hn hT.1 hT.2 k hm tag htag

end Invariants

end Run

section Whole

variable {γ μ : Type} [Measure μ] {roster : Roster γ μ} {context : γ} {limits : Limits}
  {stop : Nat → Bool} {adds : Analyzer γ μ → List String} {σ σ' : State μ} {report : Report}

/-- The rules of a run that stopped at a fixed point: the nodes are the same, and each has the least
closed set of tags. -/
theorem Run.isLeast_of_returns (hreg : roster.Registered) (hs : σ.store.Keyed)
    (hfinite : σ.store.FiniteMetrics)
    (hrules : ∀ a, Run.TakesPart roster context limits a → a.IsRule context (adds a))
    (hfresh : ∀ a, Run.TakesPart roster context limits a →
      ∀ id, σ.store.ledger.contains ⟨a.name, id⟩ = false)
    (hrun : Returns (run roster context limits stop) σ report σ')
    (hstop : report.stop.isFixedPoint = true) :
    (∀ id, σ'.store.contains id = σ.store.contains id) ∧
      ∀ id n n', σ.store.node? id = some n → σ'.store.node? id = some n' →
        IsLeast {T | (∀ tag, n.hasTag tag = true → tag ∈ T) ∧
          Run.Closed (Run.TakesPart roster context limits) adds n.kind T}
          {tag | n'.hasTag tag = true} := by
  obtain ⟨hstore, hends⟩ := returns_run hs hrun
  have hrules' : Run.AreRules (Run.active roster context limits) context adds :=
    fun x hx => hrules x.analyzer (Run.exists_active.mp ⟨x, hx, rfl⟩)
  have hfresh' : ∀ x ∈ Run.active roster context limits,
      ∀ id, σ.store.ledger.contains ⟨x.analyzer.name, id⟩ = false :=
    fun x hx => hfresh x.analyzer (Run.exists_active.mp ⟨x, hx, rfl⟩)
  have hamong : (∃ x ∈ Run.active roster context limits, x.analyzer = ·) =
      Run.TakesPart roster context limits :=
    funext fun a => propext Run.exists_active
  rw [hstore]
  refine ⟨Run.contains_after hrules'.quiet hs _, fun id n n' hn hn' => ?_⟩
  rw [← hamong]
  have hnames : ((Run.active roster context limits).map (·.analyzer.name)).Nodup :=
    Run.nodup_active_names hreg.nodup_names
  exact Run.isLeast_of_stop hrules' hs hfinite hnames hfresh' hends hstop hn hn'

/-- **Rules reach their least fixed point.**  If a run of rules that have not fired yet stops
because there is nothing more to find, no node has come or gone, and the tags of every node are the
least set that holds those it had and is closed under the rules that take part.  So any other run in
which the same rules take part, however they are registered, planned and written, ends with the same
tags. -/
theorem tags_isLeast (hreg : roster.Registered) (hs : σ.store.Keyed)
    (hfinite : σ.store.FiniteMetrics)
    (hrules : ∀ a, Run.TakesPart roster context limits a → a.IsRule context (adds a))
    (hfresh : ∀ a, Run.TakesPart roster context limits a →
      ∀ id, σ.store.ledger.contains ⟨a.name, id⟩ = false)
    (hrun : Returns (run roster context limits stop) σ report σ')
    (hstop : report.stop.isFixedPoint = true) :
    (∀ id, σ'.store.contains id = σ.store.contains id) ∧
      (∀ id n n', σ.store.node? id = some n → σ'.store.node? id = some n' →
        IsLeast {T | (∀ tag, n.hasTag tag = true → tag ∈ T) ∧
          Run.Closed (Run.TakesPart roster context limits) adds n.kind T}
          {tag | n'.hasTag tag = true}) ∧
      ∀ (roster' : Roster γ μ) (limits' : Limits) (stop' : Nat → Bool) (τ τ' : State μ)
        (report' : Report), roster'.Registered →
        (∀ a, Run.TakesPart roster' context limits' a ↔ Run.TakesPart roster context limits a) →
        τ.store = σ.store → Returns (run roster' context limits' stop') τ report' τ' →
        report'.stop.isFixedPoint = true →
        ∀ id, (τ'.store.node? id).map Node.tags = (σ'.store.node? id).map Node.tags := by
  obtain ⟨hids, hleast⟩ := Run.isLeast_of_returns hreg hs hfinite hrules hfresh hrun hstop
  refine ⟨hids, hleast, ?_⟩
  intro roster' limits' stop' τ τ' report' hreg' hsame hstore hrun' hstop' id
  have hpart : Run.TakesPart roster' context limits' = Run.TakesPart roster context limits :=
    funext fun a => propext (hsame a)
  rw [← hpart] at hrules hfresh
  rw [← hstore] at hs hfinite hfresh
  obtain ⟨hids', hleast'⟩ := Run.isLeast_of_returns hreg' hs hfinite hrules hfresh hrun' hstop'
  rw [hpart, hstore] at hleast'
  rw [hstore] at hids'
  have hboth : τ'.store.contains id = σ'.store.contains id := (hids' id).trans (hids id).symm
  cases hn' : σ'.store.node? id with
  | none =>
    rw [Store.contains_eq_isSome, Store.contains_eq_isSome, hn', Option.isSome_none,
      Option.isSome_eq_false_iff, Option.isNone_iff_eq_none] at hboth
    rw [hboth]
  | some n' =>
    rw [Store.contains_iff.mpr ⟨n', hn'⟩, Store.contains_iff] at hboth
    obtain ⟨m', hm'⟩ := hboth
    have hthere : σ.store.contains id = true :=
      (hids id).symm.trans (Store.contains_iff.mpr ⟨n', hn'⟩)
    obtain ⟨n, hn⟩ := Store.contains_iff.mp hthere
    have htags := (hleast' id n m' hn hm').unique (hleast id n n' hn hn')
    rw [hm', Option.map_some, Option.map_some]
    exact congrArg some (KeySet.ext_contains fun tag => Set.ext_iff.mp htags tag)

end Whole

/-- Three rules, two of which wait for each other. -/
def circle : Roster Unit Float :=
  ⟨[Analyzer.rule "even" ["odd"] ["even"], Analyzer.rule "odd" ["even"] ["last", "odd"],
    Analyzer.rule "zero" [] ["even"]]⟩

/-- The rules of the circle on a single number. -/
theorem tags_isLeast_circle : ∃ report σ',
    Returns (run circle () { maxPasses := 9, batchSize := 1 } fun _ => false)
      { store := Store.empty.mergeNodes [(Node.new "n" "number").tag "first"] } report σ' ∧
    report.stop = .noProgress ∧
    (σ'.store.node? "n").map (·.tags.members) = some ["even", "first", "last", "odd"] ∧
    ∀ n', σ'.store.node? "n" = some n' →
      IsLeast {T | (∀ tag, ((Node.new "n" "number").tag "first" : Node Float).hasTag tag = true →
          tag ∈ T) ∧
        Run.Closed (Run.TakesPart circle () { maxPasses := 9, batchSize := 1 })
          (·.contract.produces.members) "number" T}
        {tag | n'.hasTag tag = true} := by
  let σ : State Float := { store := Store.empty.mergeNodes [(Node.new "n" "number").tag "first"] }
  let limits : Limits := { maxPasses := 9, batchSize := 1 }
  have hanswers : answers (run circle () limits fun _ => false) σ
      (fun report => report.stop = .noProgress) = true := by decide +kernel
  obtain ⟨report, hrun, hstop⟩ := exists_returns hanswers
  have hstop : report.stop = .noProgress := of_decide_eq_true hstop
  have hrules : ∀ a, Run.TakesPart circle () limits a →
      a.IsRule () a.contract.produces.members := by
    rintro a ⟨ha, -⟩
    fin_cases ha <;> exact Analyzer.isRule_rule _ _ _ _ _
  have hleast := tags_isLeast ⟨circle.analyzers, rfl⟩ (Store.keyed_empty.mergeNodes _)
    (Store.finiteMetrics_empty.mergeNodes _) hrules (fun a _ id => rfl) hrun (by rw [hstop]; rfl)
  refine ⟨report, _, hrun, hstop, by decide +kernel, fun n' hn' => ?_⟩
  exact hleast.2.1 "n" _ n' rfl hn'

end FactGraph
