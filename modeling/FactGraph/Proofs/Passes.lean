import FactGraph.Proofs.Growth
import FactGraph.Proofs.Rosters

/-!
# Passes

A pass is a function on stores.  Its tasks are read off the store (`Run.agenda`), what they finish
is read off the tasks (`Run.finishing`), and the store that it leaves is the commit of that
(`Run.advance`).  The store after any number of passes is the iterate (`Run.after`).

What makes a pass safe to repeat is said once here.

* A pair is finished in a pass exactly when it is on the agenda and applies
  (`Run.pair_mem_finishing`); so none that the ledger holds is finished again.
* No pair is finished twice in a pass (`Run.nodup_finishing`): names tell analyzers apart and ids
  tell nodes apart.
* Every finished pair is about a stored node, and commits never remove nodes, so the ledger of a
  pass is never refused (`Run.grounded_finishing`).
* Afterwards the ledger holds what it held and what the pass finished
  (`Run.contains_ledger_advance`); so what is pending after a pass the pass could not do, and the
  other way round (`Run.blocked_of_pending`, `Run.pending_of_blocked`).
-/

namespace FactGraph

namespace Run

variable {γ μ : Type}

/-! ## 1. Evaluation -/

/-- A task can be done now: its node has every consumed tag, and its analyzer does not put it
off. -/
def Task.Applies (t : Task γ μ) : Prop :=
  t.node.hasAllTags t.active.analyzer.contract.consumes.members = true ∧
    t.active.analyzer.supports t.node ≠ .ok false

/-- An inspection only decides how its task finishes. -/
theorem Task.exists_conclude (t : Task γ μ) (result : Inspection μ) :
    ∃ outcome findings message, t.conclude result = t.finish outcome findings message := by
  rw [conclude]
  cases result.verdict with
  | done => dsimp only; split <;> exact ⟨_, _, _, rfl⟩
  | notApplicable => exact ⟨_, _, _, rfl⟩
  | failed _ => exact ⟨_, _, _, rfl⟩
  | crashed _ => exact ⟨_, _, _, rfl⟩

/-- **What evaluation can come to**: the task is put off and does not apply, or it applies and ends
in a crash of the test or in the conclusion of the inspection. -/
theorem evaluate_cases (context : γ) (t : Task γ μ) :
    (evaluate context t = .deferred ∧ ¬ t.Applies) ∨
      (t.Applies ∧ ∃ message,
        evaluate context t = .finished (t.fail ("panicked in supports: " ++ message)) false) ∨
      (t.Applies ∧ t.active.analyzer.supports t.node = .ok true ∧
        evaluate context t = .finished (t.conclude (t.active.analyzer.inspect context t.node))
          (t.active.analyzer.inspect context t.node).cancels) := by
  cases htags : t.node.hasAllTags t.active.analyzer.contract.consumes.members with
  | false =>
    refine .inl ⟨?_, fun h => ?_⟩
    · rw [evaluate, htags]; rfl
    · rw [h.1] at htags; cases htags
  | true =>
    cases hsupports : t.active.analyzer.supports t.node with
    | error message =>
      refine .inr (.inl ⟨⟨htags, by simp [hsupports]⟩, message, ?_⟩)
      rw [evaluate, htags, hsupports]; rfl
    | ok answer =>
      cases answer with
      | false =>
        refine .inl ⟨?_, fun h => h.2 hsupports⟩
        rw [evaluate, htags, hsupports]; rfl
      | true =>
        refine .inr (.inr ⟨⟨htags, by simp [hsupports]⟩, rfl, ?_⟩)
        rw [evaluate, htags, hsupports]; rfl

theorem exists_finish_of_completion {context : γ} {t : Task γ μ} {c : Completion μ}
    (h : (evaluate context t).completion? = some c) :
    ∃ outcome findings message, c = t.finish outcome findings message := by
  rcases evaluate_cases context t with ⟨he, -⟩ | ⟨-, message, he⟩ | ⟨-, -, he⟩ <;> rw [he] at h
  · cases h
  · cases h; exact ⟨_, _, _, rfl⟩
  · cases h; exact t.exists_conclude _

theorem pair_of_completion {context : γ} {t : Task γ μ} {c : Completion μ}
    (h : (evaluate context t).completion? = some c) : c.pair = t.pair := by
  obtain ⟨_, _, _, rfl⟩ := exists_finish_of_completion h
  rfl

/-- What a finished task found: what the inspection found, or nothing, or that it failed. -/
theorem findings_of_completion {context : γ} {t : Task γ μ} {c : Completion μ}
    (h : (evaluate context t).completion? = some c) :
    c.findings = (t.active.analyzer.inspect context t.node).findings ∨ c.findings = {} ∨
      ∃ message, c.findings = Findings.failure t.active.analyzer.name t.node.id message := by
  rcases evaluate_cases context t with ⟨he, -⟩ | ⟨-, message, he⟩ | ⟨-, -, he⟩ <;> rw [he] at h
  · cases h
  · cases h
    exact .inr (.inr ⟨_, rfl⟩)
  · cases h
    rw [Task.conclude]
    cases (t.active.analyzer.inspect context t.node).verdict with
    | done =>
      dsimp only
      split
      · exact .inl rfl
      · exact .inl rfl
    | notApplicable => exact .inr (.inl rfl)
    | failed message => exact .inr (.inr ⟨_, rfl⟩)
    | crashed message => exact .inr (.inr ⟨_, rfl⟩)

theorem exists_completion (context : γ) {t : Task γ μ} :
    (∃ c, (evaluate context t).completion? = some c) ↔ t.Applies := by
  rcases evaluate_cases context t with ⟨he, hnot⟩ | ⟨happ, message, he⟩ | ⟨happ, -, he⟩ <;> rw [he]
  · refine ⟨?_, fun h => absurd h hnot⟩
    rintro ⟨c, hc⟩
    cases hc
  · exact ⟨fun _ => happ, fun _ => ⟨_, rfl⟩⟩
  · exact ⟨fun _ => happ, fun _ => ⟨_, rfl⟩⟩

/-! ## 2. Rules -/

end Run

/-- What is found by adding tags to a node, one after the other. -/
def Findings.tagged {μ : Type} (id : String) (tags : List String) : Findings μ :=
  tags.foldl (fun f tag => f.tag id tag) {}

namespace Findings

variable {μ : Type}

theorem tagged_concat (id : String) (tags : List String) (tag : String) :
    (tagged id (tags ++ [tag]) : Findings μ) = (tagged id tags).tag id tag := by
  rw [tagged, List.foldl_append]
  rfl

theorem observed_tagged (id : String) (tags : List String) :
    (tagged id tags : Findings μ).observed = [] := by
  induction tags using List.reverseRecOn with
  | nil => rfl
  | append_singleton tags tag ih =>
    rw [tagged_concat]
    exact ih

theorem errors_tagged (id : String) (tags : List String) :
    (tagged id tags : Findings μ).errors = [] := by
  induction tags using List.reverseRecOn with
  | nil => rfl
  | append_singleton tags tag ih =>
    rw [tagged_concat]
    exact ih

theorem gives_tagged {id id' tag : String} {tags : List String} :
    (tagged id tags : Findings μ).Gives id' tag ↔ id' = id ∧ tag ∈ tags := by
  induction tags using List.reverseRecOn with
  | nil =>
    refine ⟨?_, fun h => absurd h.2 List.not_mem_nil⟩
    rintro ⟨p, hp, -⟩
    cases hp
  | append_singleton tags t ih =>
    rw [tagged_concat, gives_tag, ih, List.mem_append, List.mem_singleton, ← and_or_left, or_comm]

theorem metrics_patch_tagged {id : String} {tags : List String} :
    ∀ id' p, (tagged id tags : Findings μ).patches.get? id' = some p →
      p.metrics = ∅ ∧ p.sums = ∅ := by
  induction tags using List.reverseRecOn with
  | nil => exact nofun
  | append_singleton tags t ih =>
    intro id' p hp
    rw [tagged_concat, tag, patch, Table.get?_modify] at hp
    split at hp
    · cases hp
      cases hpatch : (tagged id tags : Findings μ).patches.get? id with
      | none => exact ⟨rfl, rfl⟩
      | some q => exact ih id q hpatch
    · exact ih id' p hp

end Findings

/-- The simplest analyzer: wherever it applies it succeeds and adds the same tags to the node. -/
def Analyzer.rule {γ μ : Type} (name : String) (consumes adds : List String)
    (targets : List String := []) : Analyzer γ μ where
  name := name
  contract := { consumes := KeySet.ofMembers consumes, produces := KeySet.ofMembers adds }
  targets := targets
  inspect _ n := { findings := Findings.tagged n.id adds, verdict := .done }

namespace Run

variable {γ μ : Type}

/-! ## 3. One pass -/

/-- The tasks of a pass over a store. -/
def agenda (active : List (Active γ μ)) (s : Store μ) : List (Task γ μ) :=
  pending active s.allNodes s.finished

/-- What a pass over some tasks finishes. -/
def completions (context : γ) (tasks : List (Task γ μ)) : List (Completion μ) :=
  (tasks.map (evaluate context)).filterMap Evaluation.completion?

/-- What a pass over a store finishes. -/
def finishing (active : List (Active γ μ)) (context : γ) (s : Store μ) : List (Completion μ) :=
  completions context (agenda active s)

theorem mem_completions {context : γ} {tasks : List (Task γ μ)} {c : Completion μ} :
    c ∈ completions context tasks ↔ ∃ t ∈ tasks, (evaluate context t).completion? = some c := by
  rw [completions, List.filterMap_map, List.mem_filterMap]
  rfl

variable {active : List (Active γ μ)} {context : γ} {s : Store μ}

theorem mem_agenda (hs : s.Keyed) {t : Task γ μ} :
    t ∈ agenda active s ↔
      t.active ∈ active ∧ s.node? t.node.id = some t.node ∧
        t.active.analyzer.targetsKind t.node.kind = true ∧ s.ledger.contains t.pair = false := by
  rw [agenda, pending, List.mem_flatMap]
  constructor
  · rintro ⟨a, ha, ht⟩
    obtain ⟨n, hn, rfl⟩ := List.mem_map.mp ht
    obtain ⟨hmem, htest⟩ := List.mem_filter.mp hn
    rw [Bool.and_eq_true, Bool.not_eq_true', Store.contains_finished] at htest
    exact ⟨ha, hs.mem_allNodes.mp hmem, htest⟩
  · rintro ⟨ha, hn, hkind, hledger⟩
    refine ⟨t.active, ha, List.mem_map.mpr ⟨t.node, List.mem_filter.mpr ⟨?_, ?_⟩, rfl⟩⟩
    · exact hs.mem_allNodes.mpr hn
    · rw [Bool.and_eq_true, Bool.not_eq_true', Store.contains_finished]
      exact ⟨hkind, hledger⟩

/-- **A pair is finished in a pass exactly when it is on the agenda and applies.** -/
theorem pair_mem_finishing {pair : Pair} :
    pair ∈ (finishing active context s).map Completion.pair ↔
      ∃ t ∈ agenda active s, t.pair = pair ∧ t.Applies := by
  rw [List.mem_map]
  constructor
  · rintro ⟨c, hc, rfl⟩
    obtain ⟨t, ht, he⟩ := mem_completions.mp hc
    exact ⟨t, ht, (pair_of_completion he).symm, (exists_completion context).mp ⟨c, he⟩⟩
  · rintro ⟨t, ht, rfl, happ⟩
    obtain ⟨c, he⟩ := (exists_completion context).mpr happ
    exact ⟨c, mem_completions.mpr ⟨t, ht, he⟩, pair_of_completion he⟩

/-- What a pass finishes under the name of an analyzer is a task of that analyzer, for names tell
analyzers apart. -/
theorem exists_task_of_finishing (hs : s.Keyed) (hnames : (active.map (·.analyzer.name)).Nodup)
    {x : Active γ μ} (hx : x ∈ active) {id : String}
    (h : (⟨x.analyzer.name, id⟩ : Pair) ∈ (finishing active context s).map Completion.pair) :
    ∃ n, (⟨x, n⟩ : Task γ μ) ∈ agenda active s ∧ n.id = id ∧ (⟨x, n⟩ : Task γ μ).Applies := by
  obtain ⟨t, ht, hpair, happ⟩ := pair_mem_finishing.mp h
  have hsame : t.active = x :=
    List.inj_on_of_nodup_map hnames ((mem_agenda hs).mp ht).1 hx (congrArg Pair.analyzer hpair)
  subst hsame
  exact ⟨t.node, ht, congrArg Pair.node hpair, happ⟩

/-- None of some analyzers observes a node. -/
def Quiet (active : List (Active γ μ)) (context : γ) : Prop :=
  ∀ x ∈ active, ∀ n, (x.analyzer.inspect context n).findings.observed = []

theorem observed_finishing (hquiet : Quiet active context) (hs : s.Keyed) {c : Completion μ}
    (hc : c ∈ finishing active context s) : c.findings.observed = [] := by
  obtain ⟨t, ht, he⟩ := mem_completions.mp hc
  rcases findings_of_completion he with h | h | ⟨message, h⟩ <;> rw [h]
  · exact hquiet t.active ((mem_agenda hs).mp ht).1 t.node
  · rfl

theorem not_observes_finishing (hquiet : Quiet active context) (hs : s.Keyed) (id : String) :
    ¬ Commit.Observes (finishing active context s) id := by
  rintro ⟨c, hc, seen, hseen, -⟩
  rw [observed_finishing hquiet hs hc] at hseen
  cases hseen

/-- What the ledger holds is not finished again. -/
theorem not_contains_of_finishing (hs : s.Keyed) {pair : Pair}
    (h : pair ∈ (finishing active context s).map Completion.pair) :
    s.ledger.contains pair = false := by
  obtain ⟨t, ht, rfl, -⟩ := pair_mem_finishing.mp h
  exact ((mem_agenda hs).mp ht).2.2.2

/-- What tells finished tasks apart tells tasks apart. -/
theorem map_completions_sublist {β : Type} {label : Completion μ → β} {label' : Task γ μ → β}
    (h : ∀ t c, (evaluate context t).completion? = some c → label c = label' t)
    (tasks : List (Task γ μ)) :
    ((completions context tasks).map label).Sublist (tasks.map label') := by
  induction tasks with
  | nil => exact List.Sublist.refl _
  | cons t rest ih =>
    rw [completions, List.map_cons, List.filterMap_cons, List.map_cons]
    cases he : (evaluate context t).completion? with
    | none => exact ih.cons _
    | some c =>
      dsimp only
      rw [List.map_cons, h t c he]
      exact ih.cons_cons _

/-- Whatever tells analyzers apart, together with ids it tells the tasks of a pass apart. -/
theorem nodup_agenda {β : Type} {label : Active γ μ → β} (hs : s.Keyed)
    (hactive : (active.map label).Nodup) :
    ((agenda active s).map fun t => (label t.active, t.node.id)).Nodup := by
  rw [agenda, pending, List.map_flatMap, List.nodup_flatMap]
  constructor
  · intro a _
    have hids := hs.nodup_ids
    rw [List.Nodup, List.pairwise_map] at hids
    rw [List.map_map, List.Nodup, List.pairwise_map]
    refine (hids.sublist List.filter_sublist).imp fun {m n} hne heq => hne ?_
    exact congrArg Prod.snd heq
  · rw [List.Nodup, List.pairwise_map] at hactive
    refine hactive.imp fun {a b} hne => ?_
    rw [Function.onFun, List.disjoint_left]
    intro pair ha hb
    rw [List.map_map] at ha hb
    obtain ⟨m, -, rfl⟩ := List.mem_map.mp ha
    obtain ⟨n, -, heq⟩ := List.mem_map.mp hb
    exact hne (congrArg Prod.fst heq).symm

/-- **No pair is finished twice in a pass.** -/
theorem nodup_finishing (hs : s.Keyed) (hactive : (active.map (·.analyzer.name)).Nodup) :
    ((finishing active context s).map Completion.pair).Nodup := by
  have hpairs : (((finishing active context s).map Completion.pair).map
      fun pair => (pair.analyzer, pair.node)).Nodup := by
    rw [List.map_map]
    refine (nodup_agenda hs hactive).sublist (map_completions_sublist (fun t c he => ?_) _)
    rw [Function.comp_apply, pair_of_completion he]
    rfl
  exact hpairs.of_map

/-- No two results of a pass are about the same node and from the same position. -/
theorem nodup_places_finishing (hs : s.Keyed) (hactive : (active.map (·.position)).Nodup) :
    ((finishing active context s).map fun c => (c.position, c.pair.node)).Nodup := by
  refine (nodup_agenda hs hactive).sublist (map_completions_sublist (fun t c he => ?_) _)
  obtain ⟨_, _, _, rfl⟩ := exists_finish_of_completion he
  rfl

/-- A pass over a store cannot do a pair: the node is not there, is of a kind that is not looked at,
or the pair does not apply to it. -/
def Blocked (x : Active γ μ) (s : Store μ) (id : String) : Prop :=
  ∀ m, s.node? id = some m → x.analyzer.targetsKind m.kind = true → ¬ (⟨x, m⟩ : Task γ μ).Applies

section Commit

variable [Measure μ]

/-- **What a pass finishes is about stored nodes**, so its ledger rows are never refused. -/
theorem grounded_finishing (hs : s.Keyed) :
    Commit.grounded s (finishing active context s) = true := by
  refine Commit.grounded_of_contains hs fun c hc => ?_
  obtain ⟨t, ht, he⟩ := mem_completions.mp hc
  refine Store.contains_iff.mpr ⟨t.node, ?_⟩
  rw [pair_of_completion he]
  exact ((mem_agenda hs).mp ht).2.1

/-- The store that a pass leaves. -/
def advance (active : List (Active γ μ)) (context : γ) (number : Nat) (s : Store μ) : Store μ :=
  Commit.committed s (finishing active context s) number

/-- **The ledger gains exactly what the pass finished.** -/
theorem contains_ledger_advance (number : Nat) (pair : Pair) :
    (advance active context number s).ledger.contains pair = true ↔
      pair ∈ (finishing active context s).map Completion.pair ∨ s.ledger.contains pair = true :=
  Commit.contains_ledger_committed s _ number pair

/-- A pass that finishes nothing changes nothing. -/
theorem advance_of_finishing_nil (number : Nat) (h : finishing active context s = []) :
    advance active context number s = s := by
  rw [advance, h, Commit.committed_nil]

/-- **What a pass leaves pending it could not do.** -/
theorem blocked_of_pending (hs : s.Keyed) {x : Active γ μ} (hx : x ∈ active) {number : Nat}
    {id : String}
    (h : (advance active context number s).ledger.contains ⟨x.analyzer.name, id⟩ = false) :
    Blocked x s id := by
  intro m hm htargets happ
  have hid : m.id = id := hs.own id m hm
  have hpair : (⟨x, m⟩ : Task γ μ).pair = ⟨x.analyzer.name, id⟩ := by rw [Task.pair, hid]
  have htask : (⟨x, m⟩ : Task γ μ) ∈ agenda active s := by
    refine (mem_agenda hs).mpr ⟨hx, hid ▸ hm, htargets, Bool.eq_false_iff.mpr fun hheld => ?_⟩
    rw [(contains_ledger_advance number _).mpr (.inr (hpair ▸ hheld))] at h
    cases h
  rw [(contains_ledger_advance number _).mpr
    (.inl (pair_mem_finishing.mpr ⟨_, htask, hpair, happ⟩))] at h
  cases h

/-- What a pass could not do it leaves pending. -/
theorem pending_of_blocked (hs : s.Keyed) (hnames : (active.map (·.analyzer.name)).Nodup)
    {x : Active γ μ} (hx : x ∈ active) {number : Nat} {id : String}
    (hopen : s.ledger.contains ⟨x.analyzer.name, id⟩ = false) (h : Blocked x s id) :
    (advance active context number s).ledger.contains ⟨x.analyzer.name, id⟩ = false := by
  refine Bool.eq_false_iff.mpr fun hheld => ?_
  rcases (contains_ledger_advance number _).mp hheld with hnow | hbefore
  · obtain ⟨n, htask, rfl, happ⟩ := exists_task_of_finishing hs hnames hx hnow
    obtain ⟨-, hnode, htargets, -⟩ := (mem_agenda hs).mp htask
    exact h n hnode htargets happ
  · rw [hopen] at hbefore
    cases hbefore

/-- If the counter stands still and no metric is lost, every node was there with its tags. -/
theorem same_tags_of_factCount_eq (hs : s.Keyed) {number : Nat}
    (hmetrics : s.KeepsMetrics (advance active context number s))
    (hfacts : (advance active context number s).factCount = s.factCount) {id : String} {n : Node μ}
    (hn : (advance active context number s).node? id = some n) :
    ∃ m, s.node? id = some m ∧ m.tags = n.tags := by
  have hgrows : s.Grows (advance active context number s) :=
    Commit.grows_committed hs _ number hmetrics
  have hkeyed : (advance active context number s).Keyed := Commit.keyed_committed hs _ number
  obtain ⟨m, hm, hback⟩ := (hgrows.symm_of_factCount_eq hs hkeyed hfacts.symm).nodes id n hn
  obtain ⟨n', hn', hforth⟩ := hgrows.nodes id m hm
  rw [hn] at hn'
  cases hn'
  exact ⟨m, hm, KeySet.ext_contains fun tag => ⟨hforth.tags tag, hback.tags tag⟩⟩

/-! ## 4. Passes one after the other -/

/-- The store after some passes; passes are numbered from one. -/
def after (active : List (Active γ μ)) (context : γ) (s : Store μ) : Nat → Store μ
  | 0 => s
  | n + 1 => advance active context (n + 1) (after active context s n)

@[simp] theorem after_zero : after active context s 0 = s := rfl

theorem after_succ (n : Nat) :
    after active context s (n + 1) = advance active context (n + 1) (after active context s n) :=
  rfl

theorem keyed_after (hs : s.Keyed) (n : Nat) : (after active context s n).Keyed := by
  induction n with
  | zero => exact hs
  | succ n ih => exact Commit.keyed_committed ih _ _

theorem finiteMetrics_after (hs : s.FiniteMetrics) (n : Nat) :
    (after active context s n).FiniteMetrics := by
  induction n with
  | zero => exact hs
  | succ n ih => exact Commit.finiteMetrics_committed ih _ _

/-- The ledger only grows. -/
theorem contains_ledger_after_mono {m n : Nat} (hmn : m ≤ n) {pair : Pair}
    (h : (after active context s m).ledger.contains pair = true) :
    (after active context s n).ledger.contains pair = true := by
  induction n, hmn using Nat.le_induction with
  | base => exact h
  | succ n _ ih => exact (contains_ledger_advance _ _).mpr (.inr ih)

/-- The pairs that some passes finish, in order. -/
def pairsUpTo (active : List (Active γ μ)) (context : γ) (s : Store μ) (n : Nat) : List Pair :=
  (List.range n).flatMap fun i =>
    (finishing active context (after active context s i)).map Completion.pair

theorem pairsUpTo_succ (n : Nat) :
    pairsUpTo active context s (n + 1) =
      pairsUpTo active context s n ++
        (finishing active context (after active context s n)).map Completion.pair := by
  rw [pairsUpTo, List.range_succ, List.flatMap_append, List.flatMap_singleton]
  rfl

/-- **The ledger after some passes is the one before and what they finished.** -/
theorem contains_ledger_after (n : Nat) (pair : Pair) :
    (after active context s n).ledger.contains pair = true ↔
      s.ledger.contains pair = true ∨ pair ∈ pairsUpTo active context s n := by
  induction n with
  | zero => exact ⟨.inl, fun h => h.resolve_right List.not_mem_nil⟩
  | succ n ih =>
    rw [after_succ, contains_ledger_advance, ih, pairsUpTo_succ, List.mem_append]
    tauto

/-- **No pair is finished twice in some passes**: what earlier passes finished stands in the ledger
that later ones look at. -/
theorem nodup_pairsUpTo (hs : s.Keyed) (hactive : (active.map (·.analyzer.name)).Nodup) (n : Nat) :
    (pairsUpTo active context s n).Nodup := by
  induction n with
  | zero => exact List.nodup_nil
  | succ n ih =>
    rw [pairsUpTo_succ, List.nodup_append]
    refine ⟨ih, nodup_finishing (keyed_after hs n) hactive, fun pair hbefore other hnow heq => ?_⟩
    have hheld := (contains_ledger_after n pair).mpr (.inr hbefore)
    rw [heq, not_contains_of_finishing (keyed_after hs n) hnow] at hheld
    cases hheld

theorem not_contains_of_pairsUpTo (hs : s.Keyed) {n : Nat} {pair : Pair}
    (h : pair ∈ pairsUpTo active context s n) : s.ledger.contains pair = false := by
  obtain ⟨i, -, hi⟩ := List.mem_flatMap.mp h
  have hlater := not_contains_of_finishing (keyed_after hs i) hi
  refine Bool.eq_false_iff.mpr fun hheld => ?_
  rw [contains_ledger_after_mono (Nat.zero_le i) hheld] at hlater
  cases hlater

/-! ## 5. Passes that observe nothing -/

/-- Without observations no node appears, and none goes. -/
theorem contains_after (hquiet : Quiet active context) (hs : s.Keyed) (i : Nat) (id : String) :
    (after active context s i).contains id = s.contains id := by
  induction i with
  | zero => rfl
  | succ i ih =>
    have hkeyed : (after active context s i).Keyed := keyed_after hs i
    rw [← ih, Bool.eq_iff_iff]
    constructor
    · exact Commit.contains_of_committed hkeyed (not_observes_finishing hquiet hkeyed id)
    · intro h
      rw [after_succ, advance, Commit.contains_committed hkeyed]
      exact Commit.isSome_viewed _ h

/-- Without observations nodes keep their kinds. -/
theorem exists_node?_after (hquiet : Quiet active context) (hs : s.Keyed) {id : String} {n : Node μ}
    (h : s.node? id = some n) (i : Nat) :
    ∃ m, (after active context s i).node? id = some m ∧ m.kind = n.kind := by
  induction i with
  | zero => exact ⟨n, h, rfl⟩
  | succ i ih =>
    obtain ⟨m, hm, hkind⟩ := ih
    have hkeyed : (after active context s i).Keyed := keyed_after hs i
    have hstill : (after active context s (i + 1)).contains id = true := by
      rw [contains_after hquiet hs, Store.contains_iff]
      exact ⟨n, h⟩
    obtain ⟨m', hm'⟩ := Store.contains_iff.mp hstill
    refine ⟨m', hm', ?_⟩
    rw [← hkind]
    exact Commit.kind_committed hkeyed hm hm' (not_observes_finishing hquiet hkeyed id)

/-- Nodes that are there after some passes were there with the same kind. -/
theorem exists_node?_of_after (hquiet : Quiet active context) (hs : s.Keyed) {i : Nat} {id : String}
    {m : Node μ} (h : (after active context s i).node? id = some m) :
    ∃ n, s.node? id = some n ∧ m.kind = n.kind := by
  have hthere : s.contains id = true := by
    rw [← contains_after hquiet hs i, Store.contains_iff]
    exact ⟨m, h⟩
  obtain ⟨n, hn⟩ := Store.contains_iff.mp hthere
  obtain ⟨m', hm', hkind⟩ := exists_node?_after hquiet hs hn i
  rw [h] at hm'
  cases hm'
  exact ⟨n, hn, hkind⟩

/-- A node that is there after some passes is there, of the same kind, after any number of them. -/
theorem exists_node?_between (hquiet : Quiet active context) (hs : s.Keyed) {i : Nat} {id : String}
    {m : Node μ} (h : (after active context s i).node? id = some m) (j : Nat) :
    ∃ a, (after active context s j).node? id = some a ∧ a.kind = m.kind := by
  obtain ⟨n, hn, hkind⟩ := exists_node?_of_after hquiet hs h
  obtain ⟨a, ha, hkind'⟩ := exists_node?_after hquiet hs hn j
  exact ⟨a, ha, hkind'.trans hkind.symm⟩

/-- **Without observations a node gains exactly the tags that finished pairs give it.** -/
theorem hasTag_advance (hquiet : Quiet active context) (hs : s.Keyed) {number : Nat} {id : String}
    {n n' : Node μ} (h : s.node? id = some n)
    (h' : (advance active context number s).node? id = some n') (tag : String) :
    n'.hasTag tag = true ↔
      n.hasTag tag = true ∨ ∃ c ∈ finishing active context s, c.findings.Gives id tag := by
  rw [Commit.hasTag_committed hs h h']
  refine or_congr Iff.rfl (exists_congr fun c => and_congr_right fun hc => ?_)
  rw [Completion.exists_marks, observed_finishing hquiet hs hc]
  simp

end Commit

end Run

end FactGraph
