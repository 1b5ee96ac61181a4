import FactGraph.Proofs.Growth

/-!
# What sums do to a node

An analyzer that only adds to sums (`Findings.OnlySums`) leaves most of a node alone: it changes
metrics and properties, and the rest of the node (`Node.blank`) stays as it is, however often its
patches are applied (`Commit.blank_written`).

What it does change can be counted.  Every sum has a counter beside it, and a commit adds to the
counter the number of contributions to the sum that its results make
(`Commit.counted_written`), modulo the size of a machine word.  Nothing tells a contribution that was
made before from one that was not.  The sum itself is exact as long as the measure counts without error
(`Measure.CountsTo`).
-/

namespace FactGraph

/-! ## 1. Findings that only add to sums -/

/-- All that was done is to add to sums. -/
inductive Findings.OnlySums {μ : Type} [Measure μ] : Findings μ → Prop
  | nothing : OnlySums {}
  | sum {f : Findings μ} (h : OnlySums f) (node key : String) (x : μ) : OnlySums (f.sum node key x)

/-- A patch changes nothing but sums. -/
structure Patch.OnlySums {μ : Type} (p : Patch μ) : Prop where
  tags : p.tags = ∅
  properties : p.properties = ∅
  metrics : p.metrics = ∅

namespace Findings.OnlySums

variable {μ : Type} [Measure μ] {f : Findings μ}

/-- Everything but the patches is as it was. -/
theorem unchanged {β : Type} (field : Findings μ → β)
    (hfield : ∀ f node change, field (Findings.patch f node change) = field f) (h : f.OnlySums) :
    field f = field {} := by
  induction h with
  | nothing => rfl
  | sum _ node key x ih =>
    rw [Findings.sum]
    split
    · rw [hfield, ih]
    · exact ih

theorem observed (h : f.OnlySums) : f.observed = [] := h.unchanged Findings.observed fun _ _ _ => rfl

theorem edges (h : f.OnlySums) : f.edges = [] := h.unchanged Findings.edges fun _ _ _ => rfl

theorem errors (h : f.OnlySums) : f.errors = [] := h.unchanged Findings.errors fun _ _ _ => rfl

theorem patches (h : f.OnlySums) : ∀ id p, f.patches.get? id = some p → p.OnlySums := by
  induction h with
  | nothing =>
    intro id p hp
    cases hp
  | @sum f _ node key x ih =>
    intro id p hp
    rw [Findings.sum] at hp
    split at hp
    · rw [patch, Table.get?_modify] at hp
      split at hp
      · cases hp
        cases hbefore : f.patches.get? node with
        | none => exact ⟨rfl, rfl, rfl⟩
        | some q =>
          have hq := ih node q hbefore
          exact ⟨hq.tags, hq.properties, hq.metrics⟩
      · exact ih id p hp
    · exact ih id p hp

end Findings.OnlySums

/-! ## 2. What sums leave alone -/

namespace Node

variable {μ : Type}

/-- A node without what sums change. -/
def blank (n : Node μ) : Node μ := { n with properties := ∅, metrics := ∅ }

/-- How many contributions a node has to a sum. -/
def counted (n : Node μ) (key : String) : Nat := Patch.counted n.properties (Patch.counter key)

end Node

namespace Patch

variable {μ : Type}

/-- How many contributions a patch makes to a sum. -/
def counts (p : Patch μ) (key : String) : Nat :=
  (p.sums.rows.map fun row => if row.1 = key then row.2.count else 0).sum

theorem counter_inj {a b : String} : counter a = counter b ↔ a = b := by
  constructor
  · intro h
    have hchars : (a ++ "_count").toList = (b ++ "_count").toList := congrArg String.toList h
    rw [String.toList_append, String.toList_append] at hchars
    exact String.toList_inj.mp (List.append_cancel_right hchars)
  · rintro rfl
    rfl

theorem counted_lt (properties : Properties) (key : String) :
    counted properties key < Nat.pow 2 64 := by
  rw [counted]
  cases properties.get? key with
  | none => exact Nat.two_pow_pos 64
  | some v =>
    cases v with
    | int n =>
      show (if 0 ≤ n ∧ n.toNat < Nat.pow 2 64 then some n.toNat else none : Option Nat).getD 0 < _
      split
      · next h => exact h.2
      · exact Nat.two_pow_pos 64
    | _ => exact Nat.two_pow_pos 64

variable [Measure μ]

theorem counted_addSum (n : Node μ) (metric key : String) (sum : Tally μ) :
    (addSum n metric sum).counted key =
      (n.counted key + if metric = key then sum.count else 0) % Nat.pow 2 64 := by
  rw [Node.counted, Node.counted, addSum, counted]
  dsimp only
  by_cases h : metric = key
  · subst h
    rw [Table.get?_insert_self, if_pos rfl]
    have hword : ∀ c : Nat, c < Nat.pow 2 64 → (Value.word? (.int c)).getD 0 = c := by
      intro c hc
      show (if (0 : Int) ≤ c ∧ Int.toNat c < Nat.pow 2 64 then some (Int.toNat c) else none).getD 0 = c
      rw [if_pos ⟨Int.natCast_nonneg c, hc⟩]
      rfl
    exact hword _ (Nat.mod_lt _ (Nat.two_pow_pos 64))
  · have hne : counter key ≠ counter metric := fun heq => h (counter_inj.mp heq).symm
    rw [Table.get?_insert_of_ne _ _ hne, if_neg h, Nat.add_zero, Nat.mod_eq_of_lt]
    · rfl
    · exact counted_lt n.properties (counter key)

theorem counted_foldl_addSum (rows : List (String × Tally μ)) (n : Node μ) (key : String) :
    (rows.foldl (fun n row => addSum n row.1 row.2) n).counted key =
      (n.counted key + (rows.map fun row => if row.1 = key then row.2.count else 0).sum) %
        Nat.pow 2 64 := by
  induction rows generalizing n with
  | nil => exact (Nat.mod_eq_of_lt (counted_lt n.properties (counter key))).symm
  | cons row rest ih =>
    rw [List.foldl_cons, ih, counted_addSum, List.map_cons, List.sum_cons, Nat.mod_add_mod,
      Nat.add_assoc]

/-- **A patch adds its contributions to the counter**, if it does not set the counter too. -/
theorem counted_apply_of_unset {p : Patch μ} {key : String}
    (hp : p.properties.get? (counter key) = none) (n : Node μ) :
    (p.apply n).counted key = (n.counted key + p.counts key) % Nat.pow 2 64 := by
  have hbefore : (n.properties.overlay p.properties).get? (counter key) =
      n.properties.get? (counter key) := by
    rw [Table.get?_overlay, hp, Option.none_or]
  rw [apply, counted_foldl_addSum, Node.counted, Node.counted, counted, counted, hbefore, counts]

/-- A patch of sums adds its contributions to the counter. -/
theorem counted_apply {p : Patch μ} (hp : p.OnlySums) (n : Node μ) (key : String) :
    (p.apply n).counted key = (n.counted key + p.counts key) % Nat.pow 2 64 := by
  refine counted_apply_of_unset ?_ n
  rw [hp.properties]
  rfl

/-- A patch of sums leaves the rest of the node alone. -/
theorem blank_apply {p : Patch μ} (hp : p.OnlySums) (n : Node μ) : (p.apply n).blank = n.blank := by
  have hfold : ∀ (rows : List (String × Tally μ)) (n : Node μ),
      (rows.foldl (fun n row => addSum n row.1 row.2) n).blank = n.blank := by
    intro rows
    induction rows with
    | nil => exact fun _ => rfl
    | cons row rest ih => exact fun n => ih (addSum n row.1 row.2)
  rw [apply, hp.tags, hp.properties, hp.metrics, hfold]
  rfl

end Patch

theorem Node.counted_stored {μ : Type} [Measure μ] (n : Node μ) (key : String) :
    n.stored.counted key = n.counted key := by
  rw [counted, counted, Patch.counted, Patch.counted, stored, Table.get?_mapValues]
  cases n.properties.get? (Patch.counter key) with
  | none => rfl
  | some v => cases v <;> rfl

/-! ## 3. Commits of sums -/

/-- A write only adds to sums. -/
def Write.OnlySums {μ : Type} : Write μ → Prop
  | .observe _ => False
  | .patch _ changes => changes.OnlySums

/-- How many contributions a write makes to a sum of a node. -/
def Write.counts {μ : Type} (id key : String) : Write μ → Nat
  | .observe _ => 0
  | .patch target changes => if target = id then changes.counts key else 0

/-- How many contributions to a sum a node has. -/
def Store.counted {μ : Type} (s : Store μ) (id key : String) : Nat :=
  ((s.node? id).map (·.counted key)).getD 0

namespace Commit

variable {μ : Type}

/-- The results of a pass only add to sums. -/
def OnlySums (results : List (Completion μ)) : Prop := ∀ w ∈ writes results, w.OnlySums

/-- How many contributions the results of a pass make to a sum of a node. -/
def contributions (results : List (Completion μ)) (id key : String) : Nat :=
  ((writes results).map (Write.counts id key)).sum

variable [Measure μ] {s : Store μ} {results : List (Completion μ)}

theorem onlySums_of_findings (h : ∀ c ∈ results, c.findings.OnlySums) : OnlySums results := by
  intro w hw
  cases w with
  | observe seen =>
    obtain ⟨c, hc, n, hn, -⟩ := observes_of_mem_writes hw
    rw [(h c hc).observed] at hn
    cases hn
  | patch target changes =>
    obtain ⟨c, hc, hpatch⟩ := exists_patch_of_mem_writes hw
    exact (h c hc).patches target changes hpatch

/-- **A commit of sums leaves the rest of every node alone.** -/
theorem blank_written (hs : s.Keyed) (h : OnlySums results) (id : String) :
    ((written s results).node? id).map Node.blank = (s.node? id).map Node.blank := by
  have hviewed : (viewed s results id).map Node.blank = (s.node? id).map Node.blank := by
    refine viewed_induction (fun o => o.map Node.blank = (s.node? id).map Node.blank) rfl ?_
    intro w hw o ho
    cases w with
    | observe seen => exact (h _ hw).elim
    | patch target changes =>
      rw [Write.onto]
      split
      · rw [Option.map_map, ← ho]
        exact congrFun (congrArg Option.map (funext (Patch.blank_apply (h _ hw)))) o
      · exact ho
  rcases node?_written_cases hs results id with hw | hw
  · rw [hw, hviewed]
  · rw [hw, Option.map_map, ← hviewed]
    rfl

/-- **A commit of sums adds its contributions to the counters.** -/
theorem counted_written (hs : s.Keyed) (h : OnlySums results) {id : String}
    (hid : s.contains id = true) (key : String) :
    (written s results).counted id key =
      (s.counted id key + contributions results id key) % Nat.pow 2 64 := by
  obtain ⟨n, hn⟩ := Store.contains_iff.mp hid
  have hfold : ∀ (ws : List (Write μ)) (n : Node μ), (∀ w ∈ ws, w.OnlySums) →
      ∃ m, ws.foldl (Write.onto id) (some n) = some m ∧
        m.counted key = (n.counted key + (ws.map (Write.counts id key)).sum) % Nat.pow 2 64 := by
    intro ws
    induction ws with
    | nil =>
      intro n _
      exact ⟨n, rfl, (Nat.mod_eq_of_lt (Patch.counted_lt n.properties _)).symm⟩
    | cons w rest ih =>
      intro n hws
      cases w with
      | observe seen => exact (hws _ List.mem_cons_self).elim
      | patch target changes =>
        have hrest : ∀ w ∈ rest, w.OnlySums := fun w hw => hws w (List.mem_cons_of_mem _ hw)
        rw [List.foldl_cons, List.map_cons, List.sum_cons, Write.onto, Write.counts]
        by_cases htarget : target = id
        · obtain ⟨m, hm, hcount⟩ := ih (changes.apply n) hrest
          rw [if_pos htarget, if_pos htarget, Option.map_some]
          refine ⟨m, hm, ?_⟩
          rw [hcount, Patch.counted_apply (hws _ List.mem_cons_self), Nat.mod_add_mod, Nat.add_assoc]
        · obtain ⟨m, hm, hcount⟩ := ih n hrest
          rw [if_neg htarget, if_neg htarget, Nat.zero_add]
          exact ⟨m, hm, hcount⟩
  obtain ⟨m, hm, hcount⟩ := hfold (writes results) n h
  have hviewed : viewed s results id = some m := by rw [viewed, hn, hm]
  rw [Store.counted, Store.counted, hn]
  rcases node?_written_cases hs results id with hw | hw
  · rw [hw, hviewed]
    exact hcount
  · rw [hw, hviewed]
    exact (Node.counted_stored m key).trans hcount

end Commit

/-! ## 4. Measures that count -/

/-- A measure that counts without error up to a bound: sums are exact, finite, and kept by storage. -/
structure Measure.CountsTo (μ : Type) [Measure μ] (bound : Nat) : Prop where
  zero : (Measure.ofNat 0 : μ) = Measure.zero
  add : ∀ a b, a + b ≤ bound →
    (Measure.ofNat (a + b) : μ) = Measure.add (Measure.ofNat a) (Measure.ofNat b)
  finite : ∀ n ≤ bound, Measure.isFinite (Measure.ofNat n : μ) = true
  stored : ∀ n ≤ bound, Measure.stored (Measure.ofNat n : μ) = Measure.ofNat n

theorem countsTo_four : Measure.CountsTo Float 4 where
  zero := by decide +kernel
  add := by
    have hsums : ∀ a ≤ 4, ∀ b ≤ 4, (Measure.ofNat (a + b) : Float) =
        Measure.add (Measure.ofNat a) (Measure.ofNat b) := by decide +kernel
    exact fun a b h => hsums a (by omega) b (by omega)
  finite := by decide +kernel
  stored := by decide +kernel

end FactGraph
