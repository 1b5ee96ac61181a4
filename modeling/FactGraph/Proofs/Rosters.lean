import FactGraph.Run
import FactGraph.Proofs.Condensations

/-!
# Who takes part in a run

A roster is built by registration, which refuses a name that is taken.  So a name stands for one
analyzer (`Roster.Registered.nodup_names`), and a pair of a name and an id stands for one piece of
work.

A plan lists every position once.  So whether an analyzer takes part does not depend on the plan: it
is registered, not disabled, and could be set up (`Run.mem_active`); and no name takes part twice
(`Run.nodup_active_names`).
-/

namespace FactGraph

/-! ## 1. Registration -/

namespace Roster

variable {γ μ : Type}

/-- The roster was built by registering analyzers. -/
def Registered (r : Roster γ μ) : Prop := ∃ analyzers, ofList analyzers = .ok r

theorem nodup_names_register {r r' : Roster γ μ} {a : Analyzer γ μ} (hr : r.names.Nodup)
    (h : r.register a = .ok r') : r'.names.Nodup := by
  rw [register] at h
  split at h
  · cases h
  split at h
  · cases h
  next hfresh =>
    cases h
    have hnames : ∀ b ∈ r.analyzers, b.name ≠ a.name := by
      intro b hb heq
      exact hfresh (List.any_eq_true.mpr ⟨b, hb, beq_iff_eq.mpr heq⟩)
    rw [names, List.map_append, List.map_singleton, List.nodup_append]
    refine ⟨hr, List.nodup_singleton _, fun name hname other hother => ?_⟩
    obtain ⟨b, hb, rfl⟩ := List.mem_map.mp hname
    rw [List.mem_singleton.mp hother]
    exact hnames b hb

/-- **A name stands for one analyzer.** -/
theorem Registered.nodup_names {r : Roster γ μ} (h : r.Registered) : r.names.Nodup := by
  obtain ⟨analyzers, h⟩ := h
  have hfold : ∀ start : Roster γ μ, start.names.Nodup →
      analyzers.foldlM register start = .ok r → r.names.Nodup := by
    clear h
    induction analyzers with
    | nil =>
      intro start hstart h
      cases h
      exact hstart
    | cons a rest ih =>
      intro start hstart h
      rw [List.foldlM_cons] at h
      cases hreg : start.register a with
      | error e => rw [hreg] at h; cases h
      | ok next =>
        rw [hreg] at h
        exact ih next (nodup_names_register hstart hreg) h
  exact hfold {} List.nodup_nil h

theorem eq_of_name_eq {r : Roster γ μ} (hr : r.names.Nodup) {i j : Nat} {a b : Analyzer γ μ}
    (hi : r.analyzers[i]? = some a) (hj : r.analyzers[j]? = some b) (h : a.name = b.name) :
    i = j := by
  have hi' : r.names[i]? = some a.name := by rw [names, List.getElem?_map, hi]; rfl
  have hj' : r.names[j]? = some a.name := by rw [names, List.getElem?_map, hj, h]; rfl
  obtain ⟨hlt, -⟩ := List.getElem?_eq_some_iff.mp hi'
  exact (List.getElem?_inj hlt hr).mp (hi'.trans hj'.symm)

end Roster

/-! ## 2. Activation -/

namespace Run

variable {γ μ : Type} {roster : Roster γ μ} {context : γ} {limits : Limits}

/-- The analyzers that take part in a run, in the order of work. -/
def active (roster : Roster γ μ) (context : γ) (limits : Limits) : List (Active γ μ) :=
  (activate roster context limits (Plan.ofDeclarations roster.declarations).order).1

/-- Nothing keeps an analyzer from taking part: it is not disabled and can be set up. -/
def Joins (context : γ) (limits : Limits) (a : Analyzer γ μ) : Prop :=
  limits.disabled.contains a.name = false ∧ a.setup context = .ok ()

/-- An analyzer takes part in a run. -/
def TakesPart (roster : Roster γ μ) (context : γ) (limits : Limits) (a : Analyzer γ μ) : Prop :=
  a ∈ roster.analyzers ∧ Joins context limits a

/-- The analyzer at a position, if it takes part. -/
def joining (roster : Roster γ μ) (context : γ) (limits : Limits) (position : Nat) :
    Option (Active γ μ) :=
  roster.analyzers[position]?.bind fun a =>
    if limits.disabled.contains a.name then none
    else
      match a.setup context with
      | .ok () => some ⟨position, a⟩
      | .error _ => none

theorem activate_fst (order : List Nat) :
    (activate roster context limits order).1 = order.filterMap (joining roster context limits) := by
  rw [activate, List.filterMap_filterMap]
  refine List.filterMap_congr fun position _ => ?_
  rw [joining]
  cases roster.analyzers[position]? with
  | none => rfl
  | some a =>
    show Option.bind (if _ then none else _) _ = Option.bind (some a) _
    rw [Option.bind_some]
    split
    · rfl
    · cases a.setup context with
      | ok _ => rfl
      | error _ => rfl

theorem joining_eq_some {position : Nat} {x : Active γ μ} :
    joining roster context limits position = some x ↔
      position = x.position ∧ roster.analyzers[position]? = some x.analyzer ∧
        Joins context limits x.analyzer := by
  rw [joining, Option.bind_eq_some_iff]
  constructor
  · rintro ⟨a, ha, h⟩
    split at h
    · cases h
    next hdisabled =>
      cases hsetup : a.setup context with
      | error e => rw [hsetup] at h; cases h
      | ok _ =>
        rw [hsetup] at h
        cases h
        exact ⟨rfl, ha, Bool.eq_false_iff.mpr hdisabled, hsetup⟩
  · rintro ⟨rfl, ha, hdisabled, hsetup⟩
    refine ⟨x.analyzer, ha, ?_⟩
    rw [hdisabled, hsetup]
    rfl

theorem mem_order {position : Nat} :
    position ∈ (Plan.ofDeclarations roster.declarations).order ↔
      position < roster.analyzers.length := by
  rw [(Plan.order_perm roster.declarations).mem_iff, List.mem_range, Roster.declarations,
    List.length_map]

/-- **Who takes part**: the analyzers of the roster that nothing keeps from it, each under its own
position. -/
theorem mem_active {x : Active γ μ} :
    x ∈ active roster context limits ↔
      roster.analyzers[x.position]? = some x.analyzer ∧ Joins context limits x.analyzer := by
  rw [active, activate_fst, List.mem_filterMap]
  constructor
  · rintro ⟨position, -, h⟩
    obtain ⟨rfl, h⟩ := joining_eq_some.mp h
    exact h
  · intro h
    obtain ⟨hlt, -⟩ := List.getElem?_eq_some_iff.mp h.1
    exact ⟨x.position, mem_order.mpr hlt, joining_eq_some.mpr ⟨rfl, h⟩⟩

theorem analyzer_mem {x : Active γ μ} (hx : x ∈ active roster context limits) :
    x.analyzer ∈ roster.analyzers :=
  List.mem_of_getElem? (mem_active.mp hx).1

theorem exists_active {a : Analyzer γ μ} :
    (∃ x ∈ active roster context limits, x.analyzer = a) ↔
      TakesPart roster context limits a := by
  constructor
  · rintro ⟨x, hx, rfl⟩
    obtain ⟨hget, hjoins⟩ := mem_active.mp hx
    exact ⟨List.mem_of_getElem? hget, hjoins⟩
  · rintro ⟨ha, hjoins⟩
    obtain ⟨position, hget⟩ := List.mem_iff_getElem?.mp ha
    exact ⟨⟨position, a⟩, mem_active.mpr ⟨hget, hjoins⟩, rfl⟩

/-- No position takes part twice. -/
theorem nodup_active_positions : ((active roster context limits).map (·.position)).Nodup := by
  have horder : (Plan.ofDeclarations roster.declarations).order.Nodup :=
    (Plan.order_perm roster.declarations).nodup_iff.mpr List.nodup_range
  rw [active, activate_fst, List.Nodup, List.pairwise_map, List.pairwise_filterMap]
  refine horder.imp fun {i j} hne x hx y hy hposition => hne ?_
  rw [(joining_eq_some.mp hx).1, (joining_eq_some.mp hy).1, hposition]

/-- No name takes part twice. -/
theorem nodup_active_names (hr : roster.names.Nodup) :
    ((active roster context limits).map (·.analyzer.name)).Nodup := by
  have hpositions : ((active roster context limits).map (·.position)).Nodup :=
    nodup_active_positions
  rw [List.Nodup, List.pairwise_map] at hpositions ⊢
  refine hpositions.imp_of_mem fun {x y} hx hy hne hname => hne ?_
  exact Roster.eq_of_name_eq hr (mem_active.mp hx).1 (mem_active.mp hy).1 hname

end Run

end FactGraph
