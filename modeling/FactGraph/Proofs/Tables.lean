import FactGraph.Table
import Mathlib

/-!
# Tables through their view

`Table` proves what inserting and erasing do to the view `get?`.  This module does the same for the
operations that write many rows at once, and then turns to SIZES.  A run decides whether it has
found anything new by comparing two counts, so the counts have to be tied to the views they are
taken from.

* `Table.get?_overlay`, `Table.get?_mapValues`, `Table.get?_filter`: the bulk operations;
* `Table.sum_values_le`: a table that weighs at least as much at every key weighs at least as much
  altogether;
* `Table.weight_eq_of_sum_values_eq`: **and if the totals agree, it weighs the same at every key.**
  The second half is what makes a comparison of counts say something about the rows.
-/

namespace FactGraph

open Std

namespace Table

variable {κ α β : Type} [Ord κ]

/-! ## 1. Bulk operations -/

theorem contains_iff {t : Table κ α} {k : κ} : t.contains k = true ↔ ∃ a, t.get? k = some a :=
  Option.isSome_iff_exists

theorem contains_eq_false_iff {t : Table κ α} {k : κ} :
    t.contains k = false ↔ t.get? k = none := by
  rw [contains, Option.isSome_eq_false_iff, Option.isNone_iff_eq_none]

section View

variable [TransOrd κ] [LawfulEqOrd κ]

theorem get?_foldl_insert (rows : List (κ × α)) (t : Table κ α)
    (hasc : rows.Pairwise (fun a b => compare a.1 b.1 = .lt)) (k : κ) :
    (rows.foldl (fun t row => t.insert row.1 row.2) t).get? k = (find k rows).or (t.get? k) := by
  induction rows generalizing t with
  | nil => rfl
  | cons head rest ih =>
    obtain ⟨k₀, a₀⟩ := head
    have hpair := List.pairwise_cons.mp hasc
    rw [List.foldl_cons, ih _ hpair.2, get?_insert, find]
    by_cases h : compare k k₀ = .eq
    · -- the later rows all lie above `k₀`, so none of them answers for it
      have hk : k = k₀ := Std.compare_eq_iff_eq.mp h
      rw [if_pos h, if_pos h, hk, find_eq_none_of_lt hpair.1]
      rfl
    · rw [if_neg h, if_neg h]

/-- Writing one table over another: its own rows first, the old ones where it has none. -/
theorem get?_overlay (t u : Table κ α) (k : κ) :
    (t.overlay u).get? k = (u.get? k).or (t.get? k) :=
  get?_foldl_insert u.rows t u.ascending k

omit [TransOrd κ] in
theorem get?_mapValues (t : Table κ α) (f : κ → α → β) (k : κ) :
    (t.mapValues f).get? k = (t.get? k).map (f k) := by
  show find k (t.rows.map fun row => (row.1, f row.1 row.2)) = (find k t.rows).map (f k)
  induction t.rows with
  | nil => rfl
  | cons head rest ih =>
    obtain ⟨k₀, a₀⟩ := head
    rw [List.map_cons, find, find]
    by_cases h : compare k k₀ = .eq
    · rw [if_pos h, if_pos h, Std.compare_eq_iff_eq.mp h]
      rfl
    · rw [if_neg h, if_neg h]
      exact ih

theorem mapValues_insert (t : Table κ α) (f : κ → α → β) (k : κ) (a : α) :
    (t.insert k a).mapValues f = (t.mapValues f).insert k (f k a) := by
  refine ext_get? fun k' => ?_
  rw [get?_mapValues, get?_insert, get?_insert, get?_mapValues]
  split
  · next h => rw [Option.map_some, Std.compare_eq_iff_eq.mp h]
  · rfl

theorem get?_filter (t : Table κ α) (keep : κ → α → Bool) (k : κ) :
    (t.filter keep).get? k = (t.get? k).filter (keep k) := by
  cases hk : t.get? k with
  | none =>
    rw [Option.filter_none]
    cases hf : (t.filter keep).get? k with
    | none => rfl
    | some a =>
      have hrow := (List.mem_filter.mp (mem_rows.mpr hf)).1
      rw [mem_rows.mp hrow] at hk
      cases hk
  | some a =>
    have hrow : (k, a) ∈ t.rows := mem_rows.mpr hk
    by_cases h : keep k a = true
    · rw [Option.filter_some_pos h]
      exact mem_rows.mp (List.mem_filter.mpr ⟨hrow, h⟩)
    · rw [Option.filter_some_neg (Bool.eq_false_iff.mpr h)]
      cases hf : (t.filter keep).get? k with
      | none => rfl
      | some b =>
        obtain ⟨hb, hkeep⟩ := List.mem_filter.mp (mem_rows.mpr hf)
        have hab : b = a := Option.some.inj ((mem_rows.mp hb).symm.trans hk)
        exact absurd (hab ▸ hkeep) h

theorem get?_modify [DecidableEq κ] (t : Table κ α) (k k' : κ) (f : Option α → α) :
    (t.modify k f).get? k' = if k' = k then some (f (t.get? k)) else t.get? k' := by
  rw [modify, get?_insert]
  simp only [Std.compare_eq_iff_eq]

theorem contains_insert (t : Table κ α) (k k' : κ) (a : α) :
    (t.insert k a).contains k' = true ↔ k' = k ∨ t.contains k' = true := by
  rw [contains, get?_insert]
  by_cases h : compare k' k = .eq
  · simp [Std.compare_eq_iff_eq.mp h]
  · have hne : k' ≠ k := fun e => h (Std.compare_eq_iff_eq.mpr e)
    simp [h, hne, contains]

theorem contains_overlay (t u : Table κ α) (k : κ) :
    (t.overlay u).contains k = true ↔ t.contains k = true ∨ u.contains k = true := by
  rw [contains, get?_overlay, Option.isSome_or, Bool.or_eq_true]
  exact or_comm

omit [TransOrd κ] in
theorem contains_mapValues (t : Table κ α) (f : κ → α → β) (k : κ) :
    (t.mapValues f).contains k = t.contains k := by
  rw [contains, contains, get?_mapValues, Option.isSome_map]

theorem mem_values {t : Table κ α} {a : α} : a ∈ t.values ↔ ∃ k, t.get? k = some a := by
  rw [values, List.mem_map]
  constructor
  · rintro ⟨⟨k, a⟩, hrow, rfl⟩
    exact ⟨k, mem_rows.mp hrow⟩
  · rintro ⟨k, hk⟩
    exact ⟨(k, a), mem_rows.mpr hk, rfl⟩

omit [TransOrd κ] in
theorem nodup_keys (t : Table κ α) : t.keys.Nodup := by
  rw [keys, List.nodup_iff_pairwise_ne, List.pairwise_map]
  refine t.ascending.imp ?_
  intro a b hlt heq
  rw [Std.compare_eq_iff_eq.mpr heq] at hlt
  cases hlt

end View

/-! ## 2. Totals -/

/-- What a key contributes to a total: nothing if it has no row. -/
def weight (f : α → Nat) (o : Option α) : Nat := o.elim 0 f

@[simp] theorem weight_none (f : α → Nat) : weight f none = 0 := rfl

@[simp] theorem weight_some (f : α → Nat) (a : α) : weight f (some a) = f a := rfl

theorem size_eq_sum (t : Table κ α) : t.size = (t.values.map fun _ => 1).sum := by
  simp [size, values, Function.comp_def]

section Totals

variable [TransOrd κ] [LawfulEqOrd κ] [DecidableEq κ]

theorem sum_values_eq (t : Table κ α) (f : α → Nat) :
    (t.values.map f).sum = ∑ k ∈ t.keys.toFinset, weight f (t.get? k) := by
  rw [List.sum_toFinset _ t.nodup_keys, values, keys, List.map_map, List.map_map]
  refine congrArg List.sum (List.map_congr_left ?_)
  rintro ⟨k, a⟩ hrow
  simp [mem_rows.mp hrow]

/-- A total may be taken over any set of keys that covers the rows. -/
theorem sum_values_eq_of_subset (t : Table κ α) (f : α → Nat) {S : Finset κ}
    (hS : t.keys.toFinset ⊆ S) : (t.values.map f).sum = ∑ k ∈ S, weight f (t.get? k) := by
  rw [sum_values_eq]
  refine Finset.sum_subset hS ?_
  intro k _ hk
  rw [List.mem_toFinset, mem_keys, Bool.not_eq_true, contains_eq_false_iff] at hk
  rw [hk, weight_none]

/-- At least as much at every key, at least as much altogether. -/
theorem sum_values_le {t u : Table κ α} {f : α → Nat}
    (h : ∀ k, weight f (t.get? k) ≤ weight f (u.get? k)) :
    (t.values.map f).sum ≤ (u.values.map f).sum := by
  have hS : t.keys.toFinset ⊆ t.keys.toFinset ∪ u.keys.toFinset := Finset.subset_union_left
  rw [sum_values_eq_of_subset t f hS, sum_values_eq_of_subset u f Finset.subset_union_right]
  exact Finset.sum_le_sum fun k _ => h k

/-- **Equal totals leave no room.**  If every key weighs at least as much in `u` as in `t` and the
totals are the same, every key weighs the same in both. -/
theorem weight_eq_of_sum_values_eq {t u : Table κ α} {f : α → Nat}
    (h : ∀ k, weight f (t.get? k) ≤ weight f (u.get? k))
    (heq : (t.values.map f).sum = (u.values.map f).sum) (k : κ) :
    weight f (t.get? k) = weight f (u.get? k) := by
  have hS : t.keys.toFinset ⊆ t.keys.toFinset ∪ u.keys.toFinset := Finset.subset_union_left
  rw [sum_values_eq_of_subset t f hS,
    sum_values_eq_of_subset u f Finset.subset_union_right] at heq
  have hall := (Finset.sum_eq_sum_iff_of_le fun k _ => h k).mp heq
  by_cases hk : k ∈ t.keys.toFinset ∪ u.keys.toFinset
  · exact hall k hk
  · -- a key outside both tables weighs nothing in either
    rw [Finset.mem_union, List.mem_toFinset, List.mem_toFinset, mem_keys, mem_keys] at hk
    rw [not_or, Bool.not_eq_true, Bool.not_eq_true, contains_eq_false_iff,
      contains_eq_false_iff] at hk
    rw [hk.1, hk.2]

/-- More keys, more rows. -/
theorem size_le_of_contains {t u : Table κ α}
    (h : ∀ k, t.contains k = true → u.contains k = true) : t.size ≤ u.size := by
  rw [size_eq_sum, size_eq_sum]
  refine sum_values_le fun k => ?_
  cases ht : t.get? k with
  | none => exact Nat.zero_le _
  | some a =>
    obtain ⟨b, hb⟩ := contains_iff.mp (h k (contains_iff.mpr ⟨a, ht⟩))
    rw [hb]
    exact Nat.le_refl _

/-- As many rows, and every key of `t` in `u`: the keys are the same. -/
theorem contains_of_size_le {t u : Table κ α}
    (h : ∀ k, t.contains k = true → u.contains k = true) (hsize : u.size ≤ t.size) {k : κ}
    (hk : u.contains k = true) : t.contains k = true := by
  have heq : t.size = u.size := Nat.le_antisymm (size_le_of_contains h) hsize
  rw [size_eq_sum, size_eq_sum] at heq
  have hle : ∀ k, weight (fun _ => 1) (t.get? k) ≤ weight (fun _ => 1) (u.get? k) := by
    intro k
    cases ht : t.get? k with
    | none => exact Nat.zero_le _
    | some a =>
      obtain ⟨b, hb⟩ := contains_iff.mp (h k (contains_iff.mpr ⟨a, ht⟩))
      rw [hb]
      exact Nat.le_refl _
  have hw := weight_eq_of_sum_values_eq hle heq k
  obtain ⟨b, hb⟩ := contains_iff.mp hk
  cases ht : t.get? k with
  | none => rw [ht, hb] at hw; cases hw
  | some a => exact contains_iff.mpr ⟨a, ht⟩

end Totals

end Table

/-! ## 3. Sets of keys -/

namespace KeySet

variable {κ : Type} [Ord κ] [TransOrd κ] [LawfulEqOrd κ]

theorem contains_add (s : KeySet κ) (k k' : κ) :
    Table.contains (s.add k) k' = true ↔ k' = k ∨ Table.contains s k' = true :=
  Table.contains_insert s k k' ()

theorem contains_union (s t : KeySet κ) (k : κ) :
    Table.contains (s.union t) k = true ↔ Table.contains s k = true ∨ Table.contains t k = true :=
  Table.contains_overlay s t k

theorem contains_foldl_add (members : List κ) (s : KeySet κ) (k : κ) :
    Table.contains (members.foldl add s) k = true ↔ k ∈ members ∨ Table.contains s k = true := by
  induction members generalizing s with
  | nil => simp
  | cons m rest ih => rw [List.foldl_cons, ih, contains_add, List.mem_cons]; tauto

theorem contains_ofMembers (members : List κ) (k : κ) :
    Table.contains (ofMembers members) k = true ↔ k ∈ members := by
  unfold ofMembers
  rw [contains_foldl_add]
  constructor
  · rintro (h | h)
    · exact h
    · cases h
  · exact .inl

theorem mem_members {s : KeySet κ} {k : κ} : k ∈ s.members ↔ Table.contains s k = true :=
  Table.mem_keys

/-- A set is its members. -/
theorem ext_contains {s t : KeySet κ}
    (h : ∀ k, Table.contains s k = true ↔ Table.contains t k = true) : s = t := by
  refine Table.ext_get? fun k => ?_
  have hk := h k
  rw [Table.contains, Table.contains] at hk
  cases hs : s.get? k with
  | none =>
    cases ht : t.get? k with
    | none => rfl
    | some u => rw [hs, ht] at hk; simp at hk
  | some u =>
    cases ht : t.get? k with
    | none => rw [hs, ht] at hk; simp at hk
    | some v => rfl

/-- A list without repetitions has as many members as its set. -/
theorem size_ofMembers [DecidableEq κ] {members : List κ} (h : members.Nodup) :
    (ofMembers members).size = members.length := by
  have hperm : (ofMembers members).keys.Perm members :=
    (List.perm_ext_iff_of_nodup (Table.nodup_keys _) h).mpr fun k =>
      mem_members.trans (contains_ofMembers members k)
  rw [← hperm.length_eq, Table.keys, List.length_map, Table.size]

end KeySet

/-! ## 4. Counting by a field -/

/-- Items that are counted under names, each name once, are counted once if all their names are
there. -/
theorem sum_length_filter {α : Type} {names : List String} (hnodup : names.Nodup)
    (field : α → String) {items : List α} (h : ∀ x ∈ items, field x ∈ names) :
    (names.map fun name => (items.filter (field · == name)).length).sum = items.length := by
  rw [← List.sum_toFinset _ hnodup]
  induction items with
  | nil => simp
  | cons x rest ih =>
    have hx : field x ∈ names.toFinset := List.mem_toFinset.mpr (h x List.mem_cons_self)
    have hcons : ∀ name, ((x :: rest).filter (field · == name)).length =
        (if field x = name then 1 else 0) + (rest.filter (field · == name)).length := by
      intro name
      by_cases hname : field x = name
      · simp [hname, Nat.add_comm]
      · simp [hname]
    simp only [hcons, Finset.sum_add_distrib, Finset.sum_ite_eq, if_pos hx, List.length_cons]
    rw [ih fun y hy => h y (List.mem_cons_of_mem _ hy), Nat.add_comm]

end FactGraph
