/-!
# Tables

A table is a finite map whose rows stand in strictly ascending key order.  Everything the
graph keeps (nodes by id, edges by their ends, ledger rows, tags, properties, metrics) is a
table, so the order in which answers list things is the order of the rows, and a key never
occurs twice.

Main statements:

* `Table.get?_insert`, `Table.get?_erase`: what the two updates do to the view `get?`;
* `Table.ext_get?`: a table is determined by its view;
* `Table.mem_rows`: a row is in the table exactly when the view shows it.
-/

namespace FactGraph

open Std

/-- A finite map with its rows in strictly ascending key order. -/
structure Table (κ : Type) (α : Type) [Ord κ] where
  rows : List (κ × α)
  ascending : rows.Pairwise (fun a b => compare a.1 b.1 = .lt)

/-- A set of keys in ascending order. -/
abbrev KeySet (κ : Type) [Ord κ] := Table κ Unit

/-- Tables keyed by names, the common case. -/
abbrev Names := KeySet String

namespace Table

variable {κ α β : Type} [Ord κ]

/-! ## 1. Rows as plain lists -/

/-- The value of the first row with key `k`. -/
def find (k : κ) : List (κ × α) → Option α
  | [] => none
  | (k', a) :: rest => if compare k k' = .eq then some a else find k rest

/-- Put a row at its place, replacing a row with the same key. -/
def place (k : κ) (a : α) : List (κ × α) → List (κ × α)
  | [] => [(k, a)]
  | (k', a') :: rest =>
    match compare k k' with
    | .lt => (k, a) :: (k', a') :: rest
    | .eq => (k, a) :: rest
    | .gt => (k', a') :: place k a rest

/-- The rows without those of key `k`. -/
def drop (k : κ) (rows : List (κ × α)) : List (κ × α) :=
  rows.filter fun row => compare k row.1 != .eq

theorem mem_place {k : κ} {a : α} {row : κ × α} {rows : List (κ × α)}
    (h : row ∈ place k a rows) : row = (k, a) ∨ row ∈ rows := by
  induction rows with
  | nil => simpa [place] using h
  | cons head rest ih =>
    obtain ⟨k', a'⟩ := head
    simp only [place] at h
    split at h
    · simpa using h
    · rcases List.mem_cons.mp h with h | h
      · exact .inl h
      · exact .inr (List.mem_cons_of_mem _ h)
    · rcases List.mem_cons.mp h with h | h
      · exact .inr (h ▸ List.mem_cons_self)
      · exact (ih h).imp_right (List.mem_cons_of_mem _)

theorem ascending_place [TransOrd κ] (k : κ) (a : α) {rows : List (κ × α)}
    (h : rows.Pairwise (fun a b => compare a.1 b.1 = .lt)) :
    (place k a rows).Pairwise (fun a b => compare a.1 b.1 = .lt) := by
  induction rows with
  | nil => simp [place]
  | cons head rest ih =>
    obtain ⟨k', a'⟩ := head
    have hrest := (List.pairwise_cons.mp h).1
    have htail := (List.pairwise_cons.mp h).2
    simp only [place]
    split
    · next hlt =>
      refine List.pairwise_cons.mpr ⟨fun row hrow => ?_, h⟩
      rcases List.mem_cons.mp hrow with rfl | hrow
      · exact hlt
      · exact TransCmp.lt_trans hlt (hrest row hrow)
    · next heq =>
      refine List.pairwise_cons.mpr ⟨fun row hrow => ?_, htail⟩
      exact TransCmp.lt_of_eq_of_lt heq (hrest row hrow)
    · next hgt =>
      refine List.pairwise_cons.mpr ⟨fun row hrow => ?_, ih htail⟩
      rcases mem_place hrow with rfl | hrow
      · exact OrientedCmp.gt_iff_lt.mp hgt
      · exact hrest row hrow

/-! ## 2. Operations -/

/-- The table without rows. -/
def empty : Table κ α := ⟨[], List.Pairwise.nil⟩

instance : EmptyCollection (Table κ α) := ⟨empty⟩

instance : Inhabited (Table κ α) := ⟨empty⟩

/-- The value at a key. -/
def get? (t : Table κ α) (k : κ) : Option α := find k t.rows

/-- Whether a key has a row. -/
def contains (t : Table κ α) (k : κ) : Bool := (t.get? k).isSome

/-- Set the value at a key. -/
def insert [TransOrd κ] (t : Table κ α) (k : κ) (a : α) : Table κ α :=
  ⟨place k a t.rows, ascending_place k a t.ascending⟩

/-- Remove a key. -/
def erase (t : Table κ α) (k : κ) : Table κ α :=
  ⟨drop k t.rows, t.ascending.filter _⟩

/-- Keep the rows that pass a test. -/
def filter (t : Table κ α) (keep : κ → α → Bool) : Table κ α :=
  ⟨t.rows.filter fun row => keep row.1 row.2, t.ascending.filter _⟩

/-- Change every value, keeping the keys. -/
def mapValues (t : Table κ α) (f : κ → α → β) : Table κ β :=
  ⟨t.rows.map fun row => (row.1, f row.1 row.2), by
    rw [List.pairwise_map]; exact t.ascending⟩

/-- The keys in ascending order. -/
def keys (t : Table κ α) : List κ := t.rows.map (·.1)

/-- The values in key order. -/
def values (t : Table κ α) : List α := t.rows.map (·.2)

/-- The number of rows. -/
def size (t : Table κ α) : Nat := t.rows.length

/-- Whether there is no row. -/
def isEmpty (t : Table κ α) : Bool := t.rows.isEmpty

/-- Write every row of `u` over `t`. -/
def overlay [TransOrd κ] (t u : Table κ α) : Table κ α :=
  u.rows.foldl (fun t row => t.insert row.1 row.2) t

/-- The table of a list of rows; a later row wins. -/
def ofList [TransOrd κ] (rows : List (κ × α)) : Table κ α :=
  rows.foldl (fun t row => t.insert row.1 row.2) empty

/-- Set the value at a key from the one that is there. -/
def modify [TransOrd κ] (t : Table κ α) (k : κ) (f : Option α → α) : Table κ α :=
  t.insert k (f (t.get? k))

/-! ## 3. The view -/

@[ext] theorem ext_rows {t u : Table κ α} (h : t.rows = u.rows) : t = u := by
  cases t; cases u; simp_all

@[simp] theorem get?_empty (k : κ) : (empty : Table κ α).get? k = none := rfl

theorem find_place [TransOrd κ] (k k' : κ) (a : α) (rows : List (κ × α)) :
    find k' (place k a rows) = if compare k' k = .eq then some a else find k' rows := by
  induction rows with
  | nil => simp [place, find]
  | cons head rest ih =>
    obtain ⟨k₀, a₀⟩ := head
    simp only [place]
    split
    · simp [find]
    · next heq =>
      -- `k` and `k₀` are the same key, so the replaced row answered for no other
      simp only [find]
      by_cases h : compare k' k = .eq
      · simp [h]
      · have : ¬ compare k' k₀ = .eq := fun h' =>
          h (TransCmp.eq_trans h' (OrientedCmp.eq_symm heq))
        simp [h, this]
    · next hgt =>
      simp only [find, ih]
      by_cases h : compare k' k₀ = .eq
      · have : ¬ compare k' k = .eq := fun h' => by
          have := TransCmp.eq_trans (OrientedCmp.eq_symm h') h
          rw [this] at hgt; exact absurd hgt (by decide)
        simp [h, this]
      · simp [h]

/-- Inserting changes the view at the key and nowhere else. -/
theorem get?_insert [TransOrd κ] (t : Table κ α) (k k' : κ) (a : α) :
    (t.insert k a).get? k' = if compare k' k = .eq then some a else t.get? k' :=
  find_place k k' a t.rows

@[simp] theorem get?_insert_self [TransOrd κ] (t : Table κ α) (k : κ) (a : α) :
    (t.insert k a).get? k = some a := by
  simp [get?_insert, ReflCmp.compare_self]

theorem get?_insert_of_ne [TransOrd κ] [LawfulEqOrd κ] (t : Table κ α) {k k' : κ} (a : α)
    (h : k' ≠ k) : (t.insert k a).get? k' = t.get? k' := by
  simp [get?_insert, h]

/-- What a table of rows shows is one of the rows. -/
theorem mem_of_get?_ofList [TransOrd κ] [LawfulEqOrd κ] {rows : List (κ × α)} {k : κ} {a : α}
    (h : (ofList rows).get? k = some a) : (k, a) ∈ rows := by
  have hfold : ∀ (rows : List (κ × α)) (t : Table κ α),
      (rows.foldl (fun t row => t.insert row.1 row.2) t).get? k = some a →
        (k, a) ∈ rows ∨ t.get? k = some a := by
    intro rows
    induction rows with
    | nil => exact fun t h => .inr h
    | cons row rest ih =>
      intro t h
      rcases ih _ h with hrow | hrow
      · exact .inl (List.mem_cons_of_mem _ hrow)
      · rw [get?_insert] at hrow
        split at hrow
        · next hk =>
          cases hrow
          obtain rfl := compare_eq_iff_eq.mp hk
          exact .inl List.mem_cons_self
        · exact .inr hrow
  exact (hfold rows empty h).resolve_right (by rintro ⟨⟩)

theorem find_drop [TransOrd κ] (k k' : κ) (rows : List (κ × α)) :
    find k' (drop k rows) = if compare k' k = .eq then none else find k' rows := by
  induction rows with
  | nil => simp [drop, find]
  | cons head rest ih =>
    obtain ⟨k₀, a₀⟩ := head
    by_cases hk : compare k k₀ = .eq
    · have hdrop : drop k ((k₀, a₀) :: rest) = drop k rest := by simp [drop, hk]
      rw [hdrop, ih]
      by_cases h : compare k' k = .eq
      · simp [h]
      · have : ¬ compare k' k₀ = .eq := fun h' =>
          h (TransCmp.eq_trans h' (OrientedCmp.eq_symm hk))
        simp [find, h, this]
    · have hdrop : drop k ((k₀, a₀) :: rest) = (k₀, a₀) :: drop k rest := by simp [drop, hk]
      rw [hdrop]
      simp only [find, ih]
      by_cases h : compare k' k = .eq
      · have : ¬ compare k' k₀ = .eq := fun h' =>
          hk (TransCmp.eq_trans (OrientedCmp.eq_symm h) h')
        simp [h, this]
      · simp [h]

/-- Erasing clears the view at the key and nowhere else. -/
theorem get?_erase [TransOrd κ] (t : Table κ α) (k k' : κ) :
    (t.erase k).get? k' = if compare k' k = .eq then none else t.get? k' :=
  find_drop k k' t.rows

theorem find_eq_none_of_lt [TransOrd κ] {k : κ} {rows : List (κ × α)}
    (h : ∀ row ∈ rows, compare k row.1 = .lt) : find k rows = none := by
  induction rows with
  | nil => rfl
  | cons head rest ih =>
    obtain ⟨k₀, a₀⟩ := head
    have hlt : compare k k₀ = .lt := h _ List.mem_cons_self
    have hrest := ih fun row hrow => h row (List.mem_cons_of_mem _ hrow)
    rw [find, if_neg (by rw [hlt]; decide)]
    exact hrest

theorem mem_of_find {k : κ} {a : α} {rows : List (κ × α)} [LawfulEqOrd κ]
    (h : find k rows = some a) : (k, a) ∈ rows := by
  induction rows with
  | nil => cases h
  | cons head rest ih =>
    obtain ⟨k₀, a₀⟩ := head
    simp only [find] at h
    split at h
    · next heq =>
      cases h
      rw [Std.compare_eq_iff_eq.mp heq]
      exact List.mem_cons_self
    · exact List.mem_cons_of_mem _ (ih h)

theorem find_of_mem [TransOrd κ] {k : κ} {a : α} {rows : List (κ × α)}
    (hasc : rows.Pairwise (fun a b => compare a.1 b.1 = .lt)) (h : (k, a) ∈ rows) :
    find k rows = some a := by
  induction rows with
  | nil => cases h
  | cons head rest ih =>
    obtain ⟨k₀, a₀⟩ := head
    have hpair := List.pairwise_cons.mp hasc
    rcases List.mem_cons.mp h with h | h
    · cases h; simp [find, ReflCmp.compare_self]
    · have hlt : compare k₀ k = .lt := hpair.1 _ h
      have hgt : compare k k₀ = .gt := OrientedCmp.gt_iff_lt.mpr hlt
      simp [find, hgt, ih hpair.2 h]

/-- A row is in the table exactly when the view shows it. -/
theorem mem_rows [TransOrd κ] [LawfulEqOrd κ] {t : Table κ α} {k : κ} {a : α} :
    (k, a) ∈ t.rows ↔ t.get? k = some a :=
  ⟨find_of_mem t.ascending, mem_of_find⟩

theorem mem_keys [TransOrd κ] [LawfulEqOrd κ] {t : Table κ α} {k : κ} :
    k ∈ t.keys ↔ t.contains k = true := by
  simp only [keys, List.mem_map, contains, Option.isSome_iff_exists]
  constructor
  · rintro ⟨⟨k', a⟩, hrow, rfl⟩
    exact ⟨a, mem_rows.mp hrow⟩
  · rintro ⟨a, ha⟩
    exact ⟨(k, a), mem_rows.mpr ha, rfl⟩

theorem rows_eq_of_find [TransOrd κ] [LawfulEqOrd κ] {r s : List (κ × α)}
    (hr : r.Pairwise (fun a b => compare a.1 b.1 = .lt))
    (hs : s.Pairwise (fun a b => compare a.1 b.1 = .lt))
    (h : ∀ k, find k r = find k s) : r = s := by
  induction r generalizing s with
  | nil =>
    cases s with
    | nil => rfl
    | cons head rest =>
      have := h head.1
      simp [find, ReflCmp.compare_self] at this
  | cons head rest ih =>
    obtain ⟨k, a⟩ := head
    cases s with
    | nil =>
      have := h k
      simp [find, ReflCmp.compare_self] at this
    | cons head' rest' =>
      obtain ⟨k', a'⟩ := head'
      have hr' := List.pairwise_cons.mp hr
      have hs' := List.pairwise_cons.mp hs
      -- the least keys agree, or one view would show a key the other lacks
      have hk : k = k' := by
        have h₁ : find k ((k', a') :: rest') = some a := by
          rw [← h k]; simp [find, ReflCmp.compare_self]
        have h₂ : find k' ((k, a) :: rest) = some a' := by
          rw [h k']; simp [find, ReflCmp.compare_self]
        rcases List.mem_cons.mp (mem_of_find h₁) with e | m
        · exact congrArg Prod.fst e
        · rcases List.mem_cons.mp (mem_of_find h₂) with e | m'
          · exact (congrArg Prod.fst e).symm
          · have l₁ : compare k' k = .lt := hs'.1 _ m
            have l₂ : compare k k' = .lt := hr'.1 _ m'
            have l₃ : compare k k = .lt := TransCmp.lt_trans l₂ l₁
            have l₄ : compare k k = .eq := ReflCmp.compare_self
            rw [l₄] at l₃; cases l₃
      subst hk
      have ha : a = a' := by
        have := h k
        simpa [find, ReflCmp.compare_self] using this
      subst ha
      have htail : rest = rest' := by
        refine ih hr'.2 hs'.2 fun q => ?_
        by_cases hq : compare q k = .eq
        · have e := Std.compare_eq_iff_eq.mp hq
          subst e
          rw [find_eq_none_of_lt hr'.1, find_eq_none_of_lt hs'.1]
        · have := h q
          simpa [find, hq] using this
      rw [htail]

/-- **A table is its view.**  Two tables that answer alike at every key are equal. -/
theorem ext_get? [TransOrd κ] [LawfulEqOrd κ] {t u : Table κ α}
    (h : ∀ k, t.get? k = u.get? k) : t = u :=
  ext_rows (rows_eq_of_find t.ascending u.ascending h)

instance [DecidableEq κ] [DecidableEq α] : DecidableEq (Table κ α) := fun t u =>
  decidable_of_iff (t.rows = u.rows) ⟨ext_rows, congrArg rows⟩

instance [BEq κ] [BEq α] : BEq (Table κ α) := ⟨fun t u => t.rows == u.rows⟩

end Table

namespace KeySet

variable {κ : Type} [Ord κ] [TransOrd κ]

/-- Add a member. -/
def add (s : KeySet κ) (k : κ) : KeySet κ := Table.insert s k ()

/-- The members of either set. -/
def union (s t : KeySet κ) : KeySet κ := Table.overlay s t

/-- The set of a list's members. -/
def ofMembers (members : List κ) : KeySet κ := members.foldl add ∅

/-- The members in ascending order. -/
def members (s : KeySet κ) : List κ := Table.keys s

end KeySet

end FactGraph
