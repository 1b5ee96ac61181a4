import FactGraph.Proofs.Navigation
import FactGraph.Proofs.NestedArchives

/-!
# The way out

From parent to parent one gets out of everything: of the directories of an archive, of the archive into
the one around it, of the outermost archive into the file system, and up to its root.  The scheme
changes on this way and the number of levels does, so no single part of a location gets smaller at every
step.  What does is a count over all of them, the depth: the components of the path, the components of
every level, and one for each level itself.

* A step outward, of whichever kind, takes exactly ONE off the depth (`Location.depth_parent?`).  So the
  way is finite, it never comes back to a place, and the list of ancestors, which is cut off after as
  many steps as the depth says, is cut off nowhere (`Location.outward_eq_ancestors`).
* Where the path is absolute and belongs to a file or to an archive, the way ends at depth zero only
  (`Location.Rooted.eq_of_parent?_eq_none`), which is the root of the file system.  So there the depth
  is the EXACT number of steps.

A relative path ends earlier: its last component has no parent.
-/

namespace FactGraph

/-! ## 1. Components of texts -/

/-- The number of components of a text: of the pieces between its slashes those that are not empty. -/
def componentCount (text : String) : Nat :=
  ((Split.texts (· = '/') text).filter (· ≠ "")).length

theorem componentCount_join {names : List String} (h : ∀ name ∈ names, Simple name) :
    componentCount (Split.join "/" names) = names.length := by
  by_cases hne : names = []
  · subst hne
    decide
  · have hkept : names.filter (· ≠ "") = names :=
      List.filter_eq_self.mpr fun name hname => by simpa using (h name hname).ne_empty
    rw [componentCount, Split.texts_join_slash hne fun name hname => (h name hname).slash, hkept]

theorem Trail.Plain.componentCount_text {trail : Trail} (h : trail.Plain) :
    componentCount trail.text = trail.length := by
  rw [Trail.text, componentCount_join fun name hname => h name (List.mem_reverse.mp hname),
    List.length_reverse]

theorem Path.componentCount_text_root {trail : Trail} (h : trail.Plain) :
    componentCount (Path.text ⟨.root, trail⟩) = trail.length := by
  have hslash : Split.texts (· = '/') (Path.text ⟨.root, trail⟩) =
      "" :: Split.texts (· = '/') trail.text := FileSystem.componentsOf_slash trail.text
  rw [← h.componentCount_text, componentCount, componentCount, hslash]
  simp

/-! ## 2. One step outward -/

theorem Path.length_components_parent? {p outer : Path} (h : p.parent? = some outer) :
    p.components.length = outer.components.length + 1 := by
  obtain ⟨base, trail⟩ := p
  cases base with
  | root =>
    cases trail with
    | nil => cases h
    | cons name rest =>
      cases h
      simp [components]
  | above ups =>
    cases trail with
    | nil =>
      simp only [parent?, Option.ite_none_left_eq_some, Option.some.injEq] at h
      obtain ⟨hups, rfl⟩ := h
      simp only [components, List.reverse_nil, List.append_nil, List.length_replicate]
      omega
    | cons name rest =>
      simp only [parent?, Option.ite_none_left_eq_some, Option.some.injEq] at h
      obtain ⟨-, rfl⟩ := h
      simp only [components, List.length_append, List.length_reverse, List.length_cons]
      omega

theorem Entry.levels_ofLevels {levels : List Trail} (h : levels ≠ []) :
    (Entry.ofLevels levels).levels = levels := by
  obtain ⟨outer, inner, rfl⟩ := (List.eq_nil_or_concat levels).resolve_left h
  rw [List.concat_eq_append, ofLevels_concat]
  rfl

namespace Location

theorem depth_eq (l : Location) :
    l.depth = l.path.components.length + (l.levels.map fun level => level.length + 1).sum := by
  rw [depth, List.sum_eq_foldr]

/-- **A step outward takes one off the depth**, whatever it leads out of. -/
theorem depth_parent? {l outer : Location} (h : l.parent? = some outer) :
    l.depth = outer.depth + 1 := by
  rw [depth_eq, depth_eq]
  obtain ⟨scheme, path, entry⟩ := l
  cases entry with
  | none =>
    obtain ⟨up, hup, rfl⟩ := Option.map_eq_some_iff.mp h
    simpa [levels] using Path.length_components_parent? hup
  | some e =>
    obtain ⟨around, inner⟩ := e
    cases inner with
    | cons name rest =>
      -- out of a directory of the innermost archive
      cases h
      simp only [levels, Entry.levels, List.map_append, List.sum_append, List.map_cons, List.map_nil,
        List.sum_cons, List.sum_nil, List.length_cons]
      omega
    | nil =>
      by_cases hne : around = []
      · -- out of the outermost archive
        subst hne
        cases h
        simp [levels, Entry.levels]
      · -- out of an inner archive
        rw [parent?_top scheme path hne] at h
        cases h
        simp only [levels, Entry.levels_ofLevels hne]
        simp only [Entry.levels, List.map_append, List.sum_append]
        simp [Nat.add_assoc]

/-! ## 3. All steps outward -/

/-- The location `n` steps outward, if the way is that long. -/
def outward (l : Location) : Nat → Option Location
  | 0 => some l
  | n + 1 => (l.outward n).bind parent?

theorem outward_succ (l : Location) (n : Nat) :
    l.outward (n + 1) = l.parent?.bind fun outer => outer.outward n := by
  induction n with
  | zero => cases h : l.parent? <;> simp [outward, h]
  | succ n ih =>
    rw [outward, ih, Option.bind_assoc]
    rfl

theorem ancestorsWithin_of_parent? {l outer : Location} (h : l.parent? = some outer) (fuel : Nat) :
    ancestorsWithin (fuel + 1) l = l :: ancestorsWithin fuel outer := by
  rw [ancestorsWithin, h]

theorem ancestorsWithin_of_none {l : Location} (h : l.parent? = none) (fuel : Nat) :
    ancestorsWithin fuel l = [l] := by
  cases fuel with
  | zero => rfl
  | succ fuel => rw [ancestorsWithin, h]

theorem ancestors_of_parent? {l outer : Location} (h : l.parent? = some outer) :
    l.ancestors = l :: outer.ancestors := by
  rw [ancestors, depth_parent? h, ancestorsWithin_of_parent? h, ancestors]

theorem ancestors_of_none {l : Location} (h : l.parent? = none) : l.ancestors = [l] :=
  ancestorsWithin_of_none h l.depth

/-- What holds at the end of a way and is carried over each step inward holds everywhere. -/
theorem outward_induction {motive : Location → Prop} (last : ∀ l, l.parent? = none → motive l)
    (step : ∀ l outer, l.parent? = some outer → motive outer → motive l) (l : Location) :
    motive l := by
  induction hd : l.depth generalizing l with
  | zero =>
    refine last l (Option.eq_none_iff_forall_ne_some.mpr fun outer h => ?_)
    have := depth_parent? h
    omega
  | succ n ih =>
    cases h : l.parent? with
    | none => exact last l h
    | some outer =>
      have := depth_parent? h
      exact step l outer h (ih outer (by omega))

/-- **The ancestors are the whole way out.** -/
theorem outward_eq_ancestors (l : Location) (n : Nat) : l.outward n = l.ancestors[n]? := by
  induction l using outward_induction generalizing n with
  | last l h =>
    rw [ancestors_of_none h]
    cases n with
    | zero => rfl
    | succ n => rw [outward_succ, h]; rfl
  | step l outer h ih =>
    rw [ancestors_of_parent? h]
    cases n with
    | zero => rfl
    | succ n => rw [outward_succ, h, Option.bind_some, ih, List.getElem?_cons_succ]

/-- What is carried over each step outward holds of all ancestors. -/
theorem of_mem_ancestors {motive : Location → Prop} {l a : Location} (here : motive l)
    (step : ∀ l outer, l.parent? = some outer → motive l → motive outer) (ha : a ∈ l.ancestors) :
    motive a := by
  induction l using outward_induction with
  | last l hl =>
    rw [ancestors_of_none hl, List.mem_singleton] at ha
    rwa [ha]
  | step l outer ho ih =>
    rw [ancestors_of_parent? ho] at ha
    rcases List.mem_cons.mp ha with rfl | ha
    · exact here
    · exact ih (step l outer ho here) ha

theorem depth_le_of_mem_ancestors {l a : Location} (h : a ∈ l.ancestors) : a.depth ≤ l.depth := by
  refine of_mem_ancestors (motive := fun a => a.depth ≤ l.depth) le_rfl (fun m outer ho hm => ?_) h
  have := depth_parent? ho
  omega

theorem nodup_ancestors (l : Location) : l.ancestors.Nodup := by
  induction l using outward_induction with
  | last l h => simp [ancestors_of_none h]
  | step l outer h ih =>
    rw [ancestors_of_parent? h, List.nodup_cons]
    refine ⟨fun hmem => ?_, ih⟩
    have := depth_le_of_mem_ancestors hmem
    have := depth_parent? h
    omega

/-! ## 4. The way to the root -/

/-- A location on the way to the root of the file system: its path is absolute, and it is in an archive
or a file. -/
structure Rooted (l : Location) : Prop where
  base : l.path.base = .root
  file : l.entry = none → l.scheme = fileScheme

theorem Rooted.parent? {l outer : Location} (h : l.Rooted) (ho : l.parent? = some outer) :
    outer.Rooted := by
  obtain ⟨scheme, ⟨base, trail⟩, entry⟩ := l
  obtain rfl : base = .root := h.base
  unfold Location.parent? at ho
  split at ho
  · cases ho
    exact ⟨rfl, by simp⟩
  · cases ho
    exact ⟨rfl, fun _ => rfl⟩
  · cases ho
    exact ⟨rfl, by simp⟩
  · next hentry =>
    obtain ⟨up, hup, rfl⟩ := Option.map_eq_some_iff.mp ho
    refine ⟨?_, fun _ => h.file hentry⟩
    cases trail with
    | nil => cases hup
    | cons name rest =>
      cases hup
      rfl

/-- **There is one end of the way**: the root of the file system. -/
theorem Rooted.eq_of_parent?_eq_none {l : Location} (h : l.Rooted) (hl : l.parent? = none) :
    l = Location.file "/" := by
  obtain ⟨scheme, ⟨base, trail⟩, entry⟩ := l
  obtain rfl : base = .root := h.base
  cases entry with
  | some e =>
    -- an entry has a parent, whatever it is
    obtain ⟨around, inner⟩ := e
    cases inner <;> cases around <;> cases hl
  | none =>
    cases trail with
    | cons name rest => cases hl
    | nil =>
      obtain rfl : scheme = fileScheme := h.file rfl
      decide

theorem Rooted.getLast?_ancestors {l : Location} (h : l.Rooted) :
    l.ancestors.getLast? = some (Location.file "/") := by
  induction l using outward_induction with
  | last l hl => rw [ancestors_of_none hl, h.eq_of_parent?_eq_none hl, List.getLast?_singleton]
  | step l outer ho ih =>
    rw [ancestors_of_parent? ho, List.getLast?_cons, ih (h.parent? ho), Option.getD_some]

theorem Rooted.length_ancestors {l : Location} (h : l.Rooted) : l.ancestors.length = l.depth + 1 := by
  induction l using outward_induction with
  | last l hl =>
    rw [ancestors_of_none hl, h.eq_of_parent?_eq_none hl]
    decide
  | step l outer ho ih =>
    rw [ancestors_of_parent? ho, List.length_cons, ih (h.parent? ho), depth_parent? ho]

theorem Rooted.depth_eq {l : Location} (h : l.Rooted) (htidy : l.Tidy) :
    l.depth = componentCount l.path.text +
      (l.decodedLevels.map fun level => componentCount level + 1).sum := by
  have hlevels : (l.decodedLevels.map fun level => componentCount level + 1) =
      l.levels.map fun level => level.length + 1 := by
    rw [decodedLevels_eq, List.map_map]
    refine List.map_congr_left fun level hlevel => ?_
    rw [Function.comp_apply, (htidy.plain_of_mem_levels level hlevel).componentCount_text]
  rw [Location.depth_eq, hlevels]
  obtain ⟨scheme, ⟨base, trail⟩, entry⟩ := l
  obtain rfl : base = .root := h.base
  have hpath : trail.Plain := htidy.path
  simp [Path.componentCount_text_root hpath, Path.components]

/-- On the way out no URI comes twice. -/
theorem Plain.nodup_uri_ancestors {l : Location} (h : l.Plain) : (l.ancestors.map uri).Nodup := by
  have hplain {a : Location} (ha : a ∈ l.ancestors) : a.Plain :=
    of_mem_ancestors h (fun _ _ ho hm => hm.parent? ho) ha
  refine List.Nodup.map_on (fun a ha b hb huri => ?_) l.nodup_ancestors
  exact Archives.eq_of_uri_eq (hplain ha) (hplain hb) huri

end Location

/-- **Parents lead out.**  However a location was made, the way from parent to parent is its list of
ancestors, and so it ends.  If the location is a file or in an archive and its path is absolute, the way
ends at `file:/`; it has one place for the root, one for each component of the path, and for each level
of the entry one for each of its components and one for its top; and no place comes twice. -/
theorem parents_lead_out {l : Location} (h : l.Made) :
    (∀ n, l.outward n = l.ancestors[n]?) ∧
    (Path.isAbsoluteText l.path.text = true →
      l.scheme = Location.fileScheme ∨ l.scheme = Location.archiveScheme →
      l.ancestors.getLast?.map Location.uri = some "file:/" ∧
      l.ancestors.length = 1 + componentCount l.path.text +
        (l.decodedLevels.map fun level => componentCount level + 1).sum ∧
      (l.ancestors.map Location.uri).Nodup) := by
  refine ⟨l.outward_eq_ancestors, fun habsolute hscheme => ?_⟩
  have htidy := h.tidy
  have hrooted : l.Rooted := by
    rw [Path.isAbsoluteText_text htidy.path] at habsolute
    refine ⟨by simpa [Path.isAbsolute] using habsolute, fun hentry => ?_⟩
    exact hscheme.resolve_right fun harchive => htidy.archive harchive hentry
  have hplain : l.Plain := by
    refine htidy.plain ?_
    rcases hscheme with hscheme | hscheme <;> rw [hscheme]
    · exact Location.legible_file
    · exact Location.legible_archive
  refine ⟨?_, ?_, hplain.nodup_uri_ancestors⟩
  · rw [hrooted.getLast?_ancestors, Option.map_some, Option.some_inj]
    decide
  · rw [hrooted.length_ancestors, hrooted.depth_eq htidy]
    omega

/-- A class in an archive in an archive, the one in a directory of the other. -/
def nestedClass : Location := Location.archive "/w/app.war" "lib/core.jar!/com/Foo.class"

theorem parents_lead_out_nested :
    nestedClass.ancestors.map Location.uri =
        ["archive:/w/app.war!/lib/core.jar!/com/Foo.class", "archive:/w/app.war!/lib/core.jar!/com",
          "archive:/w/app.war!/lib/core.jar!/", "archive:/w/app.war!/lib/core.jar",
          "archive:/w/app.war!/lib", "archive:/w/app.war!/", "file:/w/app.war", "file:/w", "file:/"] ∧
      nestedClass.outward 9 = none ∧ nestedClass.ancestors.length = 1 + 2 + ((2 + 1) + (2 + 1)) ∧
      (nestedClass.ancestors.map Location.uri).Nodup := by
  have hmade : nestedClass.Made := .archive _ _
  obtain ⟨hway, hroot⟩ := parents_lead_out hmade
  obtain ⟨-, hlength, hnodup⟩ := hroot (by decide +kernel) (.inr rfl)
  have hcount : componentCount nestedClass.path.text = 2 ∧
      nestedClass.decodedLevels = ["lib/core.jar", "com/Foo.class"] := by decide +kernel
  have hlevels : componentCount "lib/core.jar" = 2 ∧ componentCount "com/Foo.class" = 2 := by
    decide +kernel
  rw [hcount.1, hcount.2] at hlength
  simp only [List.map_cons, List.map_nil, List.sum_cons, List.sum_nil, hlevels] at hlength
  refine ⟨by decide +kernel, ?_, hlength, hnodup⟩
  rw [hway, List.getElem?_eq_none (by omega)]

end FactGraph
