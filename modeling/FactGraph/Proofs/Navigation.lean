import FactGraph.Proofs.StorageForms

/-!
# Navigation

From a location one goes down by a name, up to what contains it, and into an archive.  However a
location was come by, two things hold of it.

* It is CONTAINED.  An entry path may be written with encoded dots and slashes, with backslashes, with
  any number of `!/`; what is read back from the location, level by level, are names and slashes, and
  none of the names leads up (`entry_contained`).  The reason is an order of things: a level is decoded
  before it is walked, so whatever is a step up by then is taken inside the archive, where there is no
  way above the top; and what is written afterwards decodes to the same names.
* Going down and going up are INVERSE (`down_and_up`), for every name that is not itself a step.  The
  one place with no way back is the unnamed one, `.`: a name below it is a path of one component, and
  such a path has no parent.

Nothing of this depends on how long the scheme is, so it is said of locations that are put together
from parts, too, of which some have a URI that is not read as one (`Location.Made`).
-/

namespace FactGraph

/-! ## 1. Texts and what they are cut into -/

/-- The text of a level that stays in its archive: cut at its slashes, it is names, or it is empty. -/
def Trail.Contained (text : String) : Prop :=
  text = "" ∨ ∀ name ∈ Split.texts (· = '/') text, Simple name

/-- The text of an outermost path in normal form, by what it is cut into at its slashes. -/
inductive Path.Normal (text : String) : Prop
  | here (h : text = ".")
  | root (h : text = "/")
  | absolute (names : List String) (hne : names ≠ []) (hnames : ∀ name ∈ names, Simple name)
      (h : Split.texts (· = '/') text = "" :: names)
  /-- Steps up stand in front of all names. -/
  | relative (ups : Nat) (names : List String) (hne : List.replicate ups ".." ++ names ≠ [])
      (hnames : ∀ name ∈ names, Simple name)
      (h : Split.texts (· = '/') text = List.replicate ups ".." ++ names)

/-- Texts without slashes, joined with slashes and cut again. -/
theorem Split.texts_join_slash {names : List String} (hne : names ≠ [])
    (h : ∀ name ∈ names, '/' ∉ name.toList) : texts (· = '/') (join "/" names) = names := by
  refine texts_join _ '/' (by decide) hne fun name hname c hc => ?_
  simpa using ne_of_mem_of_not_mem hc (h name hname)

theorem Trail.Plain.texts_text {trail : Trail} (h : trail.Plain) (hne : trail ≠ []) :
    Split.texts (· = '/') trail.text = trail.reverse := by
  refine Split.texts_join_slash (by simpa using hne) fun name hname => ?_
  exact (h name (List.mem_reverse.mp hname)).slash

theorem Trail.Plain.contained {trail : Trail} (h : trail.Plain) : Contained trail.text := by
  by_cases hne : trail = []
  · subst hne
    exact .inl rfl
  · refine .inr fun name hname => ?_
    rw [h.texts_text hne] at hname
    exact h name (List.mem_reverse.mp hname)

theorem Trail.Plain.text_ne_empty {trail : Trail} (h : trail.Plain) (hne : trail ≠ []) :
    trail.text ≠ "" := by
  intro htext
  have hback := ofText_text h
  rw [htext] at hback
  exact hne (hback.symm.trans (by decide))

/-- The components that a text is joined from: the slash in front of an absolute path is one between an
empty component and the first. -/
theorem Path.text_eq_join {p : Path} (hne : p.components ≠ []) :
    p.text = Split.join "/" ((if p.isAbsolute then [""] else []) ++ p.components) := by
  obtain ⟨base, trail⟩ := p
  cases base with
  | root =>
    have hjoin : Split.join "/" ("" :: components ⟨.root, trail⟩) =
        "/" ++ Split.join "/" (components ⟨.root, trail⟩) := by
      rw [Split.join, String.intercalate_cons_of_ne_nil hne, String.empty_append]
      rfl
    exact hjoin.symm
  | above ups => exact text_above hne

theorem Path.Plain.slash_notMem {p : Path} (h : p.Plain) :
    ∀ name ∈ (if p.isAbsolute then [""] else []) ++ p.components, '/' ∉ name.toList := by
  intro name hname hslash
  rcases List.mem_append.mp hname with hname | hname
  · split_ifs at hname
    · simp [List.mem_singleton.mp hname] at hslash
    · cases hname
  · exact absurd ((h.free name hname).2 '/' hslash) (by decide)

theorem Path.Plain.texts_text {p : Path} (h : p.Plain) (hne : p.components ≠ []) :
    Split.texts (· = '/') p.text = (if p.isAbsolute then [""] else []) ++ p.components := by
  rw [text_eq_join hne]
  exact Split.texts_join_slash (by simp [hne]) h.slash_notMem

theorem Path.Plain.normal {p : Path} (h : p.Plain) : Normal p.text := by
  have htexts := h.texts_text
  obtain ⟨base, trail⟩ := p
  have hplain : ∀ name ∈ trail.reverse, Simple name := fun name hname =>
    h name (List.mem_reverse.mp hname)
  cases base with
  | root =>
    by_cases hne : trail.reverse = []
    · exact .root (by simp [text, components, hne, Split.join])
    · exact .absolute trail.reverse hne hplain (htexts hne)
  | above ups =>
    by_cases hne : components ⟨.above ups, trail⟩ = []
    · exact .here (by simp [text, hne])
    · exact .relative ups trail.reverse hne hplain (htexts hne)

/-! ## 2. Every location -/

namespace Location

/-- The locations that can be made: read, named or put together, and then moved from. -/
inductive Made : Location → Prop
  | parse (text : String) {l : Location} (h : parse text = .ok l) : Made l
  | ofParts (scheme path : String) (entry : Option String) {l : Location}
      (h : ofParts scheme path entry = .ok l) : Made l
  | file (path : String) : Made (file path)
  | archive (path entry : String) : Made (archive path entry)
  | join {l : Location} (h : Made l) (name : String) : Made (l.join name)
  | parent {l outer : Location} (h : Made l) (ho : l.parent? = some outer) : Made outer
  | nestedRoot {l root : Location} (h : Made l) (hr : l.nestedRoot? = some root) : Made root

theorem Made.tidy {l : Location} (h : l.Made) : l.Tidy := by
  induction h with
  | parse text h => exact (plain_of_parse h).tidy
  | ofParts scheme path entry h => exact (tidy_of_ofParts h).1
  | file path => exact tidy_fileAt (Path.plain_ofText path)
  | archive path entry => exact tidy_archiveAt (Path.plain_ofText path) (Entry.plain_ofText entry)
  | join _ name ih => exact ih.join name
  | parent _ ho ih => exact ih.parent? ho
  | nestedRoot _ hr ih => exact ih.nestedRoot? hr

theorem Tidy.plain_of_mem_levels {l : Location} (h : l.Tidy) : ∀ level ∈ l.levels, level.Plain := by
  unfold Location.levels
  split
  · next e he => exact (h.entry e he).levels
  · simp

/-- Only the last level may be the top of an archive. -/
theorem Tidy.ne_nil_of_mem_dropLast {l : Location} (h : l.Tidy) {level : Trail}
    (hl : level ∈ l.levels.dropLast) : level ≠ [] := by
  unfold Location.levels at hl
  split at hl
  · next e he =>
    rw [Entry.levels, List.dropLast_concat] at hl
    exact ((h.entry e he).outer level hl).1
  · cases hl

/-- The levels of a location as they are read from its entry: cut at every `!/`, and decoded. -/
def decodedLevels (l : Location) : List String :=
  (l.entry.map Entry.text).elim [] fun text =>
    (Split.piecesAtPair '!' '/' text.toList).map fun piece => Percent.unescape (String.ofList piece)

/-- What is read is what was written. -/
theorem decodedLevels_eq (l : Location) : l.decodedLevels = l.levels.map Trail.text := by
  cases he : l.entry with
  | none => simp [decodedLevels, levels, he]
  | some e =>
    simp [decodedLevels, levels, he, Entry.piecesAtPair_text, Function.comp_def, Entry.levelText,
      Percent.unescape_escape]

end Location

/-! ## 3. Down and up -/

/-- A name below a place is taken back by a step up, except below the unnamed one. -/
theorem Path.parent?_down {p : Path} (h : p.text ≠ ".") (name : String) :
    (p.step (.down name)).parent? = some p := by
  obtain ⟨base, trail⟩ := p
  cases base with
  | root => rfl
  | above ups =>
    have hnamed : ¬ (trail = [] ∧ ups = 0) := by
      rintro ⟨rfl, rfl⟩
      exact h (by decide)
    exact if_neg hnamed

namespace Location

theorem parent?_join {l : Location} {name : String} (hname : Simple name)
    (h : l.entry ≠ none ∨ l.path.text ≠ ".") : (l.join name).parent? = some l := by
  have hsteps := Step.ofPath_simple hname
  obtain ⟨scheme, path, entry⟩ := l
  cases entry with
  | some e => simp [join, hsteps, Trail.walk, Trail.step, parent?]
  | none =>
    have hup := Path.parent?_down (h.resolve_left (by simp)) name
    simp [join, hsteps, Path.walk, parent?, hup]

/-- The top of an archive is not entered again. -/
theorem nestedRoot?_of_root {l : Location} (h : l.isArchiveRoot = true) : l.nestedRoot? = none := by
  have hscheme : l.scheme = archiveScheme := of_decide_eq_true (Bool.and_eq_true_iff.mp h).1
  have hother : l.scheme ≠ fileScheme := by
    rw [hscheme]
    decide
  simp [nestedRoot?, hother, h]

/-- Above the top of an inner archive is the entry that it is read from. -/
theorem parent?_top (scheme : String) (path : Path) {outer : List Trail} (h : outer ≠ []) :
    parent? ⟨scheme, path, some ⟨outer, []⟩⟩ = some ⟨scheme, path, some (Entry.ofLevels outer)⟩ := by
  obtain ⟨first, rest, rfl⟩ := List.exists_cons_of_ne_nil h
  rfl

theorem Tidy.of_nestedRoot? {l root : Location} (h : l.Tidy) (hr : l.nestedRoot? = some root) :
    root.isArchiveRoot = true ∧ root.parent? = some l ∧ root.nestedRoot? = none := by
  have hup : root.isArchiveRoot = true ∧ root.parent? = some l := by
    obtain ⟨scheme, path, entry⟩ := l
    unfold Location.nestedRoot? at hr
    split_ifs at hr with hfile harchive
    · cases hr
      obtain rfl : scheme = fileScheme := hfile
      obtain rfl : entry = none := h.file rfl
      exact ⟨by simp [isArchiveRoot, Entry.top], rfl⟩
    · cases hr
      obtain ⟨e, rfl⟩ := Option.ne_none_iff_exists'.mp (h.archive harchive.1)
      have hlevels : levels ⟨scheme, path, some e⟩ = e.outer ++ [e.inner] := rfl
      refine ⟨by simpa [isArchiveRoot] using harchive.1, ?_⟩
      rw [hlevels, parent?_top scheme path (by simp), Entry.ofLevels_concat]
  exact ⟨hup.1, hup.2, nestedRoot?_of_root hup.1⟩

end Location

/-! ## 4. However it was come by -/

/-- **Nothing escapes its archive.**  However a location was made: its levels, as they are read from its
entry, are names with slashes between them; only the last of them may be empty; and its outermost path
is in normal form, with steps up only in front of a relative one. -/
theorem entry_contained {l : Location} (h : l.Made) :
    l.decodedLevels = l.levels.map Trail.text ∧
      (∀ level ∈ l.decodedLevels, Trail.Contained level) ∧
      (∀ level ∈ l.decodedLevels.dropLast, level ≠ "") ∧ Path.Normal l.path.text := by
  have htidy := h.tidy
  refine ⟨l.decodedLevels_eq, ?_, ?_, htidy.path.normal⟩
  · intro level hlevel
    rw [l.decodedLevels_eq] at hlevel
    obtain ⟨trail, htrail, rfl⟩ := List.mem_map.mp hlevel
    exact (htidy.plain_of_mem_levels trail htrail).contained
  · intro level hlevel
    rw [l.decodedLevels_eq, ← List.map_dropLast] at hlevel
    obtain ⟨trail, htrail, rfl⟩ := List.mem_map.mp hlevel
    exact (htidy.plain_of_mem_levels trail (List.mem_of_mem_dropLast htrail)).text_ne_empty
      (htidy.ne_nil_of_mem_dropLast htrail)

/-- An entry that tries to leave its archive: with encoded and doubly encoded dots, encoded and plain
slashes of both kinds, levels that lead nowhere, and a move that goes up too far. -/
def hostileEntry : Location :=
  (Location.archive "..\\x/.././/../a!b.zip"
    "%2e%2e/..%5Cetc%2Flib.zip!/%2E/.!/..%2f%252e%252e!/p\\%2e%2e\\q").join "..\\../..\\%2e%2e"

/-- It stays inside, at an entry whose name only looks like a step up. -/
theorem entry_contained_hostile :
    hostileEntry.decodedLevels = ["etc/lib.zip", "%2e%2e", "%2e%2e"] ∧
      hostileEntry.path.text = "../../a!b.zip" ∧
      (∀ level ∈ hostileEntry.decodedLevels, Trail.Contained level) ∧
      (∀ level ∈ hostileEntry.decodedLevels.dropLast, level ≠ "") ∧
      Path.Normal hostileEntry.path.text :=
  ⟨by decide +kernel, by decide +kernel, (entry_contained ((Location.Made.archive _ _).join _)).2⟩

/-- **Down and up are inverse.**  However a location was made, a name that is no step by itself leads to a
place of that name whose parent is the location, except below the unnamed place; and the top of the
archive at a location is a top, whose parent is the location, and is not entered again. -/
theorem down_and_up {l : Location} (h : l.Made) :
    (∀ name, Simple name → l.entry ≠ none ∨ l.path.text ≠ "." →
      (l.join name).parent? = some l ∧ (l.join name).fileName = name) ∧
    ∀ root, l.nestedRoot? = some root →
      root.isArchiveRoot = true ∧ root.parent? = some l ∧ root.nestedRoot? = none :=
  ⟨fun _ hname hplace => ⟨Location.parent?_join hname hplace, l.fileName_join hname⟩,
    fun _ hroot => h.tidy.of_nestedRoot? hroot⟩

/-- Below an entry a name may hold what separates levels and what encodes, and the archive in that entry
is left the way it was entered.  There is no way back to the unnamed place. -/
theorem down_and_up_entry :
    ((bangedEntry.join "50%!é").parent? = some bangedEntry ∧
        (bangedEntry.join "50%!é").fileName = "50%!é") ∧
      (∃ root, bangedEntry.nestedRoot? = some root ∧ root.isArchiveRoot = true ∧
        root.parent? = some bangedEntry ∧ root.nestedRoot? = none) ∧
      ((Location.file ".").join "a").parent? = none := by
  obtain ⟨hdown, hinto⟩ := down_and_up ((Location.Made.archive _ _).join _ : bangedEntry.Made)
  obtain ⟨root, hroot⟩ : ∃ root, bangedEntry.nestedRoot? = some root :=
    Option.isSome_iff_exists.mp (by decide +kernel)
  exact ⟨hdown _ (by decide +kernel) (.inl (by decide +kernel)), ⟨root, hroot, hinto root hroot⟩,
    by decide +kernel⟩

end FactGraph
