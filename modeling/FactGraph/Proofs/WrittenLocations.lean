import FactGraph.Proofs.Ancestors
import FactGraph.Proofs.EscapedNames

/-!
# Locations as texts

A location has levels, and a level has names.  All of this can be left in the text: a location is then
a scheme, the text of its path, and the text of its entry as it stands in the URI, still escaped
(`Location.Written`).  Questions are answered, and moves are made, by looking for slashes and for `!/`.

* The top of an archive is an entry text that is empty or ENDS IN `!/`.
* An archive is entered by appending `!/`, and left by cutting off what follows the last one.
* One goes up by cutting at the last slash of the last level, and outside of archives of the path.
* The name is what follows the last slash of the last text that is not empty.

Both views agree, on questions (`Tidy.isArchiveRoot_written`, `Tidy.fileName_written`), on one move
(`Tidy.written_move`), and so after any course of moves (`Tidy.written_travel`).  On the way up nothing is
simplified, and this is where normal form is used: a name holds no slash and a level no `!`, escaped or
not, so the last mark in a text is the last one that was written.  Nothing is decoded either, except to
be shown, since escaping leaves slashes where they are.
-/

namespace FactGraph

/-! ## 1. Cutting at the last mark -/

namespace Split

theorem last_of_notMem {sep : Char} {text : List Char} (h : sep ∉ text) : last sep text = none := by
  induction text with
  | nil => rfl
  | cons c rest ih =>
    obtain ⟨hc, hrest⟩ := not_or.mp (mt List.mem_cons.mpr h)
    simp [last, ih hrest, Ne.symm hc]

theorem last_append {sep : Char} {after : List Char} (h : sep ∉ after) (before : List Char) :
    last sep (before ++ sep :: after) = some (before, after) := by
  induction before with
  | nil => simp [last, last_of_notMem h]
  | cons c rest ih => simp [last, ih]

theorem toList_join_concat {names : List String} (hne : names ≠ []) (name : String) :
    (join "/" (names ++ [name])).toList = (join "/" names).toList ++ '/' :: name.toList := by
  rw [join, String.intercalate_append_of_ne_nil hne (by simp), String.intercalate_singleton]
  simp [join]

/-- Only nothing is cut into one piece that is empty. -/
theorem eq_nil_of_piecesAtPair {a b : Char} {text : List Char} :
    piecesAtPair a b text = [[]] → text = [] := by
  fun_cases piecesAtPair a b text <;> simp_all [piecesAtPair_ne_nil]

/-- The last piece is empty if nothing follows the last pair. -/
theorem getLast?_piecesAtPair {a b : Char} (hab : a ≠ b) (text : List Char) :
    (piecesAtPair a b text).getLast? = some [] ↔ text = [] ∨ [a, b] <:+ text := by
  fun_induction piecesAtPair a b text with
  | case1 => simp
  | case2 c => simp [List.suffix_cons_iff]
  | case3 c d rest hpair ih =>
    obtain ⟨rfl, rfl⟩ := hpair
    rw [List.getLast?_cons_of_ne_nil (piecesAtPair_ne_nil _ _ rest), ih]
    simp [List.suffix_cons_iff, hab, eq_comm]
  | case4 c d rest hpair hnil ih => exact absurd hnil (piecesAtPair_ne_nil a b _)
  | case5 c d rest hpair piece more hcut ih =>
    have hwhole : [a, b] ≠ c :: d :: rest := by
      rintro ⟨rfl, rfl, rfl⟩
      exact hpair ⟨rfl, rfl⟩
    have hone : piece :: more ≠ [[]] := fun hone =>
      List.cons_ne_nil d rest (eq_nil_of_piecesAtPair (hcut.trans hone))
    rw [hcut] at ih
    rw [List.suffix_cons_iff, or_iff_right (by simp), or_iff_right hwhole]
    refine Iff.trans ?_ (ih.trans (or_iff_right (by simp)))
    cases more with
    | nil => simpa using hone
    | cons next others => rfl

end Split

/-! ## 2. The texts of a location -/

namespace Location

/-- A location as its texts: the scheme, the path, and the entry as it stands in the URI. -/
structure Written where
  scheme : String
  path : String
  entry : Option String
deriving DecidableEq, Repr

/-- The texts of a location. -/
def written (l : Location) : Written := ⟨l.scheme, l.path.text, l.entry.map Entry.text⟩

namespace Written

/-- The URI. -/
def uri (w : Written) : String :=
  w.scheme ++ ":" ++ Percent.escape w.path ++ w.entry.elim "" ("!/" ++ ·)

/-- The levels of the text of an entry, as they stand in it. -/
def levelsOf (entry : String) : List String :=
  (Split.piecesAtPair '!' '/' entry.toList).map String.ofList

/-- The levels, decoded; none for plain files. -/
def levels (w : Written) : List String :=
  w.entry.elim [] fun entry => (levelsOf entry).map Percent.unescape

/-- Whether the texts are those of the top of an archive. -/
def isArchiveRoot (w : Written) : Bool :=
  w.scheme = archiveScheme && w.entry.any fun entry => entry = "" || ['!', '/'].isSuffixOf entry.toList

/-- The last piece between slashes that is not empty, or else all of the text. -/
def lastName (text : String) : String :=
  ((Split.texts (· = '/') text).reverse.find? (· ≠ "")).getD text

/-- The name in the last text that is not empty. -/
def fileName (w : Written) : String := lastName ((w.levels.reverse.find? (· ≠ "")).getD w.path)

/-- What stands before the last slash of a level. -/
def outerLevel (level : String) : String :=
  (Split.last '/' level.toList).elim "" fun cut => String.ofList cut.1

/-- What stands before the last slash of a path.  If nothing does, the slash is the root. -/
def outerPath? (path : String) : Option String :=
  (Split.last '/' (path.toList.rdropWhile (· = '/'))).map fun cut =>
    if cut.1 = [] then "/" else String.ofList cut.1

/-- The texts of the top of this resource, read as an archive. -/
def nestedRoot? (w : Written) : Option Written :=
  if w.scheme = fileScheme then some ⟨archiveScheme, Path.normalize w.path, some ""⟩
  else if w.scheme = archiveScheme ∧ !w.isArchiveRoot then
    some { w with entry := some (w.entry.getD "" ++ "!/") }
  else none

/-- The texts of the location that a name leads to. -/
def join (w : Written) (name : String) : Written :=
  match w.entry with
  | some entry => { w with entry := some (Entry.moveText entry name) }
  | none => { w with path := Path.normalize (w.path ++ "/" ++ name) }

/-- The texts of the containing location. -/
def parent? (w : Written) : Option Written :=
  match w.entry with
  | some entry =>
    let outer := (levelsOf entry).dropLast
    let last := (levelsOf entry).getLast?.getD ""
    if last ≠ "" then some { w with entry := some (Split.join "!/" (outer ++ [outerLevel last])) }
    else if outer ≠ [] then some { w with entry := some (Split.join "!/" outer) }
    else some ⟨fileScheme, Path.normalize w.path, none⟩
  | none => (outerPath? w.path).map fun path => { w with path }

/-- The texts of the first `n` levels. -/
def outermost (w : Written) (n : Nat) : Written :=
  { w with entry := some (Split.join "!/" ((levelsOf (w.entry.getD "")).take n)) }

end Written

theorem uri_written (l : Location) : l.written.uri = l.uri := by
  obtain ⟨scheme, path, entry⟩ := l
  cases entry with
  | none => simp [written, Written.uri, uri]
  | some e => simp [written, Written.uri, uri, String.append_assoc]

/-- **The texts tell all locations in normal form apart.** -/
theorem Tidy.eq_of_written {l l' : Location} (h : l.Tidy) (h' : l'.Tidy)
    (heq : l.written = l'.written) : l = l' := by
  obtain ⟨scheme, path, entry⟩ := l
  obtain ⟨scheme', path', entry'⟩ := l'
  simp only [written, Written.mk.injEq] at heq
  obtain ⟨rfl, hpath, hentry⟩ := heq
  obtain rfl : path = path' :=
    (Path.ofText_text h.path).symm.trans ((congrArg Path.ofText hpath).trans (Path.ofText_text h'.path))
  cases entry with
  | none =>
    obtain rfl : entry' = none := by simpa [eq_comm] using hentry
    rfl
  | some e =>
    obtain ⟨e', rfl, htext⟩ := Option.map_eq_some_iff.mp hentry.symm
    obtain rfl : e = e' := by
      rw [← Entry.ofText_text (h.entry e rfl), ← htext, Entry.ofText_text (h'.entry e' rfl)]
    rfl

/-! ## 3. Names, levels and paths -/

namespace Written

theorem levelsOf_text (e : Entry) : levelsOf e.text = e.levels.map Entry.levelText := by
  simp [levelsOf, Entry.piecesAtPair_text, Function.comp_def]

theorem levels_written (l : Location) : l.written.levels = l.levels.map Trail.text := by
  rw [← decodedLevels_eq]
  cases he : l.entry <;> simp [levels, written, decodedLevels, levelsOf, he, Function.comp_def]

theorem lastName_join {names : List String} {name : String} (hne : name ≠ "")
    (h : ∀ n ∈ names ++ [name], '/' ∉ n.toList) :
    lastName (Split.join "/" (names ++ [name])) = name := by
  rw [lastName, Split.texts_join_slash (by simp) h]
  simp [hne]

theorem outerLevel_join (names : List String) {name : String} (h : '/' ∉ name.toList) :
    outerLevel (Split.join "/" (names ++ [name])) = Split.join "/" names := by
  by_cases hne : names = []
  · subst hne
    simp [outerLevel, Split.join, Split.last_of_notMem h]
  · rw [outerLevel, Split.toList_join_concat hne, Split.last_append h]
    simp

theorem outerPath?_join (names : List String) {name : String} (hne : name ≠ "")
    (h : '/' ∉ name.toList) :
    outerPath? (Split.join "/" (names ++ [name])) =
      if names = [] then none
      else some (if Split.join "/" names = "" then "/" else Split.join "/" names) := by
  have hname : name.toList ≠ [] := mt String.toList_eq_nil_iff.mp hne
  -- the text ends with the name, so there are no slashes to be taken off its end
  have htrim : (Split.join "/" (names ++ [name])).toList.rdropWhile (· = '/') =
      (Split.join "/" (names ++ [name])).toList := by
    rw [List.rdropWhile_eq_self_iff, Split.join_concat, String.toList_append]
    intro _ hslash
    rw [List.getLast_append_of_ne_nil _ hname] at hslash
    exact h (of_decide_eq_true hslash ▸ List.getLast_mem hname)
  rw [outerPath?, htrim]
  by_cases hnames : names = []
  · simp [hnames, Split.join, Split.last_of_notMem h]
  · rw [Split.toList_join_concat hnames, Split.last_append h, if_neg hnames]
    simp

end Written

end Location

theorem Trail.Plain.text_eq_empty_iff {trail : Trail} (h : trail.Plain) :
    trail.text = "" ↔ trail = [] := by
  refine ⟨not_imp_not.mp h.text_ne_empty, ?_⟩
  rintro rfl
  rfl

theorem Trail.Plain.lastName_text {name : String} {outer : Trail} (h : Trail.Plain (name :: outer)) :
    Location.Written.lastName (Trail.text (name :: outer)) = name := by
  have hslash : ∀ n ∈ outer.reverse ++ [name], '/' ∉ n.toList := by
    intro n hn
    exact (h n (by simpa [or_comm] using hn)).slash
  rw [Trail.text, List.reverse_cons]
  exact Location.Written.lastName_join (h name List.mem_cons_self).ne_empty hslash

/-- Only two paths have no component, the root and the unnamed place. -/
theorem Path.eq_of_components_eq_nil {p : Path} (h : p.components = []) :
    p = ⟨.root, []⟩ ∨ p = ⟨.above 0, []⟩ := by
  obtain ⟨base, trail⟩ := p
  cases base with
  | root =>
    obtain rfl : trail = [] := List.reverse_eq_nil_iff.mp h
    exact .inl rfl
  | above ups =>
    obtain ⟨hups, htrail⟩ := List.append_eq_nil_iff.mp h
    obtain rfl : ups = 0 := by simpa using hups
    obtain rfl : trail = [] := List.reverse_eq_nil_iff.mp htrail
    exact .inr rfl

theorem Path.Plain.lastName_text {p : Path} (h : p.Plain) :
    Location.Written.lastName p.text = p.lastName.getD p.text := by
  by_cases hne : p.components = []
  · rcases eq_of_components_eq_nil hne with rfl | rfl <;> decide
  · obtain ⟨outer, name, hcomponents⟩ := (List.eq_nil_or_concat p.components).resolve_left hne
    rw [List.concat_eq_append] at hcomponents
    have hslash := h.slash_notMem
    rw [hcomponents, ← List.append_assoc] at hslash
    rw [text_eq_join hne, lastName, hcomponents, ← List.append_assoc,
      Location.Written.lastName_join (h.free name (by simp [hcomponents])).1 hslash]
    simp

theorem Trail.Plain.outerLevel_levelText {name : String} {outer : Trail}
    (h : Trail.Plain (name :: outer)) :
    Location.Written.outerLevel (Entry.levelText (name :: outer)) = Entry.levelText outer := by
  -- escaped or not, a name holds no slash
  have hslash : '/' ∉ (Percent.escape name).toList := by
    rw [Percent.escape_eq, List.mem_flatMap]
    rintro ⟨c, hc, hmem⟩
    have hfree := (h name List.mem_cons_self).free c hc
    exact absurd (Percent.keeps_separators.free c hfree '/' hmem) (by decide)
  rw [Entry.levelText, ← Trail.text_map_escape, Trail.text, List.map_cons, List.reverse_cons,
    Location.Written.outerLevel_join _ hslash, Entry.levelText, ← Trail.text_map_escape, Trail.text]

theorem Entry.text_ofLevels (levels : List Trail) :
    (ofLevels levels).text = Split.join "!/" (levels.map levelText) := by
  by_cases hne : levels = []
  · subst hne
    decide
  · rw [text, levels_ofLevels hne]

/-- The top of the archive at an entry. -/
theorem Entry.text_into (e : Entry) : text ⟨e.levels, []⟩ = e.text ++ "!/" := by
  have hne : e.levels.map levelText ≠ [] := by simp [levels]
  have htop : levelText [] = "" := by decide
  rw [text, levels, List.map_append, List.map_singleton, htop, Split.join,
    String.intercalate_append_of_ne_nil hne (by simp), String.intercalate_singleton, String.append_empty]
  rfl

theorem Path.Plain.normalize_text {p : Path} (h : p.Plain) : normalize p.text = p.text :=
  congrArg Path.text (ofText_text h)

/-- A step up takes the last component away, and keeps the start.  What is left names a place: it is a
component, or the root. -/
theorem Path.parent?_of_components {p : Path} (hne : p.components ≠ []) :
    (p.parent? = none ∧ p.isAbsolute = false ∧ p.components.dropLast = []) ∨
      ∃ outer, p.parent? = some outer ∧ outer.isAbsolute = p.isAbsolute ∧
        outer.components = p.components.dropLast ∧ (outer.isAbsolute = true ∨ outer.components ≠ []) := by
  obtain ⟨base, trail⟩ := p
  cases base with
  | root =>
    cases trail with
    | nil => exact absurd rfl hne
    | cons name outer => exact .inr ⟨⟨.root, outer⟩, rfl, rfl, by simp [components], .inl rfl⟩
  | above ups =>
    cases trail with
    | nil =>
      by_cases hups : ups ≤ 1
      · refine .inl ⟨if_pos hups, rfl, ?_⟩
        simp only [components, List.reverse_nil, List.append_nil, List.dropLast_replicate]
        rw [Nat.sub_eq_zero_of_le hups, List.replicate_zero]
      · refine .inr ⟨⟨.above (ups - 1), []⟩, if_neg hups, rfl, ?_, .inr ?_⟩
        · simp [components]
        · simp [components]
          omega
    | cons name outer =>
      by_cases hone : outer = [] ∧ ups = 0
      · exact .inl ⟨if_pos hone, rfl, by simp [components, hone]⟩
      · refine .inr ⟨⟨.above ups, outer⟩, if_neg hone, rfl, ?_, .inr ?_⟩
        · simp [components]
        · simpa [components, and_comm] using hone

/-- The path whose last component is taken away is what stands before the last slash. -/
theorem Path.Plain.outerPath?_text {p : Path} (h : p.Plain) :
    Location.Written.outerPath? p.text = p.parent?.map Path.text := by
  by_cases hne : p.components = []
  · rcases eq_of_components_eq_nil hne with rfl | rfl <;> decide
  · obtain ⟨outer, name, hcomponents⟩ := (List.eq_nil_or_concat p.components).resolve_left hne
    rw [List.concat_eq_append] at hcomponents
    have hname := h.free name (by simp [hcomponents])
    have hslash : '/' ∉ name.toList := fun hmem => absurd (hname.2 '/' hmem) (by decide)
    rw [text_eq_join hne, hcomponents, ← List.append_assoc,
      Location.Written.outerPath?_join _ hname.1 hslash]
    rcases parent?_of_components hne with ⟨hup, habs, hdrop⟩ | ⟨q, hup, habs, hdrop, hplace⟩
    · rw [hcomponents, List.dropLast_concat] at hdrop
      simp [hup, habs, hdrop]
    · rw [hcomponents, List.dropLast_concat] at hdrop
      have hfront : (if q.isAbsolute then [""] else []) ++ q.components ≠ [] := by
        rcases hplace with hplace | hplace <;> simp [hplace]
      rw [hup, ← habs, ← hdrop, if_neg hfront, Option.map_some]
      by_cases hq : q.components = []
      · rcases eq_of_components_eq_nil hq with rfl | rfl
        · decide
        · exact absurd hplace (by decide)
      · rw [← text_eq_join hq, if_neg (text_ne_empty (h.parent? hup))]

namespace Location

/-! ## 4. Questions -/

theorem Tidy.isArchiveRoot_written {l : Location} (h : l.Tidy) :
    l.written.isArchiveRoot = l.isArchiveRoot := by
  obtain ⟨scheme, path, entry⟩ := l
  cases entry with
  | none => rfl
  | some e =>
    have hcut := Split.getLast?_piecesAtPair (a := '!') (b := '/') (by decide) e.text.toList
    rw [Entry.piecesAtPair_text] at hcut
    have htop : e.text = "" ∨ ['!', '/'] <:+ e.text.toList ↔ e.inner = [] := by
      rw [← String.toList_eq_nil_iff, ← hcut, ← (h.entry e rfl).inner.text_eq_empty_iff]
      simp [Entry.levels, Entry.levelText, (Percent.transparent _).empty]
    have hbool : (decide (e.text = "") || ['!', '/'].isSuffixOf e.text.toList) =
        decide (e.inner = []) := by
      rw [Bool.eq_iff_iff]
      simp [← htop, List.isSuffixOf_iff_suffix]
    exact congrArg (decide (scheme = archiveScheme) && ·) hbool

theorem Tidy.fileName_written {l : Location} (h : l.Tidy) : l.written.fileName = l.fileName := by
  have hnonempty : ∀ level ∈ l.levels.reverse, decide (level.text ≠ "") = decide (level ≠ []) := by
    intro level hlevel
    have hplain := h.plain_of_mem_levels level (List.mem_reverse.mp hlevel)
    simp [hplain.text_eq_empty_iff]
  have hfind : l.written.levels.reverse.find? (· ≠ "") =
      (l.levels.reverse.find? (· ≠ [])).map Trail.text := by
    rw [Written.levels_written, ← List.map_reverse, List.find?_map]
    exact congrArg (Option.map Trail.text) (List.find?_congr hnonempty)
  rw [Written.fileName, hfind, Location.fileName]
  cases hlevel : l.levels.reverse.find? (· ≠ []) with
  | none => exact h.path.lastName_text
  | some level =>
    have hmem := List.mem_reverse.mp (List.mem_of_find?_eq_some hlevel)
    have hne : level ≠ [] := by simpa using List.find?_some hlevel
    obtain ⟨name, outer, rfl⟩ := List.exists_cons_of_ne_nil hne
    exact (h.plain_of_mem_levels _ hmem).lastName_text

/-! ## 5. Moves -/

theorem Tidy.written_join {l : Location} (h : l.Tidy) (name : String) :
    (l.join name).written = l.written.join name := by
  obtain ⟨scheme, path, entry⟩ := l
  cases entry with
  | none =>
    have hpath := h.text_path_join rfl name
    simpa [written, Written.join, Location.join] using hpath
  | some e =>
    rw [join_of_entry rfl]
    simp [written, Written.join, (h.entry e rfl).moveText_text]

theorem Tidy.written_nestedRoot? {l : Location} (h : l.Tidy) :
    l.nestedRoot?.map written = l.written.nestedRoot? := by
  have hscheme : l.written.scheme = l.scheme := rfl
  rw [Written.nestedRoot?, h.isArchiveRoot_written, hscheme, Location.nestedRoot?]
  split_ifs with hfile harchive
  · have htop : Entry.top.text = "" := by decide
    simp [written, h.path.normalize_text, htop]
  · obtain ⟨e, he⟩ := Option.ne_none_iff_exists'.mp (h.archive harchive.1)
    simp [written, levels, he, e.text_into]
  · rfl

theorem Tidy.written_parent? {l : Location} (h : l.Tidy) :
    l.parent?.map written = l.written.parent? := by
  obtain ⟨scheme, path, entry⟩ := l
  cases entry with
  | none =>
    have hup := h.path.outerPath?_text
    simp [written, Written.parent?, Location.parent?, hup, Function.comp_def]
  | some e =>
    obtain ⟨outer, inner⟩ := e
    have hplain := h.entry _ rfl
    have hlevels : Written.levelsOf (Entry.text ⟨outer, inner⟩) =
        outer.map Entry.levelText ++ [Entry.levelText inner] := by
      simp [Written.levelsOf_text, Entry.levels]
    cases inner with
    | cons name trail =>
      have hlast : Entry.levelText (name :: trail) ≠ "" := by
        simpa [Entry.levelText, (Percent.transparent _).empty] using hplain.inner.text_ne_empty (by simp)
      have hup : Entry.text ⟨outer, trail⟩ =
          Split.join "!/" (outer.map Entry.levelText ++ [Entry.levelText trail]) := by
        simp [Entry.text, Entry.levels]
      simp [written, Location.parent?, Written.parent?, hlevels, hlast, hup,
        hplain.inner.outerLevel_levelText]
    | nil =>
      have hlast : Entry.levelText [] = "" := by decide
      by_cases hne : outer = []
      · subst hne
        simp [written, Location.parent?, Written.parent?, hlevels, hlast, h.path.normalize_text]
      · rw [parent?_top scheme path hne]
        simp [written, Written.parent?, hlevels, hlast, hne, Entry.text_ofLevels]

theorem written_outermost (l : Location) (n : Nat) :
    (l.outermost n).written = l.written.outermost n := by
  have hlevels : Split.join "!/" ((l.levels.take n).map Entry.levelText) =
      Split.join "!/" ((Written.levelsOf (l.written.entry.getD "")).take n) := by
    cases he : l.entry with
    | none => cases n <;> simp [written, levels, he, Written.levelsOf, Split.piecesAtPair, Split.join]
    | some e => simp [written, levels, he, Written.levelsOf_text]
  simp only [outermost, Written.outermost, ← hlevels]
  simp [written, Entry.text_ofLevels]

/-- A move from a location. -/
inductive Move where
  | down (name : String)
  | up
  /-- Into the archive that the location holds. -/
  | into
deriving DecidableEq, Repr

/-- Where a move leads, if it can be made. -/
def move (l : Location) : Move → Option Location
  | .down name => some (l.join name)
  | .up => l.parent?
  | .into => l.nestedRoot?

/-- The same, of the texts. -/
def Written.move (w : Written) : Move → Option Written
  | .down name => some (w.join name)
  | .up => w.parent?
  | .into => w.nestedRoot?

/-- **One move**: the texts of where it leads are what it makes of the texts. -/
theorem Tidy.written_move {l : Location} (h : l.Tidy) (m : Move) :
    (l.move m).map written = l.written.move m := by
  cases m with
  | down name => exact congrArg some (h.written_join name)
  | up => exact h.written_parent?
  | into => exact h.written_nestedRoot?

theorem Tidy.move {l l' : Location} (h : l.Tidy) {m : Move} (hm : l.move m = some l') : l'.Tidy := by
  cases m with
  | down name =>
    obtain rfl : l.join name = l' := Option.some.inj hm
    exact h.join name
  | up => exact h.parent? hm
  | into => exact h.nestedRoot? hm

/-- **Any course of moves**: it can be made on the texts, with the same outcome. -/
theorem Tidy.written_travel {l : Location} (h : l.Tidy) (moves : List Move) :
    (moves.foldlM Location.move l).map written = moves.foldlM Written.move l.written := by
  induction moves generalizing l with
  | nil => rfl
  | cons m rest ih =>
    rw [List.foldlM_cons, List.foldlM_cons, ← h.written_move m]
    cases hm : l.move m with
    | none => rfl
    | some l' => exact ih (h.move hm)

/-- Into an archive, down to a jar with a mark in its name, into that, and out again to its directory. -/
example : [.into, .down "lib\\50%!.jar", .into, .down "A.class", .up, .up, .up].foldlM Written.move
    (file "/w/a.zip").written = some (archive "/w/a.zip" "lib").written := by decide +kernel

end Location

end FactGraph
