import FactGraph.Location
import FactGraph.Proofs.Encodings
import FactGraph.Proofs.Paths

/-!
# Locations and their URIs

A URI is cut before any of it is read: at the first colon, at the first `!/`, and at every further
`!/`.  Reading a written URI therefore gives back its parts if none of these marks can appear inside
a part.  A scheme has no colon, and neither a written path nor a written level has a `!`; a written path
never starts with two slashes, so nothing is taken off its front.

Main statements: `Location.parse_uri` (a URI is read as the location it was written for),
`Location.Reached.plain` (every location that can be built is in normal form), `uri_roundTrip`.
-/

namespace FactGraph

/-! ## 1. Cutting at pairs of characters -/

namespace Split

variable {a b : Char}

theorem first_append {sep : Char} {before : List Char} (h : sep ∉ before) (after : List Char) :
    first sep (before ++ sep :: after) = some (before, after) := by
  induction before with
  | nil => simp [first]
  | cons c rest ih =>
    obtain ⟨hc, hrest⟩ := not_or.1 (mt List.mem_cons.2 h)
    simp [first, Ne.symm hc, ih hrest]

theorem firstPair_cons_of_ne {c : Char} (h : c ≠ a) (rest : List Char) :
    firstPair a b (c :: rest) =
      (firstPair a b rest).map fun (before, after) => (c :: before, after) := by
  cases rest with
  | nil => rfl
  | cons d more => simp [firstPair, h]

theorem firstPair_of_not_mem {text : List Char} (h : a ∉ text) : firstPair a b text = none := by
  induction text with
  | nil => rfl
  | cons c rest ih =>
    obtain ⟨hc, hrest⟩ := not_or.1 (mt List.mem_cons.2 h)
    rw [firstPair_cons_of_ne (Ne.symm hc), ih hrest]
    rfl

theorem firstPair_append {before : List Char} (h : a ∉ before) (after : List Char) :
    firstPair a b (before ++ a :: b :: after) = some (before, after) := by
  induction before with
  | nil => simp [firstPair]
  | cons c rest ih =>
    obtain ⟨hc, hrest⟩ := not_or.1 (mt List.mem_cons.2 h)
    rw [List.cons_append, firstPair_cons_of_ne (Ne.symm hc), ih hrest]
    rfl

theorem piecesAtPair_cons_of_ne {c : Char} (h : c ≠ a) (rest : List Char) :
    piecesAtPair a b (c :: rest) = (piecesAtPair a b rest).modifyHead (c :: ·) := by
  cases rest with
  | nil => rfl
  | cons d more =>
    rw [piecesAtPair, if_neg (by simp [h])]
    cases hp : piecesAtPair a b (d :: more) with
    | nil => exact absurd hp (piecesAtPair_ne_nil a b _)
    | cons piece others => rfl

theorem piecesAtPair_of_not_mem {text : List Char} (h : a ∉ text) :
    piecesAtPair a b text = [text] := by
  induction text with
  | nil => rfl
  | cons c rest ih =>
    obtain ⟨hc, hrest⟩ := not_or.1 (mt List.mem_cons.2 h)
    rw [piecesAtPair_cons_of_ne (Ne.symm hc), ih hrest]
    rfl

theorem piecesAtPair_append {piece : List Char} (h : a ∉ piece) (rest : List Char) :
    piecesAtPair a b (piece ++ a :: b :: rest) = piece :: piecesAtPair a b rest := by
  induction piece with
  | nil => simp [piecesAtPair]
  | cons c more ih =>
    obtain ⟨hc, hmore⟩ := not_or.1 (mt List.mem_cons.2 h)
    rw [List.cons_append, piecesAtPair_cons_of_ne (Ne.symm hc), ih hmore]
    rfl

/-- The last of several texts stands at the end. -/
theorem join_concat (sep : String) (texts : List String) (last : String) :
    join sep (texts ++ [last]) = join sep (texts ++ [""]) ++ last := by
  by_cases hne : texts = []
  · subst hne
    simp [join]
  · rw [join, join, String.intercalate_append_of_ne_nil hne (by simp),
      String.intercalate_append_of_ne_nil hne (by simp)]
    simp

/-- Texts without the first character of a pair, joined with the pair and cut again. -/
theorem piecesAtPair_join {texts : List String} (hne : texts ≠ []) (h : ∀ t ∈ texts, '!' ∉ t.toList) :
    piecesAtPair '!' '/' (join "!/" texts).toList = texts.map String.toList := by
  induction texts with
  | nil => contradiction
  | cons t rest ih =>
    obtain ⟨ht, hrest⟩ := List.forall_mem_cons.1 h
    by_cases hr : rest = []
    · simp [hr, join, piecesAtPair_of_not_mem ht]
    · have hcut : (join "!/" (t :: rest)).toList = t.toList ++ '!' :: '/' :: (join "!/" rest).toList := by
        rw [join, String.intercalate_cons_of_ne_nil hr, String.append_assoc, String.toList_append,
          String.toList_append]
        rfl
      rw [hcut, piecesAtPair_append ht, ih hr hrest, List.map_cons]

end Split

/-! ## 2. Entries -/

namespace Entry

/-- All names are simple, and only the last level may be the top of an archive. -/
structure Plain (e : Entry) : Prop where
  outer : ∀ level ∈ e.outer, level ≠ [] ∧ level.Plain
  inner : e.inner.Plain

@[simp] theorem ofLevels_concat (outer : List Trail) (inner : Trail) :
    ofLevels (outer ++ [inner]) = ⟨outer, inner⟩ := by
  simp [ofLevels]

theorem plain_getLast {levels : List Trail} (h : ∀ level ∈ levels, level.Plain) :
    (levels.getLast?.getD []).Plain := by
  cases hl : levels.getLast? with
  | none => simp [Trail.Plain]
  | some level => exact h level (List.mem_of_getLast? hl)

theorem plain_ofText (text : String) : (ofText text).Plain := by
  have hlevels : ∀ level ∈ (Split.piecesAtPair '!' '/' text.toList).map fun level =>
      Trail.ofText (Percent.unescape (String.ofList level)), level.Plain := by
    intro level h
    obtain ⟨piece, -, rfl⟩ := List.mem_map.1 h
    exact Trail.plain_ofText _
  constructor
  · intro level h
    obtain ⟨hmem, hne⟩ := List.mem_filter.1 h
    exact ⟨by simpa using hne, hlevels level (List.mem_of_mem_dropLast hmem)⟩
  · exact plain_getLast hlevels

theorem Plain.levels {e : Entry} (h : e.Plain) : ∀ level ∈ e.levels, level.Plain := by
  intro level hl
  rcases List.mem_append.1 hl with hl | hl
  · exact (h.outer level hl).2
  · rw [List.mem_singleton.1 hl]
    exact h.inner

/-- The text of an entry is cut exactly between its levels. -/
theorem piecesAtPair_text (e : Entry) :
    Split.piecesAtPair '!' '/' e.text.toList = (e.levels.map levelText).map String.toList :=
  Split.piecesAtPair_join (by simp [levels]) fun t ht => by
    obtain ⟨level, -, rfl⟩ := List.mem_map.1 ht
    exact Percent.not_mem_escape _

/-- Levels in normal form are read as they are, and the text of the last one is simplified. -/
theorem ofText_join_escape {outer : List Trail} (h : ∀ level ∈ outer, level ≠ [] ∧ level.Plain)
    (last : String) :
    ofText (Split.join "!/" (outer.map levelText ++ [Percent.escape last])) =
      ⟨outer, Trail.ofText last⟩ := by
  have hbang : ∀ t ∈ outer.map levelText ++ [Percent.escape last], '!' ∉ t.toList := by
    intro t ht
    rcases List.mem_append.1 ht with ht | ht
    · obtain ⟨level, -, rfl⟩ := List.mem_map.1 ht
      exact Percent.not_mem_escape _
    · rw [List.mem_singleton.1 ht]
      exact Percent.not_mem_escape last
  have hread : outer.map (fun level => Trail.ofText (Percent.unescape (levelText level))) = outer := by
    refine (List.map_congr_left fun level hl => ?_).trans (List.map_id _)
    rw [levelText, Percent.unescape_escape, Trail.ofText_text (h level hl).2, id]
  have hkept : outer.filter (· ≠ []) = outer :=
    List.filter_eq_self.2 fun level hl => by simpa using (h level hl).1
  simp only [ofText, Split.piecesAtPair_join (by simp) hbang, List.map_append, List.map_map,
    Function.comp_def, List.map_cons, List.map_nil, String.ofList_toList, hread,
    Percent.unescape_escape, ofLevels_concat, hkept]

/-- **The text of an entry is read as that entry.** -/
theorem ofText_text {e : Entry} (h : e.Plain) : ofText e.text = e := by
  rw [text, levels, List.map_append, List.map_cons, List.map_nil, levelText,
    ofText_join_escape h.outer, Trail.ofText_text h.inner]

end Entry

/-! ## 3. Schemes -/

namespace Location

theorem utf8Size_toLower (c : Char) : c.toLower.utf8Size = c.utf8Size := by
  rw [Char.toLower]
  split_ifs with h
  · have h1 : 65 ≤ c.val.toNat := h.1
    have h2 : c.val.toNat ≤ 90 := h.2
    have hc : c.val ≤ 127 := UInt32.le_iff_toNat_le.2 (by simp only [UInt32.reduceToNat]; omega)
    have hl : c.val + ('a'.val - 'A'.val) ≤ 127 := by
      rw [UInt32.le_iff_toNat_le, UInt32.toNat_add]
      simp only [Char.reduceVal, UInt32.reduceSub, UInt32.reduceToNat]
      omega
    rw [Char.utf8Size_eq_one_iff.2 hc, Char.utf8Size_eq_one_iff.2 hl]
  · rfl

theorem lowercase_lowercase (text : String) : lowercase (lowercase text) = lowercase text := by
  simp [lowercase, Function.comp_def]

theorem length_lowercase (text : String) : Utf8.length (lowercase text) = Utf8.length text := by
  simp [lowercase, Utf8.length, Utf8.encode, List.length_flatMap, Function.comp_def, utf8Size_toLower]

theorem colon_not_mem_of_validScheme {scheme : String} (h : validScheme scheme = true) :
    ':' ∉ scheme.toList := by
  unfold validScheme at h
  split at h
  · cases h
  · next c rest heq =>
    simp only [Bool.and_eq_true, List.all_eq_true] at h
    rw [heq]
    intro hmem
    rcases List.mem_cons.1 hmem with rfl | hmem
    · exact absurd h.1 (by decide)
    · exact absurd (h.2 _ hmem) (by decide)

/-! ## 4. Reading a written URI -/

/-- A scheme as it stands in a URI. -/
structure Legible (scheme : String) : Prop where
  lower : lowercase scheme = scheme
  valid : validScheme scheme = true
  long : 1 < Utf8.length scheme

/-- A location in normal form: a legible scheme, simple names, and an entry where the scheme wants
one. -/
structure Plain (l : Location) : Prop where
  scheme : Legible l.scheme
  path : l.path.Plain
  entry : ∀ e, l.entry = some e → e.Plain
  file : l.scheme = fileScheme → l.entry = none
  archive : l.scheme = archiveScheme → l.entry ≠ none

theorem stripAuthority_of_ne {text : List Char} (h : ∀ rest, text ≠ '/' :: '/' :: rest) :
    stripAuthority text = text := by
  unfold stripAuthority
  split
  · next rest => exact absurd rfl (h _)
  · rfl

/-- Nothing is taken off the front of a written path. -/
theorem stripAuthority_escape {p : Path} (h : p.Plain) (tail : List Char)
    (ht : tail.head? ≠ some '/') :
    stripAuthority ((Percent.escape p.text).toList ++ tail) = (Percent.escape p.text).toList ++ tail := by
  refine stripAuthority_of_ne fun rest heq => ?_
  rw [Percent.escape_eq] at heq
  have hhead : ∀ chars : List Char, chars.head? ≠ some '/' →
      (chars.flatMap Percent.escapeChar ++ tail).head? ≠ some '/' := by
    intro chars hchars
    have := Percent.head?_flatMap_escapeChar hchars
    rw [List.head?_append]
    cases hc : (chars.flatMap Percent.escapeChar).head? with
    | none => simpa using ht
    | some d => simpa [hc] using this
  rcases Path.text_cases h with ⟨after, hp, hafter⟩ | ⟨c, after, hp, hc⟩
  · have hslash : Percent.escapeChar '/' = ['/'] := by decide
    rw [hp, List.flatMap_cons, hslash, List.append_assoc, List.cons_append, List.nil_append,
      List.cons.injEq] at heq
    exact hhead after hafter (by rw [heq.2]; rfl)
  · exact hhead p.text.toList (by simpa [hp] using hc) (by rw [heq]; rfl)

/-- Parts in normal form are put together as they are. -/
theorem ofParts_of_plain {l : Location} (h : l.Plain) :
    ofParts l.scheme l.path.text (l.entry.map Entry.text) = .ok l := by
  have hpath := Path.ofText_text h.path
  have hne := Path.text_ne_empty h.path
  obtain ⟨scheme, path, entry⟩ := l
  have hentry : (entry.map Entry.text).map Entry.ofText = entry := by
    cases entry with
    | none => rfl
    | some e => simp [Entry.ofText_text (h.entry e rfl)]
  simp only [ofParts, h.scheme.lower, h.scheme.valid, Bool.not_true, Bool.false_eq_true, if_false, hne,
    hpath]
  split_ifs with hf ha
  · obtain rfl : entry = none := h.file hf
    rfl
  · obtain ⟨e, rfl⟩ := Option.ne_none_iff_exists'.1 (h.archive ha)
    simp [Entry.ofText_text (h.entry e rfl)]
  · rw [hentry]

/-- **A URI is read as the location it was written for.** -/
theorem parse_uri {l : Location} (h : l.Plain) : parse l.uri = .ok l := by
  have hparts := ofParts_of_plain h
  have hbang := Percent.not_mem_escape l.path.text
  have hcolon := colon_not_mem_of_validScheme h.scheme.valid
  have hlong : ¬ Utf8.length l.scheme ≤ 1 := Nat.not_le.2 h.scheme.long
  cases he : l.entry with
  | none =>
    have huri : l.uri.toList = l.scheme.toList ++ ':' :: (Percent.escape l.path.text).toList := by
      simp [uri, he]
    have hstrip := stripAuthority_escape h.path [] (by simp)
    rw [List.append_nil] at hstrip
    rw [parse, huri, Split.first_append hcolon]
    simp only [String.ofList_toList, if_neg hlong, hstrip, Split.firstPair_of_not_mem hbang,
      Percent.unescape_escape]
    rw [he] at hparts
    exact hparts
  | some e =>
    have huri : l.uri.toList = l.scheme.toList ++
        ':' :: ((Percent.escape l.path.text).toList ++ '!' :: '/' :: e.text.toList) := by
      simp [uri, he]
    have hstrip := stripAuthority_escape h.path ('!' :: '/' :: e.text.toList) (by simp)
    rw [parse, huri, Split.first_append hcolon]
    simp only [String.ofList_toList, if_neg hlong, hstrip, Split.firstPair_append hbang,
      Percent.unescape_escape]
    rw [he] at hparts
    exact hparts

/-! ## 5. Every location is in normal form -/

/-- All that normal form asks for beside the scheme: simple names, and an entry where the scheme wants
one. -/
structure Tidy (l : Location) : Prop where
  path : l.path.Plain
  entry : ∀ e, l.entry = some e → e.Plain
  file : l.scheme = fileScheme → l.entry = none
  archive : l.scheme = archiveScheme → l.entry ≠ none

theorem Plain.tidy {l : Location} (h : l.Plain) : l.Tidy := ⟨h.path, h.entry, h.file, h.archive⟩

theorem Tidy.plain {l : Location} (h : l.Tidy) (hscheme : Legible l.scheme) : l.Plain :=
  ⟨hscheme, h.path, h.entry, h.file, h.archive⟩

theorem legible_file : Legible fileScheme := ⟨by decide, by decide, by decide⟩

theorem legible_archive : Legible archiveScheme := ⟨by decide, by decide, by decide⟩

theorem tidy_fileAt {p : Path} (h : p.Plain) : Tidy ⟨fileScheme, p, none⟩ where
  path := h
  entry := by simp
  file _ := rfl
  archive h := absurd (show fileScheme = archiveScheme from h) (by decide)

theorem tidy_archiveAt {p : Path} (h : p.Plain) {e : Entry} (he : e.Plain) :
    Tidy ⟨archiveScheme, p, some e⟩ where
  path := h
  entry := by simpa using he
  file h := absurd (show archiveScheme = fileScheme from h) (by decide)
  archive := by simp

theorem plain_fileAt {p : Path} (h : p.Plain) : Plain ⟨fileScheme, p, none⟩ :=
  (tidy_fileAt h).plain legible_file

theorem plain_archiveAt {p : Path} (h : p.Plain) {e : Entry} (he : e.Plain) :
    Plain ⟨archiveScheme, p, some e⟩ :=
  (tidy_archiveAt h he).plain legible_archive

/-- What parts are put together to, whatever the length of the scheme. -/
theorem tidy_of_ofParts {scheme path : String} {entry : Option String} {l : Location}
    (h : ofParts scheme path entry = .ok l) :
    l.Tidy ∧ l.scheme = lowercase scheme ∧ validScheme l.scheme = true := by
  have hpath := Path.plain_ofText path
  simp only [ofParts] at h
  split_ifs at h with hv _ hf ha
  · split at h
    · cases h
    · cases h
      rw [hf]
      exact ⟨tidy_fileAt hpath, rfl, legible_file.valid⟩
  · cases h
    rw [ha]
    exact ⟨tidy_archiveAt hpath (Entry.plain_ofText _), rfl, legible_archive.valid⟩
  · cases h
    refine ⟨⟨hpath, fun e he => ?_, fun h => absurd h hf, fun h => absurd h ha⟩, rfl, by simpa using hv⟩
    obtain ⟨text, -, rfl⟩ := Option.map_eq_some_iff.1 he
    exact Entry.plain_ofText text

theorem plain_of_ofParts {scheme path : String} {entry : Option String} {l : Location}
    (hlong : 1 < Utf8.length scheme) (h : ofParts scheme path entry = .ok l) : l.Plain := by
  obtain ⟨htidy, hscheme, hvalid⟩ := tidy_of_ofParts h
  refine htidy.plain ⟨?_, hvalid, ?_⟩
  · rw [hscheme, lowercase_lowercase]
  · rwa [hscheme, length_lowercase]

theorem plain_of_parse {text : String} {l : Location} (h : parse text = .ok l) : l.Plain := by
  unfold parse at h
  split at h
  · cases h
  · next scheme rest _ =>
    split_ifs at h with hlong
    have hlong := Nat.not_le.1 hlong
    simp only at h
    split at h
    · exact plain_of_ofParts hlong h
    · exact plain_of_ofParts hlong h

/-- Moving inside an archive. -/
theorem Tidy.withEntry {l : Location} (h : l.Tidy) {e e' : Entry} (he : l.entry = some e)
    (he' : e'.Plain) : Tidy { l with entry := some e' } where
  path := h.path
  entry := by simpa using he'
  file hf := by simp [h.file hf] at he
  archive := by simp

theorem Plain.withEntry {l : Location} (h : l.Plain) {e e' : Entry} (he : l.entry = some e)
    (he' : e'.Plain) : Plain { l with entry := some e' } :=
  (h.tidy.withEntry he he').plain h.scheme

/-- Moving outside of archives. -/
theorem Tidy.withPath {l : Location} (h : l.Tidy) {p : Path} (hp : p.Plain) :
    Tidy { l with path := p } :=
  ⟨hp, h.entry, h.file, h.archive⟩

theorem Tidy.join {l : Location} (h : l.Tidy) (name : String) : (l.join name).Tidy := by
  have hsteps : ∀ step ∈ Step.ofPath name, step.Plain := fun _ => Step.plain_of_mem_ofPath
  simp only [Location.join]
  split
  · next e he =>
    have hplain := h.entry e he
    exact h.withEntry he ⟨hplain.outer, hplain.inner.walk hsteps⟩
  · exact h.withPath (h.path.walk hsteps)

theorem Tidy.parent? {l outer : Location} (h : l.Tidy) (ho : l.parent? = some outer) :
    outer.Tidy := by
  unfold Location.parent? at ho
  split at ho
  · next levels name trail he =>
    cases ho
    have hplain := h.entry _ he
    exact h.withEntry he ⟨hplain.outer, (List.forall_mem_cons.1 hplain.inner).2⟩
  · cases ho
    exact tidy_fileAt h.path
  · next levels hne he =>
    cases ho
    have hplain := h.entry _ he
    refine h.withEntry he ⟨fun level hl => ?_, Entry.plain_getLast fun level hl => ?_⟩
    · exact hplain.outer level (List.mem_of_mem_dropLast hl)
    · exact (hplain.outer level hl).2
  · obtain ⟨p, hp, rfl⟩ := Option.map_eq_some_iff.1 ho
    exact h.withPath (h.path.parent? hp)

theorem Tidy.nestedRoot? {l root : Location} (h : l.Tidy) (hr : l.nestedRoot? = some root) :
    root.Tidy := by
  unfold Location.nestedRoot? at hr
  split_ifs at hr with hf ha
  · cases hr
    exact tidy_archiveAt h.path ⟨by simp [Entry.top], by simp [Entry.top, Trail.Plain]⟩
  · cases hr
    obtain ⟨e, he⟩ := Option.ne_none_iff_exists'.1 (h.archive ha.1)
    have hplain := h.entry e he
    have hlevels : l.levels = e.levels := by simp [levels, he]
    have hinner : e.inner ≠ [] := by simpa [isArchiveRoot, he, ha.1] using ha.2
    refine h.withEntry he ⟨fun level hl => ⟨?_, hplain.levels level (hlevels ▸ hl)⟩,
      by simp [Trail.Plain]⟩
    rcases List.mem_append.1 (hlevels ▸ hl) with hl | hl
    · exact (hplain.outer level hl).1
    · rwa [List.mem_singleton.1 hl]

theorem scheme_join (l : Location) (name : String) : (l.join name).scheme = l.scheme := by
  simp only [Location.join]
  split <;> rfl

theorem scheme_parent? {l outer : Location} (h : l.parent? = some outer) :
    outer.scheme = l.scheme ∨ outer.scheme = fileScheme := by
  unfold Location.parent? at h
  split at h
  · cases h
    exact .inl rfl
  · cases h
    exact .inr rfl
  · cases h
    exact .inl rfl
  · obtain ⟨p, -, rfl⟩ := Option.map_eq_some_iff.1 h
    exact .inl rfl

theorem scheme_nestedRoot? {l root : Location} (h : l.nestedRoot? = some root) :
    root.scheme = archiveScheme := by
  unfold Location.nestedRoot? at h
  split_ifs at h with hf ha
  · cases h
    rfl
  · cases h
    exact ha.1

theorem Plain.join {l : Location} (h : l.Plain) (name : String) : (l.join name).Plain :=
  (h.tidy.join name).plain (by rw [scheme_join]; exact h.scheme)

theorem Plain.parent? {l outer : Location} (h : l.Plain) (ho : l.parent? = some outer) :
    outer.Plain := by
  refine (h.tidy.parent? ho).plain ?_
  rcases scheme_parent? ho with hscheme | hscheme <;> rw [hscheme]
  · exact h.scheme
  · exact legible_file

theorem Plain.nestedRoot? {l root : Location} (h : l.Plain) (hr : l.nestedRoot? = some root) :
    root.Plain :=
  (h.tidy.nestedRoot? hr).plain (by rw [scheme_nestedRoot? hr]; exact legible_archive)

/-- The locations that can be built: read or named, and then moved from. -/
inductive Reached : Location → Prop
  | parse (text : String) {l : Location} (h : parse text = .ok l) : Reached l
  | file (path : String) : Reached (file path)
  | archive (path entry : String) : Reached (archive path entry)
  | join {l : Location} (h : Reached l) (name : String) : Reached (l.join name)
  | parent {l outer : Location} (h : Reached l) (ho : l.parent? = some outer) : Reached outer
  | nestedRoot {l root : Location} (h : Reached l) (hr : l.nestedRoot? = some root) : Reached root

theorem Reached.plain {l : Location} (h : l.Reached) : l.Plain := by
  induction h with
  | parse text h => exact plain_of_parse h
  | file path => exact plain_fileAt (Path.plain_ofText path)
  | archive path entry => exact plain_archiveAt (Path.plain_ofText path) (Entry.plain_ofText entry)
  | join _ name ih => exact ih.join name
  | parent _ ho ih => exact ih.parent? ho
  | nestedRoot _ hr ih => exact ih.nestedRoot? hr

/-- What can be read off a location: its scheme, its path, its entry and the levels of the entry. -/
def parts (l : Location) : String × String × Option String × List String :=
  (l.scheme, l.path.text, l.entry.map Entry.text, l.levels.map Trail.text)

theorem uri_of_parts {l l' : Location} (h : l.parts = l'.parts) : l.uri = l'.uri := by
  have huri (l : Location) : l.uri = l.parts.1 ++ ":" ++ Percent.escape l.parts.2.1 ++
      l.parts.2.2.1.elim "" fun text => "!/" ++ text := by
    cases he : l.entry <;> simp [uri, parts, he, String.append_assoc]
  rw [huri, huri, h]

end Location

/-- **A URI says everything about its location.**  For every location that can be built, its URI is
read as that location; and two of them have the same URI exactly if they are equal, which is exactly
if their parts read the same. -/
theorem uri_roundTrip {l l' : Location} (h : l.Reached) (h' : l'.Reached) :
    Location.parse l.uri = .ok l ∧ (l.uri = l'.uri ↔ l = l') ∧ (l.parts = l'.parts ↔ l = l') := by
  have hl := Location.parse_uri h.plain
  have hl' := Location.parse_uri h'.plain
  have huri : l.uri = l'.uri → l = l' := by
    intro he
    rw [he, hl'] at hl
    exact (Except.ok.inj hl).symm
  refine ⟨hl, ⟨huri, congrArg _⟩, ?_, congrArg _⟩
  exact fun hp => huri (Location.uri_of_parts hp)

/-- An entry of an archive inside a directory `x!`, reached by a careless entry and a move. -/
def bangedEntry : Location :=
  (Location.archive "C:\\lib\\..\\a!b.zip" "x%21/./y.jar!/!/é%zz").join "..\\50%"

/-- An entry of an archive inside an archive `x`. -/
def nestedEntry : Location :=
  ⟨"archive", ⟨.above 0, ["a!b.zip", "C:"]⟩, some ⟨[["x"], ["y.jar"]], ["50%"]⟩⟩

theorem uri_roundTrip_entries :
    bangedEntry.uri = "archive:C:/a%21b.zip!/x%21/y.jar!/50%25" ∧
      Location.parse "ARCHIVE:C:/./a%21b.zip!/x!/y.jar!/!/50%" = .ok nestedEntry ∧
      Location.parse bangedEntry.uri = .ok bangedEntry ∧
      (bangedEntry.uri = nestedEntry.uri ↔ bangedEntry = nestedEntry) ∧
      (bangedEntry.parts = nestedEntry.parts ↔ bangedEntry = nestedEntry) := by
  have hparse : Location.parse "ARCHIVE:C:/./a%21b.zip!/x!/y.jar!/!/50%" = .ok nestedEntry := by
    decide +kernel
  exact ⟨by decide +kernel, hparse,
    uri_roundTrip ((Location.Reached.archive _ _).join _) (.parse _ hparse)⟩

end FactGraph
