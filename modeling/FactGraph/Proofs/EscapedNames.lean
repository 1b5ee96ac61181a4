import FactGraph.Proofs.Spellings
import FactGraph.Proofs.WrittenOrder

/-!
# Escaped names

Below an entry, a name can be appended to the entry's text, escaped, in two ways.

* The text is MOVED: its last level and the escaped name are simplified as they stand, and nothing is
  decoded (`Entry.moveText`).
* The whole text is READ as an entry: cut at every `!/`, and each level decoded and then simplified.

The first simplifies what is escaped, the second what is not, and both lead to the place that joining
leads to (`join_read_as_archive`).  The reason is that escaping does not touch what simplifying looks at.
Slashes and backslashes are written as themselves, and nothing else is written with one, so a text is cut
at the same places before and after; a piece is written as `.` or `..` only if it is that, so every step
stays a step of its kind, and only the names that are gone down by are spelled otherwise
(`Step.ofPath_escape`).  A walk does not look at these names either (`Trail.walk_map_escape`).
-/

namespace FactGraph

/-! ## 1. Cutting a text that is spelled otherwise -/

namespace Split

variable {sep : Char → Bool} {spell : Char → List Char}

/-- A spelling of characters that can be cut where the text is cut: separators stand for themselves, and
nothing else is spelled with one. -/
structure Keeps (sep : Char → Bool) (spell : Char → List Char) : Prop where
  separator : ∀ c, sep c = true → spell c = [c]
  free : ∀ c, sep c = false → ∀ d ∈ spell c, sep d = false

/-- What holds no separator stands in front of the first piece. -/
theorem pieces_append_of_free {front : List Char} (h : ∀ c ∈ front, sep c = false)
    (rest : List Char) : pieces sep (front ++ rest) = (pieces sep rest).modifyHead (front ++ ·) := by
  simp only [pieces_eq_splitOnP]
  induction front with
  | nil => exact (congrFun List.modifyHead_id _).symm
  | cons c more ih =>
    obtain ⟨hc, hmore⟩ := List.forall_mem_cons.mp h
    rw [List.cons_append, List.splitOnP_cons_eq_if_modifyHead, if_neg (by simp [hc]), ih hmore,
      List.modifyHead_modifyHead]
    rfl

theorem pieces_flatMap (h : Keeps sep spell) (text : List Char) :
    pieces sep (text.flatMap spell) = (pieces sep text).map (·.flatMap spell) := by
  induction text with
  | nil => rfl
  | cons c rest ih =>
    rw [List.flatMap_cons]
    cases hc : sep c with
    | true =>
      have hcut (rest : List Char) : pieces sep (c :: rest) = [] :: pieces sep rest :=
        @pieces_append_cons sep [] (by simp) c hc rest
      rw [h.separator c hc, List.singleton_append, hcut, hcut, ih]
      rfl
    | false =>
      rw [pieces_append_of_free (h.free c hc), ih, ← List.singleton_append,
        pieces_append_of_free (by simpa using hc)]
      cases pieces sep rest <;> simp

/-- The separators are the same, in the same order. -/
theorem filter_flatMap (h : Keeps sep spell) (text : List Char) :
    (text.flatMap spell).filter sep = text.filter sep := by
  induction text with
  | nil => rfl
  | cons c rest ih =>
    rw [List.flatMap_cons, List.filter_append, ih]
    cases hc : sep c with
    | true => simp [h.separator c hc, hc]
    | false =>
      rw [List.filter_cons_of_neg (by simp [hc]), List.filter_eq_nil_iff.mpr, List.nil_append]
      simpa using h.free c hc

/-- What is appended to joined texts is appended to the last of them. -/
theorem join_concat_append (sep : String) (texts : List String) (last more : String) :
    join sep (texts ++ [last]) ++ more = join sep (texts ++ [last ++ more]) := by
  rw [join_concat sep texts last, join_concat sep texts (last ++ more), String.append_assoc]

end Split

/-! ## 2. What escaping leaves as it is -/

theorem Step.separates_iff {c : Char} : separates c = true ↔ c = '/' ∨ c = '\\' := by
  simp [separates]

namespace Percent

theorem keeps_separators : Split.Keeps Step.separates escapeChar where
  separator c hc := by
    rcases Step.separates_iff.mp hc with rfl | rfl <;> decide
  free c hc d hd := by
    rcases escapeChar_cases c with ⟨hself, -⟩ | ⟨-, hsequence⟩
    · rw [hself, List.mem_singleton] at hd
      rw [hd, hc]
    · by_contra hsep
      -- neither slash is a percent sign or a digit
      rcases Step.separates_iff.mp (by simpa using hsep) with rfl | rfl
      · exact absurd (hsequence _ hd) (by decide)
      · exact absurd (hsequence _ hd) (by decide)

/-- All that reading and simplifying a text look at is left as it is. -/
structure Transparent (text : String) : Prop where
  read : unescape (escape text) = text
  /-- The same slashes and backslashes, in the same order. -/
  separators : (escape text).toList.filter Step.separates = text.toList.filter Step.separates
  /-- Between them the same pieces, each of them escaped. -/
  pieces : Split.texts Step.separates (escape text) = (Split.texts Step.separates text).map escape
  empty : escape text = "" ↔ text = ""
  dot : escape text = "." ↔ text = "."
  dots : escape text = ".." ↔ text = ".."
  bang : '!' ∉ (escape text).toList

theorem transparent (text : String) : Transparent text where
  read := unescape_escape text
  separators := by rw [escape_eq, Split.filter_flatMap keeps_separators]
  pieces := by
    have hpiece (piece : List Char) :
        String.ofList (piece.flatMap escapeChar) = escape (String.ofList piece) := by
      rw [← String.toList_inj, escape_eq, String.toList_ofList, String.toList_ofList]
    simp only [Split.texts, escape_eq, Split.pieces_flatMap keeps_separators, List.map_map,
      Function.comp_def, hpiece]
  empty := escape_eq_iff (by decide)
  dot := escape_eq_iff (by decide)
  dots := escape_eq_iff (by decide)
  bang := not_mem_escape text

theorem escape_append_slash (a b : String) : escape (a ++ "/" ++ b) = escape a ++ "/" ++ escape b := by
  have hslash : escape "/" = "/" := by decide
  rw [escape_append, escape_append, hslash]

theorem escape_join (names : List String) :
    escape (Split.join "/" names) = Split.join "/" (names.map escape) := by
  induction names with
  | nil => decide
  | cons name rest ih =>
    by_cases hne : rest = []
    · simp [hne, Split.join]
    · rw [Split.join, String.intercalate_cons_of_ne_nil hne, escape_append_slash, ← Split.join, ih,
        List.map_cons, Split.join, Split.join, String.intercalate_cons_of_ne_nil (by simpa using hne)]

end Percent

/-! ## 3. Simplifying an escaped text -/

/-- The step by an escaped name. -/
def Step.escape : Step → Step
  | .stay => .stay
  | .up => .up
  | .down name => .down (Percent.escape name)

namespace Step

theorem ofText_escape (text : String) : ofText (Percent.escape text) = (ofText text).escape := by
  have h := Percent.transparent text
  simp only [ofText, Bool.or_eq_true, decide_eq_true_eq, h.empty, h.dot, h.dots]
  split_ifs <;> rfl

/-- **An escaped text has the steps of the text**, by escaped names. -/
theorem ofPath_escape (text : String) : ofPath (Percent.escape text) = (ofPath text).map escape := by
  simp [ofPath, (Percent.transparent text).pieces, ofText_escape]

end Step

namespace Trail

theorem step_map_escape (trail : Trail) (s : Step) :
    step (trail.map Percent.escape) s.escape = (trail.step s).map Percent.escape := by
  cases s with
  | stay => rfl
  | up => exact List.map_tail.symm
  | down name => rfl

/-- A walk does not look at the names that it goes down by. -/
theorem walk_map_escape (trail : Trail) (steps : List Step) :
    walk (trail.map Percent.escape) (steps.map Step.escape) =
      (trail.walk steps).map Percent.escape := by
  induction steps generalizing trail with
  | nil => rfl
  | cons s rest ih =>
    rw [List.map_cons, walk, List.foldl_cons, step_map_escape]
    exact ih (trail.step s)

theorem text_map_escape (trail : Trail) :
    text (trail.map Percent.escape) = Percent.escape trail.text := by
  rw [text, text, Percent.escape_join, List.map_reverse]

/-- **Simplifying what is escaped is escaping what is simplified.** -/
theorem normalize_escape (text : String) :
    normalize (Percent.escape text) = Percent.escape (normalize text) := by
  have hplace : ofText (Percent.escape text) = (ofText text).map Percent.escape := by
    rw [ofText, Step.ofPath_escape]
    exact walk_map_escape [] _
  rw [normalize, hplace, text_map_escape, normalize]

end Trail

/-! ## 4. Appending a name to the text of an entry -/

namespace Entry

variable {e : Entry}

/-- The place that steps lead to in the innermost archive. -/
def walk (e : Entry) (steps : List Step) : Entry := ⟨e.outer, e.inner.walk steps⟩

/-- Move the text of an entry by a name without decoding any of it: the name is escaped, and the last
level is simplified with it. -/
def moveText (text name : String) : String :=
  let levels := (Split.piecesAtPair '!' '/' text.toList).map String.ofList
  Split.join "!/" (levels.dropLast ++
    [Trail.normalize (levels.getLast?.getD "" ++ "/" ++ Percent.escape name)])

/-- A name that is appended, escaped, belongs to the last level. -/
theorem text_append_slash (e : Entry) (name : String) :
    e.text ++ "/" ++ Percent.escape name =
      Split.join "!/" (e.outer.map levelText ++ [Percent.escape (e.inner.text ++ "/" ++ name)]) := by
  rw [text, levels, List.map_append, List.map_cons, List.map_nil, Split.join_concat_append,
    Split.join_concat_append, levelText, Percent.escape_append_slash]

/-- Reading the text with the name: levels are decoded, and then simplified. -/
theorem Plain.ofText_append_slash (h : e.Plain) (name : String) :
    ofText (e.text ++ "/" ++ Percent.escape name) = e.walk (Step.ofPath name) := by
  rw [text_append_slash, ofText_join_escape h.outer, Trail.ofText_append_slash,
    Trail.ofText_text h.inner, walk]

/-- Moving the text by the name: the last level is simplified, and stays escaped. -/
theorem Plain.moveText_text (h : e.Plain) (name : String) :
    moveText e.text name = (e.walk (Step.ofPath name)).text := by
  have hlast : Trail.normalize (levelText e.inner ++ "/" ++ Percent.escape name) =
      levelText (e.inner.walk (Step.ofPath name)) := by
    rw [levelText, ← Percent.escape_append_slash, Trail.normalize_escape, Trail.normalize,
      Trail.ofText_append_slash, Trail.ofText_text h.inner, levelText]
  have hlevels : (Split.piecesAtPair '!' '/' e.text.toList).map String.ofList =
      e.outer.map levelText ++ [levelText e.inner] := by
    simp [piecesAtPair_text, Entry.levels, Function.comp_def]
  simp only [moveText, hlevels, List.dropLast_concat, List.getLast?_concat, Option.getD_some, hlast]
  simp [text, Entry.levels, walk]

end Entry

namespace Location

theorem join_of_entry {l : Location} {e : Entry} (h : l.entry = some e) (name : String) :
    l.join name = { l with entry := some (e.walk (Step.ofPath name)) } := by
  simp [join, h, Entry.walk]

end Location

/-- **Joining is reading the entry with the escaped name.**  However an archive location was made, it has
an entry, and any name leads from it to the location that is read from its entry's text, a slash and the
escaped name.  Its URI is what moving the text gives, where nothing is decoded, and reading that text
gives the same: escaping is undone by reading, leaves separators and steps as they are, writes no `!`, and
commutes with simplifying. -/
theorem join_read_as_archive {l : Location} (h : l.Made) (harchive : l.scheme = Location.archiveScheme) :
    (∃ e, l.entry = some e ∧ ∀ name,
      l.join name = Location.archive l.path.text (e.text ++ "/" ++ Percent.escape name) ∧
      (l.join name).uri =
        "archive:" ++ Percent.escape l.path.text ++ "!/" ++ Entry.moveText e.text name ∧
      Entry.moveText e.text name = Entry.normalize (e.text ++ "/" ++ Percent.escape name)) ∧
    ∀ text, Percent.Transparent text ∧
      Trail.normalize (Percent.escape text) = Percent.escape (Trail.normalize text) := by
  have htidy := h.tidy
  obtain ⟨e, he⟩ := Option.ne_none_iff_exists'.mp (htidy.archive harchive)
  have hplain := htidy.entry e he
  refine ⟨⟨e, he, fun name => ⟨?_, ?_, ?_⟩⟩, fun text =>
    ⟨Percent.transparent text, Trail.normalize_escape text⟩⟩
  · rw [Location.join_of_entry he, Location.archive, hplain.ofText_append_slash,
      Path.ofText_text htidy.path, harchive]
  · rw [Location.join_of_entry he, hplain.moveText_text]
    simp [Location.uri, harchive, Location.archiveScheme]
  · rw [Entry.normalize, hplain.ofText_append_slash, hplain.moveText_text]

/-- Up too far by both slashes, and down by names that hold a separator of levels, a percent sequence, and
a letter beyond ASCII. -/
theorem join_read_as_archive_banged :
    bangedEntry.scheme = Location.archiveScheme ∧
      bangedEntry.join "..\\../50%21!/.\\é" =
        Location.archive "C:/a!b.zip" "x%21/y.jar!/50%25/..\\../50%2521%21/.\\%C3%A9" ∧
      (bangedEntry.join "..\\../50%21!/.\\é").uri =
        "archive:C:/a%21b.zip!/x%21/y.jar!/50%2521%21/%C3%A9" := by
  have hscheme : bangedEntry.scheme = Location.archiveScheme := by decide +kernel
  obtain ⟨⟨e, he, hjoin⟩, -⟩ :=
    join_read_as_archive ((Location.Made.archive _ _).join _ : bangedEntry.Made) hscheme
  obtain rfl : e = ⟨[["y.jar", "x!"]], ["50%"]⟩ :=
    Option.some.inj (he.symm.trans (by decide +kernel))
  obtain ⟨hread, huri, -⟩ := hjoin "..\\../50%21!/.\\é"
  refine ⟨hscheme, hread.trans ?_, huri.trans ?_⟩
  · decide +kernel
  · decide +kernel

end FactGraph
