import FactGraph.Proofs.Navigation

/-!
# Spellings

Many texts lead to one place, and one of them is the place's own.  Three questions about that.

* Does it matter whether a way is gone in one or in two moves?  No: a slash between two texts separates
  their steps and adds none, so the steps of the whole are those of the one and then those of the other,
  and walking composes.  Up, down and staying need not be told apart for this, nor where a step up is
  absorbed and where it is counted: that is decided at the place at which the step is taken, and this is
  the same place.
* Does it matter whether a text is simplified before one goes on from it?  No, since the simplified text
  leads to the same place (`Path.normalize_append_slash`).
* Is a URI read as what it was written for?  A location may be put together from parts that were never in
  a URI.  It is read back, except for a scheme of ONE letter: putting parts together takes it for a
  scheme, and reading does not (`parts_read_back`, `one_letter_not_read_back`).
-/

namespace FactGraph

/-! ## 1. Two texts with a slash between them -/

/-- The steps of two texts with a slash between them. -/
theorem Step.ofPath_append_slash (a b : String) : ofPath (a ++ "/" ++ b) = ofPath a ++ ofPath b := by
  have hcut : Split.pieces separates (a ++ "/" ++ b).toList =
      Split.pieces separates a.toList ++ Split.pieces separates b.toList := by
    have hslash : (a ++ "/" ++ b).toList = a.toList ++ '/' :: b.toList := by simp
    rw [hslash, Split.pieces_eq_splitOnP, Split.pieces_eq_splitOnP, Split.pieces_eq_splitOnP,
      List.splitOnP_append_cons _ _ (by decide)]
  rw [ofPath, Split.texts, hcut, List.map_append, List.map_append]
  rfl

theorem Trail.ofText_append_slash (a b : String) :
    ofText (a ++ "/" ++ b) = (ofText a).walk (Step.ofPath b) := by
  rw [ofText, Step.ofPath_append_slash, walk_append, ofText]

/-- A text starts where the part before its slash starts, unless that part is empty. -/
theorem Path.start_append_slash {a : String} (h : a ≠ "") (b : String) :
    start (a ++ "/" ++ b) = start a := by
  obtain ⟨c, rest, hc⟩ := List.exists_cons_of_ne_nil (mt String.toList_eq_nil_iff.mp h)
  simp [start, hc]

theorem Path.ofText_append_slash {a : String} (h : a ≠ "") (b : String) :
    ofText (a ++ "/" ++ b) = (ofText a).walk (Step.ofPath b) := by
  rw [ofText, Step.ofPath_append_slash, walk_append, start_append_slash h, ofText]

/-! ## 2. Simplified texts -/

/-- The simplified text of a path. -/
def Path.normalize (text : String) : String := (ofText text).text

/-- The simplified text of a level, with its names as they are. -/
def Trail.normalize (text : String) : String := (ofText text).text

/-- The simplified text of an entry, with its names as they stand in a URI. -/
def Entry.normalize (text : String) : String := (ofText text).text

theorem Path.ofText_normalize (text : String) : ofText (normalize text) = ofText text :=
  ofText_text (plain_ofText text)

theorem Path.normalize_normalize (text : String) : normalize (normalize text) = normalize text :=
  congrArg Path.text (ofText_normalize text)

theorem Trail.ofText_normalize (text : String) : ofText (normalize text) = ofText text :=
  ofText_text (plain_ofText text)

theorem Trail.normalize_normalize (text : String) : normalize (normalize text) = normalize text :=
  congrArg Trail.text (ofText_normalize text)

theorem Entry.normalize_normalize (text : String) : normalize (normalize text) = normalize text :=
  congrArg Entry.text (ofText_text (plain_ofText text))

/-- What goes on from a text goes on from the simplified text. -/
theorem Path.normalize_append_slash {a : String} (h : a ≠ "") (b : String) :
    normalize (normalize a ++ "/" ++ b) = normalize (a ++ "/" ++ b) := by
  have hne : normalize a ≠ "" := text_ne_empty (plain_ofText a)
  have hplace : ofText (normalize a ++ "/" ++ b) = ofText (a ++ "/" ++ b) := by
    rw [ofText_append_slash hne, ofText_append_slash h, ofText_normalize]
  exact congrArg Path.text hplace

/-! ## 3. Joining -/

namespace Location

theorem join_join (l : Location) (a b : String) : (l.join a).join b = l.join (a ++ "/" ++ b) := by
  obtain ⟨scheme, path, entry⟩ := l
  cases entry with
  | none => simp [join, Step.ofPath_append_slash, Path.walk_append]
  | some e => simp [join, Step.ofPath_append_slash, Trail.walk_append]

/-- Outside of archives, joining is simplifying the joined text. -/
theorem Tidy.text_path_join {l : Location} (h : l.Tidy) (hentry : l.entry = none) (name : String) :
    (l.join name).path.text = Path.normalize (l.path.text ++ "/" ++ name) := by
  rw [Path.normalize, Path.ofText_append_slash (Path.text_ne_empty h.path), Path.ofText_text h.path]
  simp [Location.join, hentry]

/-- Inside of archives, joining is simplifying the joined text of the last level. -/
theorem Tidy.decodedLevels_join {l : Location} (h : l.Tidy) {level : String}
    (hlevel : l.decodedLevels.getLast? = some level) (name : String) :
    (l.join name).decodedLevels =
      l.decodedLevels.dropLast ++ [Trail.normalize (level ++ "/" ++ name)] := by
  rw [decodedLevels_eq] at hlevel ⊢
  rw [decodedLevels_eq]
  obtain ⟨scheme, path, entry⟩ := l
  cases entry with
  | none => simp [levels] at hlevel
  | some e =>
    obtain rfl : e.inner.text = level := by simpa [levels, Entry.levels] using hlevel
    have hinner := (h.entry e rfl).inner
    have hwalk : Trail.ofText (e.inner.text ++ "/" ++ name) = e.inner.walk (Step.ofPath name) := by
      rw [Trail.ofText_append_slash, Trail.ofText_text hinner]
    simp [Location.join, levels, Entry.levels, Trail.normalize, hwalk]

end Location

/-- **Joining composes.**  However a location was made, two moves are one move by both texts with a slash
between them.  A move simplifies what stands before it and the text together: outside of archives the
path, inside the last level, and all else stays.  Simplifying twice is simplifying once, for paths,
levels and entries; and a path may be simplified before something is appended to it. -/
theorem joins_compose {l : Location} (h : l.Made) :
    (∀ a b, (l.join a).join b = l.join (a ++ "/" ++ b)) ∧
    (∀ name, l.entry = none →
      l.join name = { l with path := (l.join name).path } ∧
      (l.join name).path.text = Path.normalize (l.path.text ++ "/" ++ name)) ∧
    (∀ name level, l.decodedLevels.getLast? = some level →
      l.join name = { l with entry := (l.join name).entry } ∧
      (l.join name).decodedLevels =
        l.decodedLevels.dropLast ++ [Trail.normalize (level ++ "/" ++ name)]) ∧
    (∀ text, Path.normalize (Path.normalize text) = Path.normalize text ∧
      Trail.normalize (Trail.normalize text) = Trail.normalize text ∧
      Entry.normalize (Entry.normalize text) = Entry.normalize text) ∧
    ∀ p q, p ≠ "" → Path.normalize (p ++ "/" ++ q) = Path.normalize (Path.normalize p ++ "/" ++ q) := by
  have htidy := h.tidy
  refine ⟨l.join_join, fun name hentry => ⟨?_, htidy.text_path_join hentry name⟩,
    fun name level hlevel => ⟨?_, htidy.decodedLevels_join hlevel name⟩, fun text => ?_,
    fun p q hp => (Path.normalize_append_slash hp q).symm⟩
  · simp [Location.join, hentry]
  · have hentry : l.entry ≠ none := by
      rintro hnone
      simp [Location.decodedLevels, hnone] at hlevel
    obtain ⟨e, he⟩ := Option.ne_none_iff_exists'.mp hentry
    simp [Location.join, he]
  · exact ⟨Path.normalize_normalize text, Trail.normalize_normalize text, Entry.normalize_normalize text⟩

/-- Below an entry: a move up too far and down again, in one move and in two. -/
theorem joins_compose_hostile :
    (hostileEntry.join "..\\..").join "/50%!/./é\\" = hostileEntry.join "..\\..//50%!/./é\\" ∧
      (hostileEntry.join "..\\..//50%!/./é\\").decodedLevels = ["etc/lib.zip", "%2e%2e", "50%!/é"] ∧
      Path.normalize ("..\\a/../.." ++ "/" ++ "../b") =
        Path.normalize (Path.normalize "..\\a/../.." ++ "/" ++ "../b") := by
  have hmade : hostileEntry.Made := (Location.Made.archive _ _).join _
  obtain ⟨hjoins, -, hlevels, -, hpaths⟩ := joins_compose hmade
  refine ⟨hjoins _ _, ?_, hpaths _ _ (by decide)⟩
  rw [(hlevels _ "%2e%2e" (by decide +kernel)).2]
  decide +kernel

/-! ## 4. Reading back what was put together -/

namespace Location

theorem utf8Size_of_isAlphanum {c : Char} (h : c.isAlphanum = true) : c.utf8Size = 1 := by
  rw [Char.utf8Size_eq_one_iff, UInt32.le_iff_toNat_le]
  simp only [Char.isAlphanum, Char.isAlpha, Char.isUpper, Char.isLower, Char.isDigit, Bool.or_eq_true,
    Bool.and_eq_true, decide_eq_true_eq, ge_iff_le, UInt32.le_iff_toNat_le] at h
  simp only [Char.reduceVal, UInt32.reduceToNat] at h ⊢
  omega

/-- A scheme has as many bytes as characters. -/
theorem length_of_validScheme {scheme : String} (h : validScheme scheme = true) :
    Utf8.length scheme = scheme.length := by
  have hsize : ∀ c ∈ scheme.toList, c.utf8Size = 1 := by
    unfold validScheme at h
    split at h
    · cases h
    · next c rest heq =>
      simp only [Bool.and_eq_true, List.all_eq_true, Bool.or_eq_true, decide_eq_true_eq] at h
      rw [heq, List.forall_mem_cons]
      refine ⟨utf8Size_of_isAlphanum (by simp [Char.isAlphanum, h.1]), fun d hd => ?_⟩
      rcases h.2 d hd with ((hd | rfl) | rfl) | rfl
      · exact utf8Size_of_isAlphanum hd
      · decide
      · decide
      · decide
  have hones : scheme.toList.map (fun c => (String.utf8EncodeChar c).length) =
      scheme.toList.map fun _ => 1 :=
    List.map_congr_left fun c hc => by rw [String.length_utf8EncodeChar, hsize c hc]
  rw [Utf8.length, Utf8.encode, List.length_flatMap, hones]
  simp [String.length_toList]

/-- A URI is read by its scheme first. -/
theorem toList_uri (l : Location) : ∃ rest, l.uri.toList = l.scheme.toList ++ ':' :: rest := by
  cases he : l.entry <;> simp [uri, he]

/-- **A scheme of one letter is not read.** -/
theorem parse_uri_of_short {l : Location} (hvalid : validScheme l.scheme = true)
    (hshort : Utf8.length l.scheme ≤ 1) : parse l.uri = .error (.missingScheme l.uri) := by
  obtain ⟨rest, hrest⟩ := l.toList_uri
  rw [parse, hrest, Split.first_append (colon_not_mem_of_validScheme hvalid)]
  simp [hshort]

end Location

/-- **What is put together is read back, unless its scheme has one letter.**  Whatever parts a location
is put together from, its URI is read as that location if the scheme has more than one letter; if it has
one letter, the URI is refused, as one without a scheme. -/
theorem parts_read_back {scheme path : String} {entry : Option String} {l : Location}
    (h : Location.ofParts scheme path entry = .ok l) :
    (Location.parse l.uri = .ok l ↔ scheme.length ≠ 1) ∧
      (scheme.length = 1 → Location.parse l.uri = .error (.missingScheme l.uri)) := by
  obtain ⟨-, hscheme, hvalid⟩ := Location.tidy_of_ofParts h
  have hsame : Utf8.length l.scheme = scheme.length := by
    rw [Location.length_of_validScheme hvalid, hscheme, Location.lowercase]
    simp [String.length_toList]
  have hshort (hone : scheme.length = 1) : Location.parse l.uri = .error (.missingScheme l.uri) :=
    Location.parse_uri_of_short hvalid (by omega)
  refine ⟨⟨fun hread hone => ?_, fun hne => ?_⟩, hshort⟩
  · rw [hshort hone] at hread
    cases hread
  · have hpos : scheme.length ≠ 0 := by
      intro hzero
      obtain rfl : scheme = "" := by simpa using hzero
      rw [hscheme] at hvalid
      exact absurd hvalid (by decide)
    refine Location.parse_uri (Location.plain_of_ofParts ?_ h)
    rw [← Location.length_lowercase, ← hscheme, hsame]
    omega

/-- An entry of an archive that is reached in a way of its own. -/
def remoteEntry : Location :=
  ⟨"git+ssh", ⟨.above 1, ["x!"]⟩, some ⟨[["a!"]], ["b"]⟩⟩

theorem parts_read_back_remote :
    Location.ofParts "Git+SSH" "..\\y/..\\x!" (some "a%21!/!/./b") = .ok remoteEntry ∧
      remoteEntry.uri = "git+ssh:../x%21!/a%21!/b" ∧
      Location.parse remoteEntry.uri = .ok remoteEntry := by
  have hparts : Location.ofParts "Git+SSH" "..\\y/..\\x!" (some "a%21!/!/./b") = .ok remoteEntry := by
    decide +kernel
  exact ⟨hparts, by decide +kernel, (parts_read_back hparts).1.mpr (by decide)⟩

/-- A file below the root, by a scheme of one letter. -/
def oneLetterFile : Location := ⟨"c", ⟨.root, ["x"]⟩, none⟩

/-- It is put together and written, and what is written is refused. -/
theorem one_letter_not_read_back :
    Location.ofParts "c" "/x" none = .ok oneLetterFile ∧ oneLetterFile.uri = "c:/x" ∧
      Location.parse oneLetterFile.uri = .error (.missingScheme "c:/x") := by
  decide +kernel

end FactGraph
