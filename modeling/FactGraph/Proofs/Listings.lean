import FactGraph.Proofs.Navigation
import FactGraph.Proofs.NestedArchives
import FactGraph.Proofs.WrittenOrder

/-!
# Listings

What lies directly below a location is listed by URI.  The two handlers come to a listing in two ways.

* The handler of FILES joins the names first and sorts the locations.  So its listings are in order,
  whatever the names; and none is listed twice, except that a name with a backslash in it can lead to the
  place of another (`Files.ascending_iff_nodup`, `Files.nodup_of_simple`).
* The handler of ARCHIVES sorts the names first and joins them then.  A URI shows a name as it is
  written, and writing turns some pairs of names round (`Percent.escape_lt_escape_iff`); and two of the
  names that an archive can hold are no names but steps, `.` and `..`, and lead to the listed place or
  above it.  So its listings are in order exactly if no pair of names is turned round and no step comes
  after anything (`Archives.ascending_iff`).  A letter beyond ASCII next to an ordinary one is enough for
  disorder: `z` comes before `é`, and `%C3%A9` before `z` (`listing_out_of_order`).
-/

namespace FactGraph

open FileSystem (Item)

/-! ## 1. URIs inside one archive -/

theorem lt_append_left_iff {a x y : String} : a ++ x < a ++ y ↔ x < y := by
  have hmono : StrictMono (a ++ ·) := fun x y h => by
    simp only [String.lt_iff_toList_lt, String.toList_append] at h ⊢
    exact List.append_left_lt h
  exact hmono.lt_iff_lt

/-- A text is less than what continues it. -/
theorem lt_append_text (x : String) {y : String} (h : y ≠ "") : x < x ++ y := by
  rw [String.lt_iff_toList_lt, String.toList_append]
  exact lt_append _ (mt String.toList_eq_nil_iff.mp h)

theorem Percent.escape_ne_empty {text : String} (h : text ≠ "") : escape text ≠ "" :=
  mt (escape_eq_iff (by decide)).mp h

namespace Location

variable {scheme : String} {path : Path} {outer : List Trail}

/-- Inside one archive URIs are ordered like the texts of their last levels. -/
theorem uri_lt_uri_iff {t u : Trail} :
    uri ⟨scheme, path, some ⟨outer, t⟩⟩ < uri ⟨scheme, path, some ⟨outer, u⟩⟩ ↔
      Entry.levelText t < Entry.levelText u := by
  have huri (t : Trail) : uri ⟨scheme, path, some ⟨outer, t⟩⟩ =
      scheme ++ ":" ++ Percent.escape path.text ++ "!/" ++
        Split.join "!/" (outer.map Entry.levelText ++ [""]) ++ Entry.levelText t := by
    simp only [uri, Entry.text, Entry.levels, List.map_append, List.map_cons, List.map_nil]
    rw [Split.join_concat]
    simp only [String.append_assoc]
  rw [huri, huri, lt_append_left_iff]

end Location

namespace Entry

/-- A name in a level stands behind the folder that it is in. -/
theorem levelText_cons (name : String) (t : Trail) :
    levelText (name :: t) = Percent.escape (Archives.folder t.reverse) ++ Percent.escape name := by
  have htext : Trail.text (name :: t) = Archives.folder t.reverse ++ name := by
    rw [Trail.text, List.reverse_cons, Archives.folder]
    split_ifs with hne
    · simp [hne, Split.join]
    · rw [Split.join, String.intercalate_append_of_ne_nil hne (by simp), String.intercalate_singleton,
        Split.join]
  rw [levelText, htext, Percent.escape_append]

/-- The text of a level starts with that of the level above it. -/
theorem levelText_lt_cons {name : String} (hname : name ≠ "") (t : Trail) :
    levelText t < levelText (name :: t) := by
  have hwritten := Percent.escape_ne_empty hname
  by_cases hne : t = []
  · subst hne
    have htop : levelText [] = "" ∧ Percent.escape (Archives.folder []) = "" := by decide
    rw [levelText_cons, List.reverse_nil, htop.1, htop.2]
    exact lt_append_text "" hwritten
  · have hfolder : Archives.folder t.reverse = t.text ++ "/" := by
      rw [Archives.folder, if_neg (by simpa using hne), Trail.text]
    rw [levelText_cons, hfolder, Percent.escape_append, levelText, String.append_assoc]
    refine lt_append_text _ ?_
    simp [hwritten]

theorem levelText_tail_le {t : Trail} (h : t.Plain) : levelText t.tail ≤ levelText t := by
  cases t with
  | nil => exact le_rfl
  | cons name t => exact (levelText_lt_cons (h name List.mem_cons_self).ne_empty t).le

end Entry

/-! ## 2. The names in an archive -/

namespace Archives

theorem namesBelow_ascending (archive : Archive) (name : String) :
    (namesBelow archive name).Pairwise (· < ·) := by
  rw [namesBelow, KeySet.members, Table.keys, List.pairwise_map]
  exact (Table.ascending _).imp fun h => compare_lt_iff_lt.mp h

theorem firstBelow?_eq_some {folder n x : String} (h : firstBelow? folder n = some x) :
    x ≠ "" ∧ '/' ∉ x.toList ∧ '\\' ∉ x.toList := by
  simp only [firstBelow?] at h
  split_ifs at h with hstarts hempty
  cases h
  refine ⟨by simpa using hempty, ?_, ?_⟩
  · rw [String.toList_ofList]
    intro hmem
    simpa using List.mem_takeWhile_imp hmem
  · rw [String.toList_ofList]
    intro hmem
    exact backslash_not_mem_slashed n (List.mem_of_mem_drop (List.takeWhile_subset _ hmem))

/-- What is listed is a name, or one of the two steps that an archive can hold for a name. -/
theorem mem_namesBelow_cases {archive : Archive} {name x : String} (h : x ∈ namesBelow archive name) :
    Simple x ∨ x = "." ∨ x = ".." := by
  rw [namesBelow, KeySet.mem_members, KeySet.ofMembers, KeySet.contains_foldl_add] at h
  obtain ⟨n, -, hn⟩ := List.mem_filterMap.mp (h.resolve_right Bool.false_ne_true)
  obtain ⟨hne, hslash, hback⟩ := firstBelow?_eq_some hn
  by_cases hdot : x = "."
  · exact .inr (.inl hdot)
  · by_cases hdots : x = ".."
    · exact .inr (.inr hdots)
    · exact .inl ⟨hne, hdot, hdots, hslash, hback⟩

/-- Of two names, in this order, what makes their URIs come in this order: the later one is no step, and
writing does not turn the two round. -/
def InOrder (x y : String) : Prop := Simple y ∧ (Simple x → ¬ Percent.Inverted x y)

/-- A step leads to the listed place or above it. -/
theorem levelText_walk_le {t : Trail} (ht : t.Plain) {x : String} (hx : x = "." ∨ x = "..") :
    Entry.levelText (t.walk (Step.ofPath x)) ≤ Entry.levelText t := by
  rcases hx with rfl | rfl
  · have hstep : Step.ofPath "." = [.stay] := by decide
    rw [hstep]
    exact le_rfl
  · have hstep : Step.ofPath ".." = [.up] := by decide
    rw [hstep]
    exact Entry.levelText_tail_le ht

/-- A name leads below the listed place. -/
theorem walk_simple (t : Trail) {x : String} (hx : Simple x) : t.walk (Step.ofPath x) = x :: t := by
  rw [Step.ofPath_simple hx]
  rfl

theorem levelText_walk_lt_iff {t : Trail} (ht : t.Plain) {x y : String}
    (hx : Simple x ∨ x = "." ∨ x = "..") (hy : Simple y ∨ y = "." ∨ y = "..") (hxy : x < y) :
    Entry.levelText (t.walk (Step.ofPath x)) < Entry.levelText (t.walk (Step.ofPath y)) ↔
      InOrder x y := by
  rcases hy with hy | hy
  · rw [walk_simple t hy]
    rcases hx with hx | hx
    · -- two names: they are compared as they are written
      rw [walk_simple t hx, Entry.levelText_cons, Entry.levelText_cons, lt_append_left_iff,
        Percent.escape_lt_escape_iff hxy]
      exact ⟨fun h => ⟨hy, fun _ => h⟩, fun h => h.2 hx⟩
    · -- a step before a name
      have hstep : ¬ Simple x := by rcases hx with rfl | rfl <;> decide
      refine iff_of_true ?_ ⟨hy, fun h => absurd h hstep⟩
      exact (levelText_walk_le ht hx).trans_lt (Entry.levelText_lt_cons hy.ne_empty t)
  · -- a step comes last, and leads at most as deep as what comes before it
    have hstep : ¬ Simple y := by rcases hy with rfl | rfl <;> decide
    refine iff_of_false (not_lt.mpr ?_) fun h => hstep h.1
    refine (levelText_walk_le ht hy).trans ?_
    rcases hx with hx | rfl | rfl
    · rw [walk_simple t hx]
      exact (Entry.levelText_lt_cons hx.ne_empty t).le
    · have hstay : Step.ofPath "." = [.stay] := by decide
      rw [hstay]
      exact le_rfl
    · rcases hy with rfl | rfl <;> exact absurd hxy (by decide)

end Archives

/-! ## 3. Sorted locations -/

/-- The locations come in ascending order of the bytes of their URIs, and none comes twice. -/
def Location.Ascending (found : List Location) : Prop :=
  found.Pairwise fun a b => Utf8.encode a.uri < Utf8.encode b.uri

theorem Location.ascending_iff {found : List Location} :
    Ascending found ↔ found.Pairwise fun a b => a.uri < b.uri := by
  simp only [Ascending, Utf8.encode_lt_encode_iff]

namespace Archives

variable {fs : FileSystem} {l : Location} {c : Cache} {found : List Location}

theorem Cached.run_bind_eq {α β : Type} (x : Cached α) (f : α → Cached β) (c : Cache) :
    (x >>= f).run c = ExceptT.bindCont f (x.run c).1 (x.run c).2 := rfl

/-- What an archive lists are the names in it. -/
theorem exists_of_children (h : ((children fs l).run c).1 = .ok found) :
    ∃ archive name, ((resolve fs l).run c).1 = .ok (archive, name) ∧
      found = (namesBelow archive name).map l.join := by
  rw [children, Cached.run_bind_eq] at h
  cases hresolve : ((resolve fs l).run c).1 with
  | error e =>
    rw [hresolve] at h
    cases h
  | ok result =>
    rw [hresolve] at h
    cases h
    exact ⟨result.1, result.2, rfl, rfl⟩

theorem scheme_of_resolve {result : Archive × String} (h : ((resolve fs l).run c).1 = .ok result) :
    l.scheme = Location.archiveScheme := by
  by_contra hscheme
  rw [resolve, if_pos hscheme, Cached.run_bind_eq] at h
  cases h

/-- **A listing is in order exactly if its names are.** -/
theorem ascending_iff (hl : l.Tidy) (hentry : l.entry ≠ none) (archive : Archive) (name : String) :
    Location.Ascending ((namesBelow archive name).map l.join) ↔
      (namesBelow archive name).Pairwise InOrder := by
  obtain ⟨scheme, path, entry⟩ := l
  obtain ⟨⟨outer, t⟩, rfl⟩ := Option.ne_none_iff_exists'.mp hentry
  have ht : t.Plain := (hl.entry _ rfl).inner
  have hnames := namesBelow_ascending archive name
  have hpair {x y : String} (hx : x ∈ namesBelow archive name) (hy : y ∈ namesBelow archive name)
      (hxy : x < y) : (Location.join ⟨scheme, path, some ⟨outer, t⟩⟩ x).uri <
        (Location.join ⟨scheme, path, some ⟨outer, t⟩⟩ y).uri ↔ InOrder x y :=
    Location.uri_lt_uri_iff.trans
      (levelText_walk_lt_iff ht (mem_namesBelow_cases hx) (mem_namesBelow_cases hy) hxy)
  rw [Location.ascending_iff, List.pairwise_map]
  constructor
  · intro h
    exact (hnames.and h).imp_of_mem fun hx hy hboth => (hpair hx hy hboth.1).mp hboth.2
  · intro h
    exact (hnames.and h).imp_of_mem fun hx hy hboth => (hpair hx hy hboth.1).mpr hboth.2

/-- Names that are written as they are come in order. -/
theorem inOrder_of_verbatim {archive : Archive} {name : String}
    (h : ∀ x ∈ namesBelow archive name, Simple x ∧ Percent.escape x = x) :
    (namesBelow archive name).Pairwise InOrder := by
  refine (namesBelow_ascending archive name).imp_of_mem fun {x y} hx hy hxy =>
    ⟨(h y hy).1, fun _ => ?_⟩
  refine (Percent.escape_lt_escape_iff hxy).mp ?_
  rw [(h x hx).2, (h y hy).2]
  exact hxy

end Archives

namespace Files

variable {fs : FileSystem} {l : Location} {found : List Location}

/-- Locations, sorted by URI. -/
theorem pairwise_mergeSort (locations : List Location) :
    (locations.mergeSort fun a b => a.uri ≤ b.uri).Pairwise fun a b => a.uri ≤ b.uri := by
  have hsorted := @List.pairwise_mergeSort Location (fun a b => decide (a.uri ≤ b.uri))
    (fun a b c hab hbc => ?_) (fun a b => ?_) locations
  · simpa using hsorted
  · simp only [decide_eq_true_eq] at *
    exact hab.trans hbc
  · simpa using le_total a.uri b.uri

theorem scheme_of_children (h : children fs l = .ok found) : l.scheme = Location.fileScheme := by
  by_contra hscheme
  unfold children pathOf Location.filePath? at h
  rw [if_neg hscheme] at h
  cases h

/-- What a directory lists are the names in it, joined and then sorted. -/
theorem children_of_item? {item : Item} (hscheme : l.scheme = Location.fileScheme)
    (hitem : fs.item? l.path.text = .ok item) :
    children fs l = .ok ((item.names.map l.join).mergeSort fun a b => a.uri ≤ b.uri) := by
  unfold children pathOf Location.filePath?
  rw [if_pos hscheme]
  simp only [bind, Except.bind, hitem]
  rfl

/-- What cannot be looked up has nothing below it. -/
theorem children_of_error {fault : FileSystem.Fault} (hscheme : l.scheme = Location.fileScheme)
    (hitem : fs.item? l.path.text = .error fault) : children fs l = .ok [] := by
  unfold children pathOf Location.filePath?
  rw [if_pos hscheme]
  simp only [bind, Except.bind, hitem]
  rfl

/-- Whatever the names of a directory, its listing is sorted joins. -/
theorem exists_of_children (h : children fs l = .ok found) :
    ∃ names : List String, found = (names.map l.join).mergeSort fun a b => a.uri ≤ b.uri := by
  have hscheme := scheme_of_children h
  cases hitem : fs.item? l.path.text with
  | ok item =>
    rw [children_of_item? hscheme hitem] at h
    exact ⟨item.names, (Except.ok.inj h).symm⟩
  | error fault =>
    rw [children_of_error hscheme hitem] at h
    exact ⟨[], by simpa using (Except.ok.inj h).symm⟩

/-- **A listing of files is in order as far as nothing comes twice in it.** -/
theorem ascending_iff_nodup (hl : l.Plain) (h : children fs l = .ok found) :
    (found.Pairwise fun a b => a.uri ≤ b.uri) ∧ (Location.Ascending found ↔ found.Nodup) := by
  obtain ⟨names, rfl⟩ := exists_of_children h
  have hsorted := pairwise_mergeSort (names.map l.join)
  refine ⟨hsorted, ?_⟩
  rw [Location.ascending_iff]
  refine ⟨fun hasc => hasc.imp fun hlt => mt (congrArg Location.uri) hlt.ne, fun hnodup => ?_⟩
  refine (hsorted.and hnodup).imp_of_mem fun {a b} ha hb hboth => lt_of_le_of_ne hboth.1 fun huri => ?_
  have hplain {a : Location} (ha : a ∈ (names.map l.join).mergeSort fun a b => a.uri ≤ b.uri) :
      a.Plain := by
    obtain ⟨name, -, rfl⟩ := List.mem_map.mp ((List.mergeSort_perm ..).mem_iff.mp ha)
    exact hl.join name
  exact hboth.2 (Archives.eq_of_uri_eq (hplain ha) (hplain hb) huri)

/-- Different names of a directory lead to different places. -/
theorem nodup_of_simple {item : Item} (hitem : fs.item? l.path.text = .ok item)
    (hnodup : item.names.Nodup) (hsimple : ∀ name ∈ item.names, Simple name)
    (h : children fs l = .ok found) : found.Nodup := by
  rw [children_of_item? (scheme_of_children h) hitem] at h
  obtain rfl := Except.ok.inj h
  rw [(List.mergeSort_perm ..).nodup_iff]
  refine hnodup.map_on fun x hx y hy hxy => ?_
  have hname := congrArg Location.fileName hxy
  rwa [l.fileName_join (hsimple x hx), l.fileName_join (hsimple y hy)] at hname

end Files

/-- **Listings by URI.**  However a location was made: what the handler of files lists below it comes in
the order of URIs, in which none comes twice unless two of the names lead to one place, which names that
are no steps and hold no separator do not.  What the handler of archives lists, whatever it has kept
open, comes in the order of names; this is the order of URIs, and none comes twice, exactly if no step
comes after anything and writing turns no two names round.  So it is if all names are written as they
are. -/
theorem listings_by_uri (fs : FileSystem) {l : Location} (h : l.Made) :
    (∀ found, Files.children fs l = .ok found →
      (found.Pairwise fun a b => ¬ Utf8.encode b.uri < Utf8.encode a.uri) ∧
      (Location.Ascending found ↔ found.Nodup) ∧
      ∀ item, fs.item? l.path.text = .ok item → item.names.Nodup →
        (∀ name ∈ item.names, Simple name) → Location.Ascending found) ∧
    ∀ c found, ((Archives.children fs l).run c).1 = .ok found →
      ∃ archive name, ((Archives.resolve fs l).run c).1 = .ok (archive, name) ∧
        found = (Archives.namesBelow archive name).map l.join ∧
        (Location.Ascending found ↔
          (Archives.namesBelow archive name).Pairwise Archives.InOrder) ∧
        ((∀ x ∈ Archives.namesBelow archive name, Simple x ∧ Percent.escape x = x) →
          Location.Ascending found) := by
  have htidy := h.tidy
  refine ⟨fun found hfound => ?_, fun c found hfound => ?_⟩
  · have hplain : l.Plain :=
      htidy.plain (by rw [Files.scheme_of_children hfound]; exact Location.legible_file)
    obtain ⟨hsorted, hiff⟩ := Files.ascending_iff_nodup hplain hfound
    refine ⟨hsorted.imp fun hle hlt => ?_, hiff, fun item hitem hnodup hsimple => ?_⟩
    · exact not_lt.mpr hle (Utf8.encode_lt_encode_iff.mp hlt)
    · exact hiff.mpr (Files.nodup_of_simple hitem hnodup hsimple hfound)
  · obtain ⟨archive, name, hresolve, rfl⟩ := Archives.exists_of_children hfound
    have hentry := htidy.archive (Archives.scheme_of_resolve hresolve)
    have hiff := Archives.ascending_iff htidy hentry archive name
    exact ⟨archive, name, hresolve, rfl, hiff,
      fun hnames => hiff.mpr (Archives.inOrder_of_verbatim hnames)⟩

/-! ## 4. Two names in a directory and in an archive -/

/-- An archive file with the empty members `z` and `é`. -/
def accentedBytes : Bytes :=
  [80, 75, 3, 4, 20, 0, 0, 0, 0, 0, 0, 0, 33, 0, 0, 0, 0, 0, 0, 0, 0, 0, 0, 0, 0, 0, 1, 0, 0, 0,
   122, 80, 75, 3, 4, 20, 0, 0, 8, 0, 0, 0, 0, 33, 0, 0, 0, 0, 0, 0, 0, 0, 0, 0, 0, 0, 0, 2, 0, 0,
   0, 195, 169, 80, 75, 1, 2, 20, 0, 20, 0, 0, 0, 0, 0, 0, 0, 33, 0, 0, 0, 0, 0, 0, 0, 0, 0, 0, 0,
   0, 0, 1, 0, 0, 0, 0, 0, 0, 0, 0, 0, 0, 0, 128, 1, 0, 0, 0, 0, 122, 80, 75, 1, 2, 20, 0, 20, 0, 0,
   8, 0, 0, 0, 0, 33, 0, 0, 0, 0, 0, 0, 0, 0, 0, 0, 0, 0, 0, 2, 0, 0, 0, 0, 0, 0, 0, 0, 0, 0, 0,
   128, 1, 31, 0, 0, 0, 195, 169, 80, 75, 5, 6, 0, 0, 0, 0, 2, 0, 2, 0, 95, 0, 0, 0, 63, 0, 0, 0, 0,
   0]

set_option maxRecDepth 100000 in
theorem names_accentedBytes :
    (Zip.openArchive accentedBytes).toOption.map Archive.names = some ["z", "é"] := by
  decide +kernel

/-- The same two names in a directory. -/
def accentedFolder : Item := .directory [("z", .file [] ⟨0⟩), ("é", .file [] ⟨0⟩)] ⟨0⟩

/-- A file system with `accentedBytes` in `t.zip` and `accentedFolder` in `d`. -/
def accentedShelf : FileSystem where
  root := .directory [("t.zip", .file accentedBytes ⟨0⟩), ("d", accentedFolder)] ⟨0⟩

theorem accentedShelf_plain : accentedShelf.root.Plain := by
  refine Item.plain_directory _ ?_
  simp only [List.forall_mem_cons, List.not_mem_nil, false_implies, implies_true, and_true]
  refine ⟨⟨by decide, Item.plain_file _ _⟩, by decide, Item.plain_directory _ ?_⟩
  simp only [List.forall_mem_cons, List.not_mem_nil, false_implies, implies_true, and_true]
  exact ⟨⟨by decide, Item.plain_file _ _⟩, by decide, Item.plain_file _ _⟩

theorem accentedShelf_item? (name : String) {item : Item}
    (hname : (⟨.root, [name].reverse⟩ : Path).Nameable)
    (hat : accentedShelf.root.at? [name] = some item) :
    accentedShelf.item? (Path.text ⟨.root, [name].reverse⟩) = .ok item :=
  FileSystem.item?_of_at? rfl accentedShelf_plain hat hname

theorem exists_readFile_accentedShelf :
    ∃ archive, Archives.readFile accentedShelf (Path.text ⟨.root, ["t.zip"]⟩) = .ok archive ∧
      Archives.namesBelow archive "" = ["z", "é"] := by
  have hitem := accentedShelf_item? "t.zip" ⟨by decide +kernel, by decide +kernel, by decide +kernel⟩ rfl
  have hnames := names_accentedBytes
  cases hopen : Zip.openArchive accentedBytes with
  | error fault => simp [hopen, Except.toOption] at hnames
  | ok archive =>
    have hsame : archive.names = ["z", "é"] := by simpa [hopen, Except.toOption] using hnames
    have hunzip : accentedShelf.unzip = Zip.openArchive := rfl
    refine ⟨archive, Archives.readFile_of_item? hitem (hunzip ▸ hopen), ?_⟩
    rw [Archives.namesBelow, hsame]
    decide +kernel

/-- The top of the archive. -/
def accentedTop : Location := Location.archive "/t.zip" ""

theorem accentedTop_eq : accentedTop = Location.inArchive ⟨.root, ["t.zip"]⟩ [] := by decide

/-- The archive lists its two names in their order. -/
theorem children_accentedTop :
    ((Archives.children accentedShelf accentedTop).run {}).1 = .ok (["z", "é"].map accentedTop.join) := by
  obtain ⟨archive, hread, hnames⟩ := exists_readFile_accentedShelf
  rw [accentedTop_eq, ← hnames]
  exact Archives.children_of_readFile hread

/-- The directory is listed by URI, and the archive is not. -/
theorem listings_by_uri_accented :
    (∃ found, Files.children accentedShelf (Location.file "/d") = .ok found ∧ found.length = 2 ∧
        Location.Ascending found) ∧
      ∃ found, ((Archives.children accentedShelf accentedTop).run {}).1 = .ok found ∧ found.length = 2 ∧
        ¬ Location.Ascending found := by
  constructor
  · have hpath : (Location.file "/d").path.text = Path.text ⟨.root, ["d"].reverse⟩ := by decide
    have hitem := accentedShelf_item? "d" ⟨by decide +kernel, by decide +kernel, by decide +kernel⟩ rfl
    rw [← hpath] at hitem
    have hlist := Files.children_of_item? rfl hitem
    refine ⟨_, hlist, by simp [accentedFolder, Item.names], ?_⟩
    have hfiles := (listings_by_uri accentedShelf (.file "/d")).1 _ hlist
    exact hfiles.2.2 accentedFolder hitem (by decide) (by decide)
  · refine ⟨_, children_accentedTop, rfl, ?_⟩
    have hmade : accentedTop.Made := .archive "/t.zip" ""
    obtain ⟨archive, name, hresolve, -, hiff, -⟩ :=
      (listings_by_uri accentedShelf hmade).2 {} _ children_accentedTop
    obtain ⟨opened, hread, hnames⟩ := exists_readFile_accentedShelf
    obtain ⟨c, hrun⟩ := @Archives.run_resolve accentedShelf ⟨.root, ["t.zip"]⟩ [] opened hread
    rw [accentedTop_eq, hrun] at hresolve
    obtain ⟨rfl, rfl⟩ := Prod.mk.inj (Except.ok.inj hresolve)
    have hnames : Archives.namesBelow opened (Trail.text []) = ["z", "é"] := hnames
    rw [hiff, hnames, List.pairwise_pair]
    rintro ⟨-, hkept⟩
    exact hkept (by decide) ⟨[], 'z', 'é', [], [], rfl, rfl, by decide +kernel⟩

/-- **An archive is not listed by URI**: of `z` and `é` the former comes first, and its URI last. -/
theorem listing_out_of_order :
    accentedTop.Made ∧ ∃ found, Handler.archives.children accentedShelf accentedTop = .ok found ∧
      found.map Location.uri = ["archive:/t.zip!/z", "archive:/t.zip!/%C3%A9"] ∧
      ¬ Location.Ascending found := by
  refine ⟨.archive _ _, _, children_accentedTop, by decide +kernel, fun hasc => ?_⟩
  rw [Location.ascending_iff, List.pairwise_map] at hasc
  exact absurd (List.pairwise_pair.mp hasc) (by decide +kernel)

end FactGraph
