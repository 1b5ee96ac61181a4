import FactGraph.Proofs.Locations
import FactGraph.Proofs.PackedTrees
import FactGraph.Resource.Resolver

/-!
# Storage forms

A tree of directories and files can stand in a directory or in an archive file.  Which of the two is
behind a location makes no difference to a reader: names, kinds, sizes and bytes are those of the
tree.  The one exception comes from outside: the operating system refuses paths of 4096 bytes and
more, and a directory can hold what cannot be named; an archive shows that, too.

Main statements: `resolvers_agree`, `resolvers_differ_below_long_path`.
-/

namespace FactGraph

open FileSystem (Item)

/-! ## 1. Locations in a tree -/

theorem Trail.text_reverse (p : List String) : Trail.text p.reverse = Split.join "/" p := by
  rw [Trail.text, List.reverse_reverse]

namespace Location

variable {p : List String}

/-- A location joined with a name is called by that name. -/
theorem fileName_join (l : Location) {name : String} (h : Simple name) :
    (l.join name).fileName = name := by
  have hsteps := Step.ofPath_simple h
  obtain ⟨scheme, path, entry⟩ := l
  cases entry with
  | some e => simp [join, hsteps, fileName, levels, Entry.levels, Trail.walk, Trail.step]
  | none =>
    obtain ⟨base, trail⟩ := path
    cases base <;>
      simp [join, hsteps, fileName, levels, Path.walk, Path.step, Path.lastName, Path.components]

/-- The steps of names with slashes between them. -/
theorem ofPath_names (hp : ∀ name ∈ p, Simple name) :
    Step.ofPath (Split.join "/" p) = if p = [] then [.stay] else p.map Step.ofText := by
  split_ifs with hne
  · subst hne
    decide
  · exact Step.ofPath_join hne fun name hname => (hp name hname).free

theorem file_join (dir : String) (hp : ∀ name ∈ p, Simple name) :
    (file dir).join (Split.join "/" p) = ⟨fileScheme, (Path.ofText dir).below p, none⟩ := by
  have hwalk : (Path.ofText dir).walk (Step.ofPath (Split.join "/" p)) =
      (Path.ofText dir).below p := by
    rw [ofPath_names hp]
    split_ifs with hne
    · subst hne
      rfl
    · exact Path.walk_downs _ hp
  simp [join, file, hwalk]

/-- A place in an archive file. -/
def inArchive (path : Path) (trail : Trail) : Location := ⟨archiveScheme, path, some ⟨[], trail⟩⟩

theorem archive_join (path : String) (hp : ∀ name ∈ p, Simple name) :
    (archive path "").join (Split.join "/" p) = inArchive (Path.ofText path) p.reverse := by
  have htop : Entry.ofText "" = ⟨[], []⟩ := by decide
  have hwalk : Trail.walk [] (Step.ofPath (Split.join "/" p)) = p.reverse := by
    rw [ofPath_names hp]
    split_ifs with hne
    · subst hne
      rfl
    · simpa using Trail.walk_downs [] hp
  simp [join, archive, inArchive, htop, hwalk]

end Location

/-! ## 2. The top of an archive file -/

namespace Archives

/-- What follows a computation that succeeds. -/
theorem Cached.run_bind {α β : Type} {x : Cached α} {f : α → Cached β} {a : α} {c c' : Cache}
    (h : x.run c = (.ok a, c')) : (x >>= f).run c = (f a).run c' := by
  have hrun : (x >>= f).run c = ExceptT.bindCont f (x.run c).1 (x.run c).2 := rfl
  rw [hrun, h]
  rfl

theorem run_openSource {fs : FileSystem} {path : String} {archive : Archive}
    (h : readFile fs path = .ok archive) :
    ∃ c, (openSource fs (.file path)).run {} = (.ok archive, c) := by
  have hread : (Cached.ofResult (readFile fs path)).run {} = (.ok archive, {}) := by
    rw [h]
    rfl
  refine ⟨{ files := Table.insert ∅ path archive }, ?_⟩
  -- Nothing has been opened before, so the file is read.
  have hstep : (openSource fs (.file path)).run {} =
      (Cached.ofResult (readFile fs path) >>= fun archive => do
        modify fun c => { c with files := c.files.insert path archive }
        return archive).run {} := rfl
  rw [hstep, Cached.run_bind hread]
  rfl

theorem Cached.run_tryCatch {α : Type} {x : Cached α} {f : Error → Cached α} {a : α} {c c' : Cache}
    (h : x.run c = (.ok a, c')) : (tryCatch x f).run c = (.ok a, c') := by
  have hrun (k : Except Error α → StateM Cache (Except Error α)) :
      (x.run >>= k) c = k (x.run c).1 (x.run c).2 := rfl
  simp only [tryCatch, tryCatchThe, MonadExceptOf.tryCatch, ExceptT.tryCatch, ExceptT.run_mk]
  refine (hrun _).trans ?_
  rw [h]
  rfl

variable {fs : FileSystem} {path : Path} {trail : Trail} {archive : Archive}

/-- A place in an archive file is looked up in the archive that the file holds. -/
theorem run_resolve (h : readFile fs path.text = .ok archive) :
    ∃ c, (resolve fs (Location.inArchive path trail)).run {} = (.ok (archive, trail.text), c) := by
  obtain ⟨c, hc⟩ := run_openSource h
  exact ⟨c, Cached.run_bind (f := fun archive => pure (archive, trail.text)) hc⟩

theorem children_of_readFile (h : readFile fs path.text = .ok archive) :
    (children fs (Location.inArchive path trail)).fresh =
      .ok ((namesBelow archive trail.text).map (Location.inArchive path trail).join) := by
  obtain ⟨c, hc⟩ := @run_resolve fs path trail archive h
  rw [Cached.fresh, children, Cached.run_bind hc]
  rfl

theorem present_of_readFile (h : readFile fs path.text = .ok archive)
    (hcontains : fs.contains path.text = true) :
    (present fs (Location.inArchive path trail)).fresh =
      .ok (match classify archive trail.text with
        | .missing => false
        | _ => true) := by
  obtain ⟨c, hc⟩ := @run_resolve fs path trail archive h
  have hsome : (some <$> resolve fs (Location.inArchive path trail)).run {} =
      (.ok (some (archive, trail.text)), c) := by
    rw [map_eq_pure_bind, Cached.run_bind hc]
    rfl
  have hpath : (Location.inArchive path trail).path = path := rfl
  rw [Cached.fresh, present]
  simp only [hpath, hcontains, Bool.not_true, Bool.false_eq_true, if_false]
  rw [Cached.run_bind (Cached.run_tryCatch hsome)]
  cases hkind : classify archive trail.text <;> simp only [hkind] <;> rfl

theorem stream_of_readFile (h : readFile fs path.text = .ok archive) {m : Member} {content : Bytes}
    (hm : archive.open? trail.text = .ok m) (hdir : m.isDirectory = false)
    (hcontent : m.content.get = .ok content) (htrail : trail.text ≠ "") :
    (stream fs (Location.inArchive path trail)).fresh = .ok (.bytes content) := by
  obtain ⟨c, hc⟩ := @run_resolve fs path trail archive h
  rw [Cached.fresh, stream, Cached.run_bind hc]
  simp only [htrail, if_false, openMember, hm, Cached.ofResult, contentOf, pure_bind, hdir, hcontent,
    Except.mapError, Bool.false_eq_true]
  rfl

end Archives

/-! ## 3. What a handler shows -/

/-- What a handler answers for a location at which it finds an item of a tree. -/
structure Handler.Shows (h : Handler) (fs : FileSystem) (l : Location) (item : Item) : Prop where
  present : h.present fs l = .ok true
  children : ∃ found, h.children fs l = .ok found ∧
    ∀ name, name ∈ found.map Location.fileName ↔ name ∈ item.names
  description : ∃ d, h.describe fs l = .ok d ∧ d.isDirectory = item.isDirectory ∧
    d.size = item.size
  content : ∀ bytes modified, item = .file bytes modified →
    (h.stream fs l).bind Stream.readAll = .ok bytes

variable {fs : FileSystem} {archive : Archive} {root item : Item} {path : Path} {p : List String}

theorem map_fileName_join (l : Location) {names : List String} (h : ∀ name ∈ names, Simple name) :
    (names.map l.join).map Location.fileName = names := by
  rw [List.map_map]
  conv_rhs => rw [← List.map_id names]
  exact List.map_congr_left fun name hname => l.fileName_join (h name hname)

namespace Archives

theorem exists_describe_of_readFile {trail : Trail} (h : readFile fs path.text = .ok archive)
    {modified : Option Moment}
    (hkind : classify archive trail.text =
      if item.isDirectory then .directory modified else .file item.size modified) :
    ∃ d, (describe fs (Location.inArchive path trail)).fresh = .ok d ∧
      d.isDirectory = item.isDirectory ∧ d.size = item.size := by
  obtain ⟨c, hc⟩ := @run_resolve fs path trail archive h
  rw [Cached.fresh, describe, Cached.run_bind hc]
  simp only [hkind]
  cases item <;> exact ⟨_, rfl, rfl, rfl⟩

/-- The handler of archives shows every item of a tree in an archive that packs it. -/
theorem shows_packed (hpacks : archive.Packs root) (hplain : root.Plain)
    (hdir : root.isDirectory = true)
    (hread : readFile fs path.text = .ok archive) (hcontains : fs.contains path.text = true)
    (hat : root.at? p = some item) :
    Handler.archives.Shows fs (Location.inArchive path p.reverse) item := by
  obtain ⟨modified, hkind⟩ := hpacks.classify_of_item hplain hdir hat
  rw [← Trail.text_reverse] at hkind
  constructor
  case present =>
    refine (present_of_readFile hread hcontains).trans (congrArg _ ?_)
    rw [hkind]
    cases item <;> rfl
  case children =>
    refine ⟨_, children_of_readFile hread, fun name => ?_⟩
    have hbelow := hpacks.namesBelow_packed hplain hdir hat
    rw [Trail.text_reverse, map_fileName_join _ fun name hname =>
      hplain.simple p item hat name ((hbelow name).1 hname)]
    exact hbelow name
  case description => exact exists_describe_of_readFile hread hkind
  case content =>
    rintro content modified rfl
    have htop : Split.join "/" p ≠ "" := by
      rw [Ne, Archive.Packs.join_eq_empty_iff (hplain.simple_path hat)]
      exact Archive.Packs.ne_nil_of_file hdir hat
    obtain ⟨m, hopen, hfile, -, hcontent⟩ := hpacks.open?_of_file hplain hdir hat
    rw [← Trail.text_reverse] at htop hopen
    unfold Handler.stream
    simp only [stream_of_readFile hread hopen hfile hcontent htop]
    rfl

end Archives

/-- The handler of files shows what the file system has at a path. -/
theorem Files.shows_item (hsimple : ∀ name ∈ item.names, Simple name)
    (hlink : ∀ target, item ≠ .link target) (hitem : fs.item? path.text = .ok item) :
    Handler.files.Shows fs ⟨Location.fileScheme, path, none⟩ item := by
  have hpath : pathOf ⟨Location.fileScheme, path, none⟩ = .ok path.text := rfl
  constructor
  case present =>
    unfold Handler.present Files.present FileSystem.contains
    simp only [hpath, bind, Except.bind, hitem]
    rfl
  case children =>
    refine ⟨(item.names.map (Location.join ⟨Location.fileScheme, path, none⟩)).mergeSort
      fun a b => a.uri ≤ b.uri, ?_, fun name => ?_⟩
    · unfold Handler.children Files.children
      simp only [hpath, bind, Except.bind, hitem]
      rfl
    · have hsame := map_fileName_join ⟨Location.fileScheme, path, none⟩ hsimple
      rw [(List.mergeSort_perm ..).map _ |>.mem_iff, hsame]
  case description =>
    unfold Handler.describe Files.describe
    simp only [hpath, bind, Except.bind, hitem]
    cases item with
    | file content modified => exact ⟨_, rfl, rfl, rfl⟩
    | directory children modified => exact ⟨_, rfl, rfl, rfl⟩
    | link target => exact absurd rfl (hlink target)
  case content =>
    rintro content modified rfl
    unfold Handler.stream Files.stream
    simp only [hpath, bind, Except.bind, hitem]
    rfl

/-! ## 4. Agreement -/

section Agreement

variable {dir zip : String} {content : Bytes} {modified : Moment}

theorem Archives.readFile_of_item? {text : String}
    (hzip : fs.item? text = .ok (.file content modified))
    (hopen : fs.unzip content = .ok archive) : readFile fs text = .ok archive := by
  simp [readFile, hzip, hopen, Except.mapError]

theorem FileSystem.contains_of_item? {text : String} (h : fs.item? text = .ok item) :
    fs.contains text = true := by
  rw [FileSystem.contains, h]
  rfl

/-- Every item of a tree is shown in every archive file that packs it. -/
theorem Archives.shows_join (hplain : root.Plain) (hdir : root.isDirectory = true)
    (hzip : fs.item? (Location.file zip).path.text = .ok (.file content modified))
    (hopen : fs.unzip content = .ok archive) (hpacks : archive.Packs root)
    (hat : root.at? p = some item) :
    Handler.archives.Shows fs ((Location.archive zip "").join (Split.join "/" p)) item := by
  rw [Location.archive_join zip (hplain.simple_path hat)]
  exact Archives.shows_packed hpacks hplain hdir (Archives.readFile_of_item? hzip hopen)
    (FileSystem.contains_of_item? hzip) hat

/-- Every item of a tree whose path can be named is shown in the directory that holds the tree. -/
theorem Files.shows_join (hplain : root.Plain)
    (htree : fs.item? (Location.file dir).path.text = .ok root) (hat : root.at? p = some item)
    (hname : ((Location.file dir).join (Split.join "/" p)).path.Nameable) :
    Handler.files.Shows fs ((Location.file dir).join (Split.join "/" p)) item := by
  rw [Location.file_join dir (hplain.simple_path hat)] at hname ⊢
  have hitem := FileSystem.item?_below (Path.plain_ofText dir) htree hplain hat hname
  refine Files.shows_item (hplain.simple p item hat) (fun target hlink => ?_) hitem
  exact hplain.unlinked p target (hlink ▸ hat)

/-- **Two ways to store a tree, one content.**  A tree stands in a directory, and an archive file
packs it.  For every path of the tree both handlers then find the same item there: the same names
below it, the same kind and size, and for a file the same bytes.  The handler of archives does so
without condition, the handler of files if the path can be handed to the operating system.  For
names that lead out of the tree both say that there is nothing. -/
theorem resolvers_agree (hplain : root.Plain) (hdir : root.isDirectory = true)
    (htree : fs.item? (Location.file dir).path.text = .ok root)
    (hzip : fs.item? (Location.file zip).path.text = .ok (.file content modified))
    (hopen : fs.unzip content = .ok archive) (hpacks : archive.Packs root) :
    (∀ p item, root.at? p = some item →
      Handler.archives.Shows fs ((Location.archive zip "").join (Split.join "/" p)) item ∧
      (((Location.file dir).join (Split.join "/" p)).path.Nameable →
        Handler.files.Shows fs ((Location.file dir).join (Split.join "/" p)) item)) ∧
    ∀ p, (∀ name ∈ p, Simple name) → root.at? p = none →
      Handler.archives.present fs ((Location.archive zip "").join (Split.join "/" p)) = .ok false ∧
      Handler.files.present fs ((Location.file dir).join (Split.join "/" p)) = .ok false := by
  refine ⟨fun p item hat => ⟨?_, ?_⟩, fun p hp hat => ⟨?_, ?_⟩⟩
  · exact Archives.shows_join hplain hdir hzip hopen hpacks hat
  · exact Files.shows_join hplain htree hat
  · rw [Location.archive_join zip hp]
    refine (Archives.present_of_readFile (Archives.readFile_of_item? hzip hopen)
      (FileSystem.contains_of_item? hzip)).trans ?_
    rw [Trail.text_reverse, hpacks.classify_of_missing hplain hdir hp hat]
  · rw [Location.file_join dir hp]
    exact congrArg Except.ok
      (FileSystem.contains_below_eq_false (Path.plain_ofText dir) htree hplain hp hat)

end Agreement

/-! ## 5. A tree in both forms -/

/-- An archive file with the member `d/é!` and a record for the directory `e`. -/
def sampleBytes : Bytes :=
  [80, 75, 3, 4, 20, 0, 0, 8, 0, 0, 0, 0, 33, 0, 172, 42, 147, 216, 2, 0, 0, 0, 2, 0, 0, 0, 5, 0,
   0, 0, 100, 47, 195, 169, 33, 104, 105, 80, 75, 3, 4, 20, 0, 0, 8, 0, 0, 0, 0, 33, 0, 0, 0, 0,
   0, 0, 0, 0, 0, 0, 0, 0, 0, 2, 0, 0, 0, 101, 47, 80, 75, 1, 2, 20, 0, 20, 0, 0, 8, 0, 0, 0, 0,
   33, 0, 172, 42, 147, 216, 2, 0, 0, 0, 2, 0, 0, 0, 5, 0, 0, 0, 0, 0, 0, 0, 0, 0, 0, 0, 0, 0, 0,
   0, 0, 0, 100, 47, 195, 169, 33, 80, 75, 1, 2, 20, 0, 20, 0, 0, 8, 0, 0, 0, 0, 33, 0, 0, 0, 0,
   0, 0, 0, 0, 0, 0, 0, 0, 0, 2, 0, 0, 0, 0, 0, 0, 0, 0, 0, 0, 0, 0, 0, 37, 0, 0, 0, 101, 47, 80,
   75, 5, 6, 0, 0, 0, 0, 2, 0, 2, 0, 99, 0, 0, 0, 69, 0, 0, 0, 0, 0]

/-- The tree that `sampleBytes` packs: the directory `d` is only implied there. -/
def sampleTree : Item :=
  .directory [("d", .directory [("é!", .file [104, 105] ⟨0⟩)] ⟨0⟩), ("e", .directory [] ⟨0⟩)] ⟨0⟩

theorem sampleTree_plain : sampleTree.Plain := by
  refine Item.plain_directory _ ?_
  simp only [List.forall_mem_cons, List.not_mem_nil, false_implies, implies_true, and_true]
  refine ⟨⟨by decide, Item.plain_directory _ ?_⟩, by decide, Item.plain_directory _ (by simp)⟩
  simp only [List.forall_mem_cons, List.not_mem_nil, false_implies, implies_true, and_true]
  exact ⟨by decide, Item.plain_file _ _⟩

/-- The tree has one file and one empty directory. -/
theorem sampleTree_at? {p : List String} {item : Item} (h : sampleTree.at? p = some item) :
    (p = ["d", "é!"] ∧ item = .file [104, 105] ⟨0⟩) ∨
      (p = ["e"] ∧ item = .directory [] ⟨0⟩) ∨
      (p = [] ∨ p = ["d"]) ∧ item.isDirectory = true ∧ ∀ modified, item ≠ .directory [] modified := by
  cases p with
  | nil =>
    cases h
    exact .inr (.inr ⟨.inl rfl, rfl, by simp [sampleTree]⟩)
  | cons first rest =>
    by_cases hd : first = "d"
    · subst hd
      cases rest with
      | nil =>
        cases h
        exact .inr (.inr ⟨.inr rfl, rfl, by simp⟩)
      | cons second more =>
        by_cases hbang : second = "é!"
        · subst hbang
          cases more with
          | nil =>
            cases h
            exact .inl ⟨rfl, rfl⟩
          | cons _ _ => cases h
        · simp [sampleTree, Item.at?, Item.child?, List.lookup_cons, beq_false_of_ne hbang] at h
    · by_cases he : first = "e"
      · subst he
        cases rest with
        | nil =>
          cases h
          exact .inr (.inl ⟨rfl, rfl⟩)
        | cons _ _ => cases h
      · simp [sampleTree, Item.at?, Item.child?, List.lookup_cons, beq_false_of_ne hd,
          beq_false_of_ne he] at h

/-- What can be compared of an archive. -/
def sampleView (archive : Archive) : List (String × Option (Bytes × Nat)) :=
  archive.members.rows.map fun (name, m) =>
    (name, if m.fault = none then m.content.get.toOption.map (·, m.size) else none)

set_option maxRecDepth 100000 in
theorem view_sampleBytes : (Zip.openArchive sampleBytes).toOption.map sampleView =
    some [("d/é!", some ([104, 105], 2)), ("e/", some ([], 0))] := by
  decide +kernel

theorem exists_archive_sampleBytes :
    ∃ archive, Zip.openArchive sampleBytes = .ok archive ∧ archive.Packs sampleTree := by
  have hview := view_sampleBytes
  cases hopen : Zip.openArchive sampleBytes with
  | error fault => simp [hopen, Except.toOption] at hview
  | ok archive =>
    refine ⟨archive, rfl, ?_⟩
    simp only [hopen, Except.toOption, Option.map_some, Option.some.injEq, sampleView] at hview
    have hnames : archive.names = ["d/é!", "e/"] := by
      have hfirst := congrArg (List.map Prod.fst) hview
      rwa [List.map_map] at hfirst
    obtain ⟨⟨name, m⟩, others, hrows, hrow, -⟩ := List.map_eq_cons_iff.1 hview
    simp only [Prod.mk.injEq, Option.ite_none_right_eq_some, Option.map_eq_some_iff] at hrow
    obtain ⟨rfl, hfault, bytes, hbytes, hsame⟩ := hrow
    have hm : archive.members.get? "d/é!" = some m := Table.mem_rows.1 (by simp [hrows])
    constructor
    case files =>
      intro p content modified hat
      rcases sampleTree_at? hat with ⟨rfl, hfile⟩ | ⟨-, hfile⟩ | ⟨-, hfile, -⟩
      · cases hfile
        obtain ⟨rfl, hsize⟩ := hsame
        cases hcontent : m.content.get with
        | error e => simp [hcontent] at hbytes
        | ok content =>
          obtain rfl : content = [104, 105] := by simpa [hcontent] using hbytes
          exact ⟨m, hm, hfault, hsize, hcontent⟩
      · cases hfile
      · cases hfile
    case folders =>
      intro p modified hne hat
      rcases sampleTree_at? hat with ⟨-, hfile⟩ | ⟨rfl, -⟩ | ⟨-, -, hfull⟩
      · cases hfile
      · rw [hnames]
        decide
      · exact absurd rfl (hfull modified)
    case only =>
      rw [hnames]
      simp only [List.forall_mem_cons, List.not_mem_nil, false_implies, implies_true, and_true]
      exact ⟨⟨["d", "é!"], _, rfl, by decide⟩, ["e"], _, rfl, by decide⟩

/-- A file system with `sampleBytes` in `t.zip` and something else beside it. -/
def sampleShelf (name : String) (item : Item) : FileSystem where
  root := .directory [("t.zip", .file sampleBytes ⟨0⟩), (name, item)] ⟨0⟩

theorem unzip_sampleShelf (name : String) (item : Item) :
    (sampleShelf name item).unzip = Zip.openArchive := rfl

theorem sampleShelf_at? {name : String} (h : name ≠ "t.zip") (item : Item) (rest : List String) :
    (sampleShelf name item).root.at? (name :: rest) = item.at? rest := by
  simp [sampleShelf, Item.at?, Item.child?, List.lookup_cons, beq_false_of_ne h]

theorem sampleShelf_plain {name : String} {item : Item} (hname : Simple name) (h : item.Plain) :
    (sampleShelf name item).root.Plain := by
  refine Item.plain_directory _ ?_
  simp only [List.forall_mem_cons, List.not_mem_nil, false_implies, implies_true, and_true]
  exact ⟨⟨by decide, Item.plain_file _ _⟩, hname, h⟩

theorem sampleShelf_zip {name : String} {item : Item} (hname : Simple name) (h : item.Plain) :
    (sampleShelf name item).item? (Location.file "/t.zip").path.text =
      .ok (.file sampleBytes ⟨0⟩) := by
  have hpath : (Location.file "/t.zip").path = ⟨.root, ["t.zip"].reverse⟩ := by decide
  rw [hpath]
  exact FileSystem.item?_of_at? rfl (sampleShelf_plain hname h) rfl
    ⟨by decide +kernel, by decide +kernel, by decide +kernel⟩

/-- The tree `sampleTree` in the directory `/w` and in the archive `/t.zip`. -/
theorem resolvers_agree_sample :
    Handler.archives.Shows (sampleShelf "w" sampleTree) ((Location.archive "/t.zip" "").join "d/é!")
        (.file [104, 105] ⟨0⟩) ∧
      Handler.files.Shows (sampleShelf "w" sampleTree) ((Location.file "/w").join "d/é!")
        (.file [104, 105] ⟨0⟩) ∧
      Handler.archives.present (sampleShelf "w" sampleTree)
        ((Location.archive "/t.zip" "").join "d/é") = .ok false ∧
      Handler.files.present (sampleShelf "w" sampleTree) ((Location.file "/w").join "d/é") =
        .ok false := by
  have hname : Simple "w" := by decide
  obtain ⟨archive, hopen, hpacks⟩ := exists_archive_sampleBytes
  rw [← unzip_sampleShelf "w" sampleTree] at hopen
  have hpath : (Location.file "/w").path = ⟨.root, ["w"].reverse⟩ := by decide
  have htree : (sampleShelf "w" sampleTree).item? (Location.file "/w").path.text =
      .ok sampleTree := by
    rw [hpath]
    exact FileSystem.item?_of_at? rfl (sampleShelf_plain hname sampleTree_plain) rfl
      ⟨by decide +kernel, by decide +kernel, by decide +kernel⟩
  have hagree := resolvers_agree sampleTree_plain rfl htree
    (sampleShelf_zip hname sampleTree_plain) hopen hpacks
  obtain ⟨hpacked, hloose⟩ := hagree.1 ["d", "é!"] _ rfl
  obtain ⟨hgone, hgone'⟩ := hagree.2 ["d", "é"] (by decide) rfl
  exact ⟨hpacked, hloose ⟨by decide +kernel, by decide +kernel, by decide +kernel⟩, hgone, hgone'⟩

/-! ## 6. Paths that are too long

A path that is too long for the operating system is a path of the tree all the same: the archive shows
what is there, and the directory cannot. -/

/-- The name of `k` letters `a`. -/
def longName (k : Nat) : String := String.ofList (List.replicate k 'a')

@[simp] theorem toList_longName (k : Nat) : (longName k).toList = List.replicate k 'a' :=
  String.toList_ofList

theorem simple_longName {k : Nat} (hk : 2 < k) : Simple (longName k) := by
  have hlong {text : String} (h : text.toList.length ≤ 2) : longName k ≠ text := by
    rintro rfl
    rw [toList_longName, List.length_replicate] at h
    omega
  have hother {c : Char} (h : c ≠ 'a') : c ∉ (longName k).toList := by
    simp [h]
  exact ⟨hlong (by decide), hlong (by decide), hlong (by decide), hother (by decide),
    hother (by decide)⟩

theorem length_longName (k : Nat) : Utf8.length (longName k) = k := by
  have hone : 'a'.utf8Size = 1 := by decide
  simp [Utf8.length, Utf8.encode, List.length_flatMap, hone]

theorem length_join_longName (k n : Nat) :
    Utf8.length (Split.join "/" (List.replicate (n + 1) (longName k))) = (k + 1) * n + k := by
  induction n with
  | zero => simpa [Split.join] using length_longName k
  | succ n ih =>
    rw [Split.join] at ih ⊢
    rw [List.replicate_succ, String.intercalate_cons_of_ne_nil (by simp), Utf8.length_append,
      Utf8.length_append, ih, length_longName, Utf8.length_slash]
    ring

/-- An item below `n` directories with names of `k` letters. -/
def buried (item : Item) (k : Nat) : Nat → Item
  | 0 => item
  | n + 1 => .directory [(longName k, buried item k n)] ⟨0⟩

theorem buried_at? (item : Item) (k n : Nat) :
    (buried item k n).at? (List.replicate n (longName k)) = some item := by
  induction n with
  | zero => rfl
  | succ n ih => simpa [buried, List.replicate_succ, Item.at?, Item.child?] using ih

theorem buried_plain {item : Item} (h : item.Plain) {k : Nat} (hk : 2 < k) (n : Nat) :
    (buried item k n).Plain := by
  induction n with
  | zero => exact h
  | succ n ih => exact Item.plain_directory _ (by simpa using ⟨simple_longName hk, ih⟩)

/-- The path of `n` directories with names of `k` letters. -/
def deepPath (k n : Nat) : Path := ⟨.root, List.replicate n (longName k)⟩

theorem text_deepPath (k n : Nat) :
    (deepPath k n).text = "/" ++ Split.join "/" (List.replicate n (longName k)) := by
  simp [deepPath, Path.text, Path.components]

theorem length_deepPath (k n : Nat) :
    Utf8.length (deepPath k (n + 1)).text = (k + 1) * (n + 1) := by
  rw [text_deepPath, Utf8.length_append, length_join_longName, Utf8.length_slash]
  ring

theorem deepPath_plain {k : Nat} (hk : 2 < k) (n : Nat) : (deepPath k n).Plain := fun _ hname =>
  List.eq_of_mem_replicate hname ▸ simple_longName hk

/-- The path of something in the innermost directory. -/
theorem text_below_deepPath (k n : Nat) (name : String) :
    ((deepPath k (n + 1)).below [name]).text = (deepPath k (n + 1)).text ++ "/" ++ name := by
  have hjoin := @String.intercalate_append_of_ne_nil (List.replicate (n + 1) (longName k)) [name] "/"
    (by simp) (by simp)
  rw [text_deepPath]
  simp only [deepPath, Path.below, Path.text, Path.components, List.reverse_append,
    List.reverse_replicate, List.reverse_reverse, Split.join, hjoin, String.intercalate_singleton,
    String.append_assoc]

theorem legible_deepPath (k n : Nat) : '\x00' ∉ (deepPath k n).text.toList := by
  have hnul : '\x00' ∉ (Split.join "/" (List.replicate n (longName k))).toList := by
    refine Split.not_mem_join (by decide) fun name hname => ?_
    simp [List.eq_of_mem_replicate hname]
  rw [text_deepPath, String.toList_append, List.mem_append]
  simpa using hnul

theorem deepPath_nameable {k n : Nat} (hk : k ≤ 255) (hn : (k + 1) * (n + 1) < 4096) :
    (deepPath k (n + 1)).Nameable where
  legible := legible_deepPath k (n + 1)
  short := by
    rw [length_deepPath]
    exact hn
  names := by
    intro name hname
    rw [List.eq_of_mem_replicate hname, length_longName]
    exact hk

/-- A file system with `sampleTree` below `n + 1` directories with names of `k` letters. -/
def deepShelf (k n : Nat) : FileSystem := sampleShelf (longName k) (buried sampleTree k n)

theorem deepShelf_tree {k n : Nat} (hk : 2 < k) (hname : (deepPath k (n + 1)).Nameable) :
    (deepShelf k n).item? (Location.file (deepPath k (n + 1)).text).path.text =
      .ok sampleTree := by
  have hpath : (Location.file (deepPath k (n + 1)).text).path = deepPath k (n + 1) :=
    Path.ofText_text (deepPath_plain hk (n + 1))
  have hother : longName k ≠ "t.zip" := fun h => by
    have hdot : '.' ∈ (longName k).toList := by
      rw [h]
      decide
    simp at hdot
  have hat : (deepShelf k n).root.at? (List.replicate (n + 1) (longName k)) =
      some sampleTree := by
    rw [List.replicate_succ, deepShelf, sampleShelf_at? hother, buried_at?]
  have hdeep : deepPath k (n + 1) = ⟨.root, (List.replicate (n + 1) (longName k)).reverse⟩ := by
    rw [List.reverse_replicate, deepPath]
  rw [hpath]
  rw [hdeep] at hname ⊢
  refine FileSystem.item?_of_at? rfl ?_ hat hname
  exact sampleShelf_plain (simple_longName hk) (buried_plain sampleTree_plain hk n)

theorem describe_of_long {fs : FileSystem} {path : Path} (hlegible : '\x00' ∉ path.text.toList)
    (hlong : 4096 ≤ Utf8.length path.text) :
    Handler.files.describe fs ⟨Location.fileScheme, path, none⟩ =
      .error (.io "File name too long (os error 36)") := by
  have hitem := @FileSystem.item?_of_long fs path.text hlegible hlong
  unfold Handler.describe Files.describe
  simp only [Files.pathOf, Location.filePath?, if_true, bind, Except.bind, hitem]
  rfl

/-- A tree in the directory whose path has 4095 bytes, which is as long as a path can be.  The archive
beside it shows everything in the tree; nothing in the directory can be named. -/
theorem resolvers_differ_below_long_path :
    (sampleTree.Plain ∧ sampleTree.isDirectory = true) ∧
      (deepShelf 194 20).item? (Location.file (deepPath 194 21).text).path.text = .ok sampleTree ∧
      (deepShelf 194 20).item? (Location.file "/t.zip").path.text = .ok (.file sampleBytes ⟨0⟩) ∧
      (∃ archive, (deepShelf 194 20).unzip sampleBytes = .ok archive ∧ archive.Packs sampleTree) ∧
      sampleTree.at? ["e"] = some (.directory [] ⟨0⟩) ∧
      Handler.archives.Shows (deepShelf 194 20) ((Location.archive "/t.zip" "").join "e")
        (.directory [] ⟨0⟩) ∧
      Handler.files.describe (deepShelf 194 20) ((Location.file (deepPath 194 21).text).join "e") =
        .error (.io "File name too long (os error 36)") := by
  have hk : 2 < 194 := by decide
  have hname : (deepPath 194 (20 + 1)).Nameable := deepPath_nameable (by decide) (by decide)
  obtain ⟨archive, hopen, hpacks⟩ := exists_archive_sampleBytes
  rw [← unzip_sampleShelf (longName 194) (buried sampleTree 194 20), ← deepShelf] at hopen
  have hzip := sampleShelf_zip (simple_longName hk) (buried_plain sampleTree_plain hk 20)
  have hat : sampleTree.at? ["e"] = some (.directory [] ⟨0⟩) := rfl
  refine ⟨⟨sampleTree_plain, rfl⟩, deepShelf_tree hk hname, hzip, ⟨archive, hopen, hpacks⟩, hat,
    Archives.shows_join sampleTree_plain rfl hzip hopen hpacks hat, ?_⟩
  have hjoin := @Location.file_join ["e"] (deepPath 194 (20 + 1)).text (by decide)
  have hpath : Path.ofText (deepPath 194 (20 + 1)).text = deepPath 194 (20 + 1) :=
    Path.ofText_text (deepPath_plain hk 21)
  rw [hpath] at hjoin
  refine (congrArg _ hjoin).trans (describe_of_long ?_ ?_)
  · rw [text_below_deepPath, String.toList_append, String.toList_append]
    simp [legible_deepPath]
  · rw [text_below_deepPath, Utf8.length_append, Utf8.length_append, length_deepPath,
      Utf8.length_slash]
    omega

end FactGraph
