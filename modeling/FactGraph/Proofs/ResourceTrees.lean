import FactGraph.Builtin.Lines
import FactGraph.Proofs.NestedArchives

/-!
# Trees of resources

A resource can hold others in three ways: a directory of the file system holds what stands under its
names, so does a directory in an archive, and a file that is an archive holds what it packs.  Seen from
a root this makes one tree, with archives inside archives as deep as they go (`Reachable`), and each
resource has one place in it (`Inside.container?_eq`).

The tree is given by items and bytes alone.  What is asked of it is that it can be read: names are
simple, there are no links, every path can be handed to the operating system, and an archive that opens
packs a tree of that sort (`Readable`).  Then whoever asks for a resource is told what the tree says, in
whichever of the three ways it is held (`Stands`): whether it is a directory, what is inside, and the
bytes of a file.

Main statements: `Readable.stands`, `Readable.childrenOf_cases`.
-/

namespace FactGraph

open FileSystem (Item)
open Archives

/-! ## 1. What lies inside what -/

/-- What lies directly inside a resource, by name. -/
inductive Inside (fs : FileSystem) : Location → Item → String → Location → Item → Prop
  /-- A directory holds what stands under its names. -/
  | directory {l : Location} {children : List (String × Item)} {modified : Moment} {name : String}
      {item : Item} (hchild : (Item.directory children modified).child? name = some item) :
      Inside fs l (.directory children modified) name (l.join name) item
  /-- A file that is named like an archive, and is one, holds what it packs. -/
  | archive {l top : Location} {content : Bytes} {modified : Moment} {archive : Archive}
      {inner item : Item} {name : String} (hname : l.looksLikeArchive = true)
      (htop : l.nestedRoot? = some top) (hopen : fs.unzip content = .ok archive)
      (hpacks : archive.Packs inner) (hplain : inner.Plain) (hdir : inner.isDirectory = true)
      (hchild : inner.child? name = some item) :
      Inside fs l (.file content modified) name (top.join name) item

/-- The resources below a root that can be reached without passing an excluded name. -/
inductive Reachable (fs : FileSystem) (excludes : String → Bool) (root : Location) (tree : Item) :
    Location → Item → Prop
  | root : Reachable fs excludes root tree root tree
  | inside {l l' : Location} {item item' : Item} {name : String}
      (h : Reachable fs excludes root tree l item) (hinside : Inside fs l item name l' item')
      (hname : excludes name = false) : Reachable fs excludes root tree l' item'

/-- The kind of a resource: what it is, and for a file what its name says. -/
def resourceKind (l : Location) (item : Item) : String :=
  if item.isDirectory then Builtin.directoryKind
  else if l.looksLikeArchive then Builtin.archiveKind
  else Builtin.fileKind

/-- A tree of resources that can be read.  It stands in the file system and holds no links; all names
are simple and all paths can be named; and an archive in it that opens packs a tree of that sort. -/
structure Readable (fs : FileSystem) (excludes : String → Bool) (root : Location) (tree : Item) :
    Prop where
  rooted : ∃ path, root = Location.file path
  present : fs.item? root.path.text = .ok tree
  plain : tree.Plain
  nameable : ∀ l item, Reachable fs excludes root tree l item → l.path.Nameable
  packed : ∀ l content modified archive, Reachable fs excludes root tree l (.file content modified) →
    l.looksLikeArchive = true → fs.unzip content = .ok archive →
    ∃ inner, archive.Packs inner ∧ inner.Plain ∧ inner.isDirectory = true

theorem Reachable.including {excludes : String → Bool} {root l : Location} {tree item : Item}
    (h : Reachable fs excludes root tree l item) : Reachable fs (fun _ => false) root tree l item := by
  induction h with
  | root => exact .root
  | inside _ hinside _ ih => exact .inside ih hinside rfl

/-- What can be read as a whole can be read without what is excluded. -/
theorem Readable.excluding {fs : FileSystem} {root : Location} {tree : Item}
    (h : Readable fs (fun _ => false) root tree) (excludes : String → Bool) :
    Readable fs excludes root tree where
  rooted := h.rooted
  present := h.present
  plain := h.plain
  nameable l item hl := h.nameable l item hl.including
  packed l content modified archive hl := h.packed l content modified archive hl.including

/-! ## 2. Places -/

namespace Location

variable {path : Path} {outer : List Trail} {trail : Trail} {name : String}

theorem join_fileAt (h : Simple name) :
    join ⟨fileScheme, path, none⟩ name = ⟨fileScheme, path.below [name], none⟩ := by
  simp [join, Step.ofPath_simple h, Path.walk, Path.step, Path.below]

theorem join_archiveAt (h : Simple name) :
    join ⟨archiveScheme, path, some ⟨outer, trail⟩⟩ name =
      ⟨archiveScheme, path, some ⟨outer, name :: trail⟩⟩ := by
  simp [join, Step.ofPath_simple h, Trail.walk, Trail.step]

theorem nestedRoot?_fileAt :
    nestedRoot? ⟨fileScheme, path, none⟩ = some ⟨archiveScheme, path, some ⟨[], []⟩⟩ := rfl

theorem trail_ne_nil (h : isArchiveRoot ⟨archiveScheme, path, some ⟨outer, trail⟩⟩ = false) :
    trail ≠ [] := by
  intro hnil
  simp [isArchiveRoot, hnil] at h

theorem nestedRoot?_archiveAt (h : trail ≠ []) :
    nestedRoot? ⟨archiveScheme, path, some ⟨outer, trail⟩⟩ =
      some ⟨archiveScheme, path, some ⟨outer ++ [trail], []⟩⟩ := by
  have hother : archiveScheme ≠ fileScheme := by decide
  simp [nestedRoot?, hother, isArchiveRoot, h, levels, Entry.levels]

/-- The resource that holds the one at a location.  The top of an archive is no resource of its own: what
lies there is held by the archive. -/
def container? (l : Location) : Option Location :=
  match l.entry with
  | none =>
    match l.path.trail with
    | _ :: trail => some { l with path := { l.path with trail } }
    | [] => none
  | some ⟨outer, _ :: name :: trail⟩ => some { l with entry := some ⟨outer, name :: trail⟩ }
  | some ⟨outer, [_]⟩ =>
    if outer = [] then some ⟨fileScheme, l.path, none⟩
    else some { l with entry := some (Entry.ofLevels outer) }
  | some ⟨_, []⟩ => none

theorem depth_archiveAt : depth ⟨archiveScheme, path, some ⟨outer, trail⟩⟩ =
    path.components.length + ((outer.map fun level => level.length + 1).sum + (trail.length + 1)) := by
  have hsum : depth ⟨archiveScheme, path, some ⟨outer, trail⟩⟩ =
      path.components.length + ((outer ++ [trail]).map fun level => level.length + 1).sum := rfl
  simp [hsum]

end Location

/-- What stands at a location: a tree in the file system, or an item of a tree that is packed in an
archive, the outermost one in a file and each other one in the one before. -/
inductive Stands (fs : FileSystem) : Location → Item → Prop
  | inFiles {path : Path} {item : Item} (hpath : path.Plain) (hplain : item.Plain)
      (hitem : fs.item? path.text = .ok item) :
      Stands fs ⟨Location.fileScheme, path, none⟩ item
  | inArchive {path : Path} {outer : List Trail} {bytes : Bytes} {archive : Archive}
      {packed item : Item} {p : List String} (hpath : path.Plain)
      (houter : ∀ level ∈ outer, level ≠ [] ∧ level.Plain)
      (hbytes : contentAt? fs path.text (outer.map Trail.text) = some bytes)
      (hopen : fs.unzip bytes = .ok archive) (hpacks : archive.Packs packed)
      (hplain : packed.Plain) (hdir : packed.isDirectory = true) (hat : packed.at? p = some item) :
      Stands fs ⟨Location.archiveScheme, path, some ⟨outer, p.reverse⟩⟩ item

namespace Stands

variable {fs : FileSystem} {l : Location} {item : Item}

theorem plain (h : Stands fs l item) : l.Plain := by
  cases h with
  | inFiles hpath => exact Location.plain_fileAt hpath
  | inArchive hpath houter _ _ _ hplain _ hat =>
    refine Location.plain_archiveAt hpath ⟨houter, fun name hname => ?_⟩
    exact hplain.simple_path hat name (List.mem_reverse.1 hname)

theorem plain_item (h : Stands fs l item) : item.Plain := by
  cases h with
  | inFiles _ hplain => exact hplain
  | inArchive _ _ _ _ _ hplain _ hat => exact hplain.below hat

theorem exists_nestedRoot? (h : Stands fs l item) (htop : l.isArchiveRoot = false) :
    ∃ top, l.nestedRoot? = some top := by
  cases h with
  | inFiles => exact ⟨_, Location.nestedRoot?_fileAt⟩
  | inArchive => exact ⟨_, Location.nestedRoot?_archiveAt (Location.trail_ne_nil htop)⟩

theorem simple_name (h : Stands fs l item) {name : String} {child : Item}
    (hchild : item.child? name = some child) : Simple name := by
  refine h.plain_item.simple [] item rfl name (Item.isSome_child?_iff.1 ?_)
  rw [hchild]
  rfl

/-- What stands in a directory stands under its name. -/
theorem join (h : Stands fs l item) {name : String} {child : Item}
    (hchild : item.child? name = some child) (hname : (l.join name).path.Nameable) :
    Stands fs (l.join name) child := by
  have hsimple := h.simple_name hchild
  cases h with
  | @inFiles path _ hpath hplain hitem =>
    rw [Location.join_fileAt hsimple] at hname ⊢
    have hat : item.at? [name] = some child := by simp [Item.at?, hchild]
    refine inFiles (hpath.below (by simpa using hsimple)) (hplain.below hat) ?_
    exact FileSystem.item?_below hpath hitem hplain hat hname
  | @inArchive path outer bytes archive packed _ p hpath houter hbytes hopen hpacks hplain hdir hat =>
    have hat' : packed.at? (p ++ [name]) = some child := by
      rw [Item.at?_append_some hat]
      simp [Item.at?, hchild]
    have htrail : name :: p.reverse = (p ++ [name]).reverse := by simp
    rw [Location.join_archiveAt hsimple, htrail]
    exact inArchive hpath houter hbytes hopen hpacks hplain hdir hat'

/-- The top of a file, read as an archive: a chain of names leads to the bytes of the file. -/
theorem exists_top {content : Bytes} {modified : Moment} (h : Stands fs l (.file content modified))
    {top : Location} (htop : l.nestedRoot? = some top) :
    ∃ path outer, top = ⟨Location.archiveScheme, path, some ⟨outer, []⟩⟩ ∧ path.Plain ∧
      (∀ level ∈ outer, level ≠ [] ∧ level.Plain) ∧
      contentAt? fs path.text (outer.map Trail.text) = some content := by
  cases h with
  | @inFiles path _ hpath hplain hitem =>
    rw [Location.nestedRoot?_fileAt] at htop
    cases htop
    exact ⟨path, [], rfl, hpath, by simp, contentAt?_nil (read?_eq_ok_iff.2 ⟨modified, hitem⟩)⟩
  | @inArchive path outer bytes archive packed _ p hpath houter hbytes hopen hpacks hplain hdir hat =>
    have hne : p.reverse ≠ [] := by
      simpa using Archive.Packs.ne_nil_of_file hdir hat
    rw [Location.nestedRoot?_archiveAt hne] at htop
    cases htop
    obtain ⟨m, hm, -, -, hcontent⟩ := hpacks.open?_of_file hplain hdir hat
    refine ⟨path, outer ++ [p.reverse], rfl, hpath, fun level hlevel => ?_, ?_⟩
    · rcases List.mem_append.1 hlevel with hlevel | hlevel
      · exact houter level hlevel
      · rw [List.mem_singleton.1 hlevel]
        refine ⟨hne, fun name hname => ?_⟩
        exact hplain.simple_path hat name (List.mem_reverse.1 hname)
    · rw [List.map_append, List.map_singleton, Trail.text_reverse]
      exact contentAt?_concat_of_entry hbytes
        (entryOf?_eq_some_iff.2 ⟨archive, m, hopen, hm, hcontent⟩)

/-- A file that is an archive has its tree at its top. -/
theorem enter {content : Bytes} {modified : Moment} (h : Stands fs l (.file content modified))
    {top : Location} (htop : l.nestedRoot? = some top) {archive : Archive} {inner : Item}
    (hopen : fs.unzip content = .ok archive) (hpacks : archive.Packs inner)
    (hplain : inner.Plain) (hdir : inner.isDirectory = true) : Stands fs top inner := by
  obtain ⟨path, outer, rfl, hpath, houter, hcontent⟩ := h.exists_top htop
  exact @inArchive fs path outer content archive inner inner [] hpath houter hcontent hopen hpacks
    hplain hdir rfl

end Stands

/-! ## 3. What is answered -/

namespace Resolver

variable (path : Path) (e : Option Entry)

theorem handlers_standard : standard.handlers =
    (Table.insert ∅ Location.fileScheme Handler.files).insert Location.archiveScheme .archives := by
  have hfile : Location.lowercase Location.fileScheme = Location.fileScheme := by decide +kernel
  have harchive : Location.lowercase Location.archiveScheme = Location.archiveScheme := by decide +kernel
  simp only [standard, register, hfile, harchive]

theorem handler_fileAt : standard.handler ⟨Location.fileScheme, path, e⟩ = .ok .files := by
  have hother : Location.archiveScheme ≠ Location.fileScheme := by decide
  simp [handler, handlers_standard, Table.get?_insert_of_ne _ _ hother.symm]

theorem handler_archiveAt : standard.handler ⟨Location.archiveScheme, path, e⟩ = .ok .archives := by
  simp [handler, handlers_standard, Table.get?_insert_self]

end Resolver

namespace Stands

variable {fs : FileSystem} {l : Location} {item : Item}

/-- A resource is described as what it is. -/
theorem describe (h : Stands fs l item) :
    ∃ d, Resolver.standard.describe fs l = .ok d ∧ d.isDirectory = item.isDirectory := by
  have hl := h.plain
  unfold Resolver.describe
  cases h with
  | inFiles hpath hplain hitem =>
    obtain ⟨d, hd, hdir, -⟩ := (Files.shows_item (hplain.simple [] item rfl)
      (fun target hlink => hplain.unlinked [] target (congrArg some hlink)) hitem).description
    rw [Resolver.handler_fileAt]
    exact ⟨d, hd, hdir⟩
  | @inArchive path outer bytes archive packed _ p hpath houter hbytes hopen hpacks hplain hdir hat =>
    have hfound := resolved_eq_ok_iff.2 ⟨@rfl _ (Trail.text p.reverse), bytes, hbytes, hopen⟩
    obtain ⟨modified, hkind⟩ := hpacks.classify_of_item hplain hdir hat
    rw [← Trail.text_reverse] at hkind
    have hanswer := (@answers_describe fs _ hl).fresh_eq
    rw [hfound] at hanswer
    rw [Resolver.handler_archiveAt]
    refine (?_ : ∃ d, (Archives.describe fs _).fresh = .ok d ∧ _)
    rw [hanswer]
    simp only [described, bind, Except.bind, hkind]
    cases item <;> exact ⟨_, rfl, rfl⟩

/-- What is found below a resource are its names. -/
theorem children (h : Stands fs l item) :
    ∃ found, Resolver.standard.children fs l = .ok found ∧
      ∀ l', l' ∈ found ↔ ∃ name ∈ item.names, l' = l.join name := by
  have hl := h.plain
  unfold Resolver.children
  cases h with
  | @inFiles path _ hpath hplain hitem =>
    rw [Resolver.handler_fileAt]
    have hanswer : Files.children fs ⟨Location.fileScheme, path, none⟩ =
        .ok ((item.names.map (Location.join ⟨Location.fileScheme, path, none⟩)).mergeSort
          fun a b => a.uri ≤ b.uri) := by
      have hpathOf : Files.pathOf ⟨Location.fileScheme, path, none⟩ = .ok path.text := rfl
      simp only [Files.children, hpathOf, bind, Except.bind, hitem]
      rfl
    refine ⟨_, hanswer, fun l' => ?_⟩
    simp [List.mem_mergeSort, eq_comm]
  | @inArchive path outer bytes archive packed _ p hpath houter hbytes hopen hpacks hplain hdir hat =>
    have hfound := resolved_eq_ok_iff.2 ⟨@rfl _ (Trail.text p.reverse), bytes, hbytes, hopen⟩
    have hanswer := (@answers_children fs _ hl).fresh_eq
    rw [hfound] at hanswer
    rw [Resolver.handler_archiveAt]
    refine ⟨_, hanswer, fun l' => ?_⟩
    have hbelow := hpacks.namesBelow_packed hplain hdir hat
    rw [← Trail.text_reverse] at hbelow
    simp [hbelow, eq_comm]

/-- A file is read as it is. -/
theorem read {content : Bytes} {modified : Moment} (h : Stands fs l (.file content modified)) :
    Resolver.standard.read fs l = .ok content := by
  have hl := h.plain
  unfold Resolver.read Resolver.stream
  cases h with
  | @inFiles path _ hpath hplain hitem =>
    rw [Resolver.handler_fileAt]
    exact (Files.shows_item (hplain.simple [] _ rfl) (fun target hlink => by cases hlink)
      hitem).content content modified rfl
  | @inArchive path outer bytes archive packed _ p hpath houter hbytes hopen hpacks hplain hdir hat =>
    have hne : p.reverse ≠ [] := by
      simpa using Archive.Packs.ne_nil_of_file hdir hat
    obtain ⟨m, hm, -, -, hcontent⟩ := hpacks.open?_of_file hplain hdir hat
    rw [Resolver.handler_archiveAt]
    refine (congrArg (Except.bind · Stream.readAll) (answers_stream hl).fresh_eq).trans ?_
    rw [readAll_streamed_iff (hl.entry _ rfl).inner hne, List.map_append, List.map_singleton,
      Trail.text_reverse]
    exact contentAt?_concat_of_entry hbytes (entryOf?_eq_some_iff.2 ⟨archive, m, hopen, hm, hcontent⟩)

/-- A file whose top can be listed is an archive. -/
theorem exists_openArchive {content : Bytes} {modified : Moment}
    (h : Stands fs l (.file content modified)) {top : Location} (htop : l.nestedRoot? = some top)
    {found : List Location} (hfound : Resolver.standard.children fs top = .ok found) :
    ∃ archive, fs.unzip content = .ok archive := by
  obtain ⟨path, outer, rfl, hpath, houter, hcontent⟩ := h.exists_top htop
  have hplain : Location.Plain ⟨Location.archiveScheme, path, some ⟨outer, []⟩⟩ :=
    Location.plain_archiveAt hpath ⟨houter, by simp [Trail.Plain]⟩
  have hanswer := (@answers_children fs _ hplain).fresh_eq
  unfold Resolver.children at hfound
  rw [Resolver.handler_archiveAt] at hfound
  replace hfound := hanswer.symm.trans hfound
  obtain ⟨⟨archive, name⟩, hresolved, -⟩ := bind_eq_ok_iff.1 hfound
  obtain ⟨-, bytes, hbytes, hopen⟩ := resolved_eq_ok_iff.1 hresolved
  rw [hcontent] at hbytes
  cases hbytes
  exact ⟨archive, hopen⟩

end Stands

/-! ## 4. The tree below a root -/

namespace Inside

variable {fs : FileSystem} {l l' : Location} {item item' : Item} {name : String}

/-- What lies inside a resource is called by its name, and its place is no top of an archive. -/
theorem fileName_eq (h : Inside fs l item name l' item') (hl : Stands fs l item) :
    l'.fileName = name ∧ l'.isArchiveRoot = false := by
  have hjoin : ∀ {l : Location} {item : Item}, Stands fs l item → item.child? name = some item' →
      (l.join name).fileName = name ∧ (l.join name).isArchiveRoot = false := by
    intro l item hl hchild
    have hsimple := hl.simple_name hchild
    refine ⟨l.fileName_join hsimple, ?_⟩
    cases hl with
    | inFiles => rw [Location.join_fileAt hsimple]; rfl
    | inArchive => rw [Location.join_archiveAt hsimple]; rfl
  cases h with
  | directory hchild => exact hjoin hl hchild
  | archive _ htop hopen hpacks hplain hdir hchild =>
    exact hjoin (hl.enter htop hopen hpacks hplain hdir) hchild

theorem stands (h : Inside fs l item name l' item') (hl : Stands fs l item) (hname : l'.path.Nameable) :
    Stands fs l' item' := by
  cases h with
  | directory hchild => exact hl.join hchild hname
  | archive _ htop hopen hpacks hplain hdir hchild =>
    exact (hl.enter htop hopen hpacks hplain hdir).join hchild hname

/-- **Each resource is held by one other.** -/
theorem container?_eq (h : Inside fs l item name l' item') (hl : Stands fs l item)
    (htop : l.isArchiveRoot = false) : l'.container? = some l := by
  cases h with
  | directory hchild =>
    have hsimple := hl.simple_name hchild
    cases hl with
    | inFiles => rw [Location.join_fileAt hsimple]; rfl
    | @inArchive path outer _ _ _ _ p =>
      rw [Location.join_archiveAt hsimple]
      cases htrail : p.reverse with
      | nil => exact absurd htrail (Location.trail_ne_nil htop)
      | cons first rest => rfl
  | archive _ hroot hopen hpacks hplain hdir hchild =>
    have hsimple := (hl.enter hroot hopen hpacks hplain hdir).simple_name hchild
    cases hl with
    | inFiles =>
      cases hroot
      rw [Entry.top, Location.join_archiveAt hsimple]
      rfl
    | inArchive =>
      rw [Location.nestedRoot?_archiveAt (Location.trail_ne_nil htop)] at hroot
      cases hroot
      rw [Location.join_archiveAt hsimple]
      simp [Location.container?, Entry.ofLevels_concat]

/-- What is inside is deeper. -/
theorem depth_lt (h : Inside fs l item name l' item') (hl : Stands fs l item)
    (htop : l.isArchiveRoot = false) : l.depth < l'.depth := by
  have hjoin : ∀ {l : Location} {item : Item}, Stands fs l item → item.child? name = some item' →
      l.depth < (l.join name).depth := by
    intro l item hl hchild
    have hsimple := hl.simple_name hchild
    cases hl with
    | @inFiles path =>
      rw [Location.join_fileAt hsimple]
      cases hbase : path.base <;>
        simp [Location.depth, Location.levels, Path.components, Path.below, hbase]
    | inArchive =>
      rw [Location.join_archiveAt hsimple, Location.depth_archiveAt, Location.depth_archiveAt]
      simp
  cases h with
  | directory hchild => exact hjoin hl hchild
  | archive _ hroot hopen hpacks hplain hdir hchild =>
    refine Nat.lt_of_le_of_lt ?_ (hjoin (hl.enter hroot hopen hpacks hplain hdir) hchild)
    cases hl with
    | inFiles =>
      cases hroot
      simp [Location.depth, Location.levels]
    | inArchive =>
      rw [Location.nestedRoot?_archiveAt (Location.trail_ne_nil htop)] at hroot
      cases hroot
      rw [Location.depth_archiveAt, Location.depth_archiveAt]
      simp

/-- Only directories and archives hold anything. -/
theorem resourceKind_ne (h : Inside fs l item name l' item') :
    resourceKind l item ≠ Builtin.fileKind := by
  cases h with
  | directory => simp [resourceKind, Item.isDirectory, Builtin.directoryKind, Builtin.fileKind]
  | archive hname => simp [resourceKind, Item.isDirectory, hname, Builtin.archiveKind, Builtin.fileKind]

end Inside

/-- The URI of the container of a resource, as seen from a root: the root has none. -/
def containerIn? (root l : Location) : Option String :=
  if l = root then none else l.container?.map Location.uri

namespace Readable

variable {fs : FileSystem} {excludes : String → Bool} {root l l' : Location} {tree item item' : Item}
  {name : String}

/-- **Everything in a readable tree stands at its place.** -/
theorem stands (h : Readable fs excludes root tree) (hl : Reachable fs excludes root tree l item) :
    Stands fs l item ∧ l.isArchiveRoot = false := by
  induction hl with
  | root =>
    obtain ⟨path, rfl⟩ := h.rooted
    exact ⟨.inFiles (Path.plain_ofText path) h.plain h.present, rfl⟩
  | @inside l l' item item' name hl hinside hname ih =>
    exact ⟨hinside.stands ih.1 (h.nameable l' item' (.inside hl hinside hname)),
      (hinside.fileName_eq ih.1).2⟩

theorem plain_of (h : Readable fs excludes root tree) (hl : Reachable fs excludes root tree l item) :
    l.Plain :=
  (h.stands hl).1.plain

/-- In a readable tree a URI stands for one resource. -/
theorem eq_of_uri (h : Readable fs excludes root tree) (hl : Reachable fs excludes root tree l item)
    (hl' : Reachable fs excludes root tree l' item') (huri : l.uri = l'.uri) : l = l' :=
  eq_of_uri_eq (h.plain_of hl) (h.plain_of hl') huri

theorem fileName_of_inside (h : Readable fs excludes root tree)
    (hl : Reachable fs excludes root tree l item) (hinside : Inside fs l item name l' item') :
    l'.fileName = name :=
  (hinside.fileName_eq (h.stands hl).1).1

theorem depth_le (h : Readable fs excludes root tree) (hl : Reachable fs excludes root tree l item) :
    root.depth ≤ l.depth := by
  induction hl with
  | root => exact Nat.le_refl _
  | inside hl hinside _ ih =>
    exact Nat.le_of_lt (Nat.lt_of_le_of_lt ih (hinside.depth_lt (h.stands hl).1 (h.stands hl).2))

/-- What lies inside a resource has it as its container; in particular it is not the root. -/
theorem containerIn?_of_inside (h : Readable fs excludes root tree)
    (hl : Reachable fs excludes root tree l item) (hinside : Inside fs l item name l' item') :
    containerIn? root l' = some l.uri := by
  have hdeeper := hinside.depth_lt (h.stands hl).1 (h.stands hl).2
  have hne : l' ≠ root := by
    rintro rfl
    exact absurd (h.depth_le hl) (Nat.not_le.2 hdeeper)
  rw [containerIn?, if_neg hne, hinside.container?_eq (h.stands hl).1 (h.stands hl).2]
  rfl

/-- A resource is described with its kind. -/
theorem describe (h : Readable fs excludes root tree) (hl : Reachable fs excludes root tree l item) :
    ∃ d, Resolver.standard.describe fs l = .ok d ∧ Builtin.kindOf l d = resourceKind l item := by
  obtain ⟨d, hd, hdir⟩ := (h.stands hl).1.describe
  refine ⟨d, hd, ?_⟩
  rw [Builtin.kindOf, resourceKind, hdir]

/-- The kind of a resource is a matter of its place. -/
theorem resourceKind_congr (h : Readable fs excludes root tree)
    (hl : Reachable fs excludes root tree l item) (hl' : Reachable fs excludes root tree l item') :
    resourceKind l item = resourceKind l item' := by
  obtain ⟨d, hd, hkind⟩ := h.describe hl
  obtain ⟨d', hd', hkind'⟩ := h.describe hl'
  rw [← hkind, ← hkind']
  rw [hd] at hd'
  cases hd'
  rfl

variable {μ : Type} {n : Node μ} (settings : Settings)

theorem childrenOf_eq (h : Readable fs excludes root tree) (hl : Reachable fs excludes root tree l item)
    (hid : n.id = l.uri) {listed : Location} (hlisted : Builtin.listedFor n l = .ok listed) :
    Builtin.childrenOf { settings, files := fs } n =
      (Resolver.standard.children fs listed).mapError Error.message := by
  have hlocate : Context.locate n.id = .ok l := by
    rw [hid, Context.locate, Location.parse_uri (h.plain_of hl)]
    rfl
  unfold Builtin.childrenOf
  rw [hlocate]
  simp only [Except.mapError, bind, Except.bind, hlisted]
  rfl

/-- **What the collector lists**: what lies inside the resource.  It fails on a file that is only
named like an archive, and there is nothing inside that. -/
theorem childrenOf_cases (h : Readable fs excludes root tree)
    (hl : Reachable fs excludes root tree l item) (hid : n.id = l.uri)
    (hkind : n.kind = resourceKind l item) (hcontainer : n.kind ≠ Builtin.fileKind) :
    (∃ found, Builtin.childrenOf { settings, files := fs } n = .ok found ∧
      ∀ l', l' ∈ found ↔ ∃ name item', Inside fs l item name l' item') ∨
    ((∃ message, Builtin.childrenOf { settings, files := fs } n = .error message) ∧
      ∀ name l' item', ¬ Inside fs l item name l' item') := by
  obtain ⟨hstands, htop⟩ := h.stands hl
  cases item with
  | link target => exact absurd rfl (hstands.plain_item.unlinked [] target)
  | directory children modified =>
    have hlisted : Builtin.listedFor n l = .ok l := by
      rw [Builtin.listedFor, hkind, if_neg]
      simp [resourceKind, Item.isDirectory, Builtin.directoryKind, Builtin.archiveKind]
    obtain ⟨found, hfound, hmem⟩ := hstands.children
    refine .inl ⟨found, ?_, fun l' => ?_⟩
    · rw [h.childrenOf_eq settings hl hid hlisted, hfound]
      rfl
    · rw [hmem]
      constructor
      · rintro ⟨name, hname, rfl⟩
        obtain ⟨item', hitem⟩ := Option.isSome_iff_exists.1 (Item.isSome_child?_iff.2 hname)
        exact ⟨name, item', .directory hitem⟩
      · rintro ⟨name, item', hinside⟩
        cases hinside with
        | directory hchild =>
          refine ⟨name, Item.isSome_child?_iff.1 ?_, rfl⟩
          rw [hchild]
          rfl
  | file content modified =>
    have hname : l.looksLikeArchive = true := by
      by_contra hnot
      exact hcontainer (by simp [hkind, resourceKind, Item.isDirectory, hnot])
    obtain ⟨top, hroot⟩ := hstands.exists_nestedRoot? htop
    have hlisted : Builtin.listedFor n l = .ok top := by
      rw [Builtin.listedFor, hkind, if_pos, hroot]
      simp [resourceKind, Item.isDirectory, hname]
    rw [h.childrenOf_eq settings hl hid hlisted]
    cases hfound : Resolver.standard.children fs top with
    | error e =>
      refine .inr ⟨⟨_, rfl⟩, fun name l' item' hinside => ?_⟩
      cases hinside with
      | archive _ hroot' hopen hpacks hplain hdir hchild =>
        rw [hroot] at hroot'
        cases hroot'
        obtain ⟨found, hfound', -⟩ := (hstands.enter hroot hopen hpacks hplain hdir).children
        rw [hfound] at hfound'
        cases hfound'
    | ok found =>
      obtain ⟨archive, hopen⟩ := hstands.exists_openArchive hroot hfound
      obtain ⟨inner, hpacks, hplain, hdir⟩ := h.packed l content modified archive hl hname hopen
      refine .inl ⟨found, rfl, fun l' => ⟨fun hmem => ?_, ?_⟩⟩
      · obtain ⟨found', hfound', hmem'⟩ := (hstands.enter hroot hopen hpacks hplain hdir).children
        rw [hfound] at hfound'
        cases hfound'
        obtain ⟨name, hnames, rfl⟩ := (hmem' l').1 hmem
        obtain ⟨item', hitem⟩ := Option.isSome_iff_exists.1 (Item.isSome_child?_iff.2 hnames)
        exact ⟨name, item', .archive hname hroot hopen hpacks hplain hdir hitem⟩
      · rintro ⟨name, item', hinside⟩
        cases hinside with
        | archive _ hroot' hopen hpacks hplain hdir hchild =>
          rw [hroot] at hroot'
          cases hroot'
          obtain ⟨found', hfound', hmem'⟩ := (hstands.enter hroot hopen hpacks hplain hdir).children
          rw [hfound] at hfound'
          cases hfound'
          refine (hmem' _).2 ⟨name, Item.isSome_child?_iff.1 ?_, rfl⟩
          rw [hchild]
          rfl

end Readable

/-! ## 5. A tree with an archive in it -/

/-- A text of two lines. -/
def mixedText : Bytes := [104, 105, 10, 104]

/-- A file system with an archive and a text beside it. -/
def mixedShelf : FileSystem := sampleShelf "target" (.file mixedText ⟨0⟩)

theorem exists_archive_mixedShelf :
    ∃ archive, mixedShelf.unzip sampleBytes = .ok archive ∧ archive.Packs sampleTree := by
  rw [mixedShelf, unzip_sampleShelf]
  exact exists_archive_sampleBytes

/-- What is on the shelf. -/
inductive OnShelf : Location → Item → Prop
  | top : OnShelf (Location.file "/") mixedShelf.root
  | archive : OnShelf (Location.file "/t.zip") (.file sampleBytes ⟨0⟩)
  | text : OnShelf (Location.file "/target") (.file mixedText ⟨0⟩)
  | packed {archive : Archive} {inner item : Item} {p : List String}
      (hopen : mixedShelf.unzip sampleBytes = .ok archive) (hpacks : archive.Packs inner)
      (hplain : inner.Plain) (hdir : inner.isDirectory = true) (hp : p ≠ [])
      (hat : inner.at? p = some item) :
      OnShelf ⟨Location.archiveScheme, ⟨.root, ["t.zip"]⟩, some ⟨[], p.reverse⟩⟩ item

/-- What is packed is at a path of the sample. -/
theorem exists_sampleTree_at? {archive : Archive} {inner item : Item} {p : List String}
    (hopen : mixedShelf.unzip sampleBytes = .ok archive) (hpacks : archive.Packs inner)
    (hplain : inner.Plain) (hdir : inner.isDirectory = true) (hat : inner.at? p = some item) :
    ∃ item', sampleTree.at? p = some item' ∧ item'.isDirectory = item.isDirectory ∧
      ∀ content modified, item = .file content modified →
        ∃ modified', item' = .file content modified' := by
  obtain ⟨archive', hopen', hpacks'⟩ := exists_archive_mixedShelf
  rw [hopen] at hopen'
  cases hopen'
  exact hpacks.exists_at? hpacks' hplain sampleTree_plain hdir rfl hat

namespace OnShelf

variable {l l' : Location} {item item' : Item} {name : String}

/-- The files on the shelf. -/
def files : List (Location × Bytes) :=
  [(Location.file "/t.zip", sampleBytes), (Location.file "/target", mixedText),
    (⟨Location.archiveScheme, ⟨.root, ["t.zip"]⟩, some ⟨[], ["é!", "d"]⟩⟩, [104, 105])]

theorem mem_files {content : Bytes} {modified : Moment} (h : OnShelf l (.file content modified)) :
    (l, content) ∈ files := by
  generalize hitem : Item.file content modified = item at h
  cases h with
  | top => cases hitem
  | archive =>
    cases hitem
    simp [files]
  | text =>
    cases hitem
    simp [files]
  | packed hopen hpacks hplain hdir hp hat =>
    subst hitem
    obtain ⟨item', hat', -, hfile⟩ := exists_sampleTree_at? hopen hpacks hplain hdir hat
    obtain ⟨modified', rfl⟩ := hfile content modified rfl
    rcases sampleTree_at? hat' with ⟨rfl, hfile⟩ | ⟨-, hfile⟩ | ⟨-, hfile, -⟩
    · cases hfile
      simp [files]
    · cases hfile
    · cases hfile

/-- An archive on the shelf is the sample. -/
theorem eq_of_looksLikeArchive {content : Bytes} {modified : Moment}
    (h : OnShelf l (.file content modified)) (hname : l.looksLikeArchive = true) :
    l = Location.file "/t.zip" ∧ content = sampleBytes := by
  have hmem := h.mem_files
  simp only [files, List.mem_cons, List.not_mem_nil, or_false, Prod.mk.injEq] at hmem
  rcases hmem with hmem | ⟨rfl, -⟩ | ⟨rfl, -⟩
  · exact hmem
  · exact absurd hname (by decide +kernel)
  · exact absurd hname (by decide +kernel)

theorem join {archive : Archive} {inner : Item} {p : List String}
    (hopen : mixedShelf.unzip sampleBytes = .ok archive) (hpacks : archive.Packs inner)
    (hplain : inner.Plain) (hdir : inner.isDirectory = true) (hat : inner.at? p = some item)
    (hchild : item.child? name = some item') :
    OnShelf (Location.join ⟨Location.archiveScheme, ⟨.root, ["t.zip"]⟩, some ⟨[], p.reverse⟩⟩ name)
      item' := by
  have hat' : inner.at? (p ++ [name]) = some item' := by
    rw [Item.at?_append_some hat]
    simp [Item.at?, hchild]
  have hmember := packed hopen hpacks hplain hdir (by simp) hat'
  rw [List.reverse_append] at hmember
  rw [Location.join_archiveAt (hplain.simple_path hat' name (by simp))]
  exact hmember

/-- What lies inside something on the shelf is on the shelf. -/
theorem inside (h : OnShelf l item) (hinside : Inside mixedShelf l item name l' item') :
    OnShelf l' item' := by
  cases hinside with
  | @directory children modified _ _ hchild =>
    generalize hitem : Item.directory children modified = item at h hchild
    cases h with
    | top =>
      have hfound : List.lookup name [("t.zip", Item.file sampleBytes ⟨0⟩),
          ("target", Item.file mixedText ⟨0⟩)] = some item' := hchild
      by_cases hzip : name = "t.zip"
      · subst hzip
        cases hfound
        exact archive
      · by_cases htext : name = "target"
        · subst htext
          cases hfound
          exact text
        · simp [List.lookup_cons, beq_false_of_ne hzip, beq_false_of_ne htext] at hfound
    | archive => cases hitem
    | text => cases hitem
    | packed hopen hpacks hplain hdir _ hat => exact join hopen hpacks hplain hdir hat hchild
  | archive hname htop hopen hpacks hplain hdir hchild =>
    obtain ⟨rfl, rfl⟩ := h.eq_of_looksLikeArchive hname
    cases htop
    exact join hopen hpacks hplain hdir (p := []) rfl hchild

theorem of_reachable
    (h : Reachable mixedShelf (fun _ => false) (Location.file "/") mixedShelf.root l item) :
    OnShelf l item := by
  induction h with
  | root => exact top
  | inside _ hinside _ ih => exact ih.inside hinside

theorem nameable (h : OnShelf l item) : l.path.Nameable := by
  have hzip : Path.Nameable ⟨.root, ["t.zip"]⟩ :=
    ⟨by decide +kernel, by decide +kernel, by decide +kernel⟩
  cases h with
  | top => exact ⟨by decide +kernel, by decide +kernel, by decide +kernel⟩
  | archive => exact hzip
  | text => exact ⟨by decide +kernel, by decide +kernel, by decide +kernel⟩
  | packed => exact hzip

/-- Where something can be on the shelf. -/
def places : List Location :=
  [Location.file "/", Location.file "/t.zip", Location.file "/target",
    ⟨Location.archiveScheme, ⟨.root, ["t.zip"]⟩, some ⟨[], ["d"]⟩⟩,
    ⟨Location.archiveScheme, ⟨.root, ["t.zip"]⟩, some ⟨[], ["é!", "d"]⟩⟩,
    ⟨Location.archiveScheme, ⟨.root, ["t.zip"]⟩, some ⟨[], ["e"]⟩⟩]

theorem mem_places (h : OnShelf l item) : l ∈ places := by
  cases h with
  | top => simp [places]
  | archive => simp [places]
  | text => simp [places]
  | packed hopen hpacks hplain hdir hp hat =>
    obtain ⟨item', hat', -⟩ := exists_sampleTree_at? hopen hpacks hplain hdir hat
    rcases sampleTree_at? hat' with ⟨rfl, -⟩ | ⟨rfl, -⟩ | ⟨rfl | rfl, -⟩
    · simp [places]
    · simp [places]
    · exact absurd rfl hp
    · simp [places]

end OnShelf

/-- A readable tree. -/
theorem readable_shelf :
    Readable mixedShelf (fun _ => false) (Location.file "/") mixedShelf.root := by
  have hplain : mixedShelf.root.Plain := sampleShelf_plain (by decide) (Item.plain_file _ _)
  have hpath : (Location.file "/").path = ⟨.root, [].reverse⟩ := by decide
  refine ⟨⟨"/", rfl⟩, ?_, hplain, fun l item hl => (OnShelf.of_reachable hl).nameable,
    fun l content modified archive hl hname hopen => ?_⟩
  · rw [hpath]
    exact FileSystem.item?_of_at? rfl hplain rfl
      ⟨by decide +kernel, by decide +kernel, by decide +kernel⟩
  · obtain ⟨-, rfl⟩ := (OnShelf.of_reachable hl).eq_of_looksLikeArchive hname
    obtain ⟨archive', hopen', hpacks⟩ := exists_archive_mixedShelf
    rw [hopen] at hopen'
    cases hopen'
    exact ⟨sampleTree, hpacks, sampleTree_plain, rfl⟩

end FactGraph
