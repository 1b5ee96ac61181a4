import FactGraph.Proofs.Lookups
import FactGraph.Proofs.Tables
import FactGraph.Resource.Archives

/-!
# Packed trees

An archive has no directories, only members with names, and what is asked about a directory is read
off the names.  An archive packs a tree if it holds the files of the tree under their paths, and
records for directories, at least for the empty ones.  This module shows that the names then say
exactly what the tree says: they are cut at their slashes into paths of the tree, every path of the
tree leads to one of them, and so a name is classified as the item at its path, and the names below it
are those of the item.

Main statements: `Archive.Packs.namesBelow_packed`, `Archive.Packs.classify_of_item`,
`Archive.Packs.classify_of_missing`.
-/

namespace FactGraph

open FileSystem (Item componentsOf)

/-! ## 1. Names with slashes -/

theorem Split.not_mem_join {c : Char} (hc : c ≠ '/') {names : List String}
    (h : ∀ name ∈ names, c ∉ name.toList) : c ∉ (join "/" names).toList := by
  induction names with
  | nil => simp [join]
  | cons name rest ih =>
    obtain ⟨hname, hrest⟩ := List.forall_mem_cons.1 h
    by_cases hr : rest = []
    · simpa [hr, join] using hname
    · rw [join, String.intercalate_cons_of_ne_nil hr, String.toList_append, List.mem_append]
      rintro (hmem | hmem)
      · simp [hname, hc] at hmem
      · exact ih hrest hmem

theorem empty_not_mem_of_simple {p : List String} (h : ∀ name ∈ p, Simple name) : "" ∉ p :=
  fun hmem => (h "" hmem).ne_empty rfl

namespace FileSystem

@[simp] theorem join_componentsOf (text : String) : Split.join "/" (componentsOf text) = text := by
  have hid : String.toList ∘ String.ofList = id := funext fun _ => String.toList_ofList
  rw [← String.toList_inj, Split.join, String.toList_intercalate, componentsOf, Split.texts,
    List.map_map, hid, List.map_id, Split.pieces_eq_splitOnP]
  exact List.intercalate_splitOn '/'

theorem slash_not_mem_of_componentsOf {text name : String} (h : name ∈ componentsOf text) :
    '/' ∉ name.toList := by
  obtain ⟨piece, hpiece, rfl⟩ := List.mem_map.1 h
  intro hslash
  rw [String.toList_ofList] at hslash
  exact absurd (Split.free_of_mem_pieces hpiece _ hslash) (by decide)

theorem componentsOf_ne_nil (text : String) : componentsOf text ≠ [] := by
  simp [componentsOf, Split.texts, Split.pieces_ne_nil]

/-- The first component ends before the first slash. -/
theorem exists_componentsOf_eq (text : List Char) :
    ∃ more, componentsOf (String.ofList text) =
      String.ofList (text.takeWhile (· ≠ '/')) :: more := by
  rw [componentsOf, Split.texts, String.toList_ofList]
  induction text with
  | nil => exact ⟨[], rfl⟩
  | cons c rest ih =>
    obtain ⟨more, hmore⟩ := ih
    obtain ⟨piece, others, hrest⟩ := List.exists_cons_of_ne_nil (Split.pieces_ne_nil (· = '/') rest)
    by_cases hc : c = '/' <;> simp_all [Split.pieces]

end FileSystem

namespace Archives

/-- A name with forward slashes only is left alone. -/
theorem slashed_eq_self {n : String} (h : '\\' ∉ n.toList) : slashed n = n := by
  have hkept : n.toList.map (fun c => if c = '\\' then '/' else c) = n.toList.map id := by
    refine List.map_congr_left fun c hc => if_neg ?_
    rintro rfl
    exact h hc
  rw [slashed, hkept, List.map_id, String.ofList_toList]

theorem backslash_not_mem_slashed (n : String) : '\\' ∉ (slashed n).toList := by
  rw [slashed, String.toList_ofList]
  intro hmem
  obtain ⟨c, -, hc⟩ := List.mem_map.1 hmem
  split_ifs at hc with hback
  · exact absurd hc (by decide)
  · exact hback hc

/-- What the names of everything below a place start with. -/
def folder (p : List String) : String := if p = [] then "" else Split.join "/" p ++ "/"

variable {p q : List String}

theorem componentsOf_folder_append (hp : ∀ name ∈ p, Simple name) (rest : String) :
    componentsOf (folder p ++ rest) = p ++ componentsOf rest := by
  unfold folder
  split_ifs with hne
  · rw [hne, String.empty_append, List.nil_append]
  · have hrest := FileSystem.componentsOf_ne_nil rest
    have hjoin : Split.join "/" (p ++ componentsOf rest) = Split.join "/" p ++ "/" ++ rest := by
      rw [Split.join, String.intercalate_append_of_ne_nil hne hrest]
      exact congrArg _ (FileSystem.join_componentsOf rest)
    rw [← hjoin]
    refine FileSystem.componentsOf_join (by simp [hne]) fun name hname => ?_
    rcases List.mem_append.1 hname with hname | hname
    · exact (hp name hname).slash
    · exact FileSystem.slash_not_mem_of_componentsOf hname

/-- The components of the record of a directory. -/
theorem componentsOf_record (hp : ∀ name ∈ p, Simple name) (hne : p ≠ []) :
    componentsOf (Split.join "/" p ++ "/") = p ++ [""] := by
  have hfolder := componentsOf_folder_append hp ""
  rwa [folder, if_neg hne, String.append_empty] at hfolder

/-- A name starts with a folder exactly if its components lead through the folder. -/
theorem folder_prefix_iff (hp : ∀ name ∈ p, Simple name) {n : String} :
    (folder p).toList <+: n.toList ↔ ∃ t, t ≠ [] ∧ componentsOf n = p ++ t := by
  constructor
  · rintro ⟨rest, hrest⟩
    have hn : n = folder p ++ String.ofList rest := String.toList_inj.1 (by simp [← hrest])
    exact ⟨_, FileSystem.componentsOf_ne_nil _, hn ▸ componentsOf_folder_append hp _⟩
  · rintro ⟨t, ht, hcomponents⟩
    have hn : n = folder p ++ Split.join "/" t := by
      rw [← FileSystem.join_componentsOf n, hcomponents]
      unfold folder
      split_ifs with hne
      · rw [hne, String.empty_append, List.nil_append]
      · exact String.intercalate_append_of_ne_nil hne ht
    exact ⟨(Split.join "/" t).toList, by rw [hn, String.toList_append]⟩

/-- What is listed below a folder for a name: the component after the folder. -/
theorem firstBelow?_eq_some_iff (hp : ∀ name ∈ p, Simple name) {n x : String}
    (hn : slashed n = n) :
    firstBelow? (folder p) n = some x ↔ x ≠ "" ∧ ∃ t, componentsOf n = p ++ x :: t := by
  unfold firstBelow?
  rw [hn]
  by_cases hstarts : (folder p).toList <+: n.toList
  · obtain ⟨rest, hrest⟩ := hstarts
    have htext : n = folder p ++ String.ofList rest := String.toList_inj.1 (by simp [← hrest])
    obtain ⟨more, hmore⟩ := FileSystem.exists_componentsOf_eq rest
    have hcomponents : componentsOf n = p ++ String.ofList (rest.takeWhile (· ≠ '/')) :: more := by
      rw [htext, componentsOf_folder_append hp, hmore]
    have hfirst : (∃ t, componentsOf n = p ++ x :: t) ↔
        String.ofList (rest.takeWhile (· ≠ '/')) = x := by
      rw [hcomponents]
      simp
    simp only [hfirst, ← hrest, List.isPrefixOf_iff_prefix, List.prefix_append, if_true,
      List.drop_left]
    split_ifs with hempty
    · rw [hempty]
      simp [eq_comm]
    · rw [Option.some.injEq, iff_and_self]
      rintro rfl
      simpa using hempty
  · have hnone : ¬ ∃ t, componentsOf n = p ++ x :: t := fun ⟨t, ht⟩ =>
      hstarts ((folder_prefix_iff hp).2 ⟨_, by simp, ht⟩)
    simp [hstarts, hnone]

end Archives

/-- A member under a path of simple names is not taken for a directory. -/
theorem Member.isDirectory_eq_false {p : List String} (hp : ∀ name ∈ p, Simple name) (hne : p ≠ [])
    {m : Member} (hm : m.name = Split.join "/" p) : m.isDirectory = false := by
  obtain ⟨outer, name, rfl⟩ := (List.eq_nil_or_concat' p).resolve_left hne
  have hname := hp name (by simp)
  have hjoin : Split.join "/" (outer ++ [name]) = Archives.folder outer ++ name := by
    unfold Archives.folder
    split_ifs with houter
    · simp [houter, Split.join]
    · simp [Split.join, String.intercalate_append_of_ne_nil houter]
  have hlast : name.toList ≠ [] := by simpa using hname.ne_empty
  have hc := List.getLast?_eq_some_getLast hlast
  rw [Member.isDirectory, hm, hjoin, String.toList_append, List.getLast?_append, hc]
  exact hname.free _ (List.getLast_mem hlast)

/-! ## 2. Archives that pack a tree -/

theorem Archive.mem_names {archive : Archive} {n : String} :
    n ∈ archive.names ↔ ∃ m, archive.members.get? n = some m :=
  Table.mem_keys.trans Table.contains_iff

theorem Archive.open?_of_not_mem {archive : Archive} {n : String} (h : n ∉ archive.names) :
    archive.open? n = .error .missingEntry := by
  cases hm : archive.members.get? n with
  | none => simp [open?, hm]
  | some m => exact absurd (mem_names.2 ⟨m, hm⟩) h

/-- The name under which an item of a tree stands in an archive. -/
def Archive.memberName (p : List String) (item : Item) : String :=
  if item.isDirectory then Split.join "/" p ++ "/" else Split.join "/" p

/-- An archive that packs a tree: it holds every file of the tree and a record for every empty
directory, and apart from records for other directories it holds nothing else. -/
structure Archive.Packs (archive : Archive) (root : Item) : Prop where
  files : ∀ {p content modified}, root.at? p = some (.file content modified) →
    ∃ m, archive.members.get? (Split.join "/" p) = some m ∧ m.fault = none ∧
      m.size = content.length ∧ m.content.get = .ok content
  folders : ∀ {p modified}, p ≠ [] → root.at? p = some (.directory [] modified) →
    Split.join "/" p ++ "/" ∈ archive.names
  only : ∀ n ∈ archive.names, ∃ p item, root.at? p = some item ∧ n = Archive.memberName p item

namespace Archive.Packs

open Archives

variable {archive : Archive} {root inner : Item} {p : List String} {n : String}

/-- The components of a member's name are a path of the tree, for a directory with nothing after its
last slash. -/
theorem componentsOf_member (hpacks : archive.Packs root) (hplain : root.Plain)
    (hdir : root.isDirectory = true) (hn : n ∈ archive.names) :
    n = "/" ∨ ∃ q item, q ≠ [] ∧ root.at? q = some item ∧
      componentsOf n = if item.isDirectory then q ++ [""] else q := by
  obtain ⟨q, item, hat, rfl⟩ := hpacks.only n hn
  have hsimple := hplain.simple_path hat
  unfold memberName
  by_cases hq : q = []
  · subst hq
    cases hat
    simp [hdir, Split.join]
  · refine .inr ⟨q, item, hq, hat, ?_⟩
    split_ifs
    · exact componentsOf_record hsimple hq
    · exact FileSystem.componentsOf_join hq fun name hname => (hsimple name hname).slash

/-- Only paths of the tree lead to members. -/
theorem isSome_of_member (hpacks : archive.Packs root) (hplain : root.Plain)
    (hdir : root.isDirectory = true) (hn : n ∈ archive.names) (hblank : "" ∉ p) (hne : p ≠ [])
    {t : List String} (hcomponents : componentsOf n = p ++ t) : (root.at? p).isSome = true := by
  rcases hpacks.componentsOf_member hplain hdir hn with rfl | ⟨q, item, -, hat, hname⟩
  · obtain ⟨name, rest, rfl⟩ := List.exists_cons_of_ne_nil hne
    have hslash : componentsOf "/" = ["", ""] := by decide
    rw [hslash, List.cons_append, List.cons.injEq] at hcomponents
    exact absurd (hcomponents.1 ▸ List.mem_cons_self) hblank
  · have hstarts : p <+: q := by
      have hstarts : p <+: componentsOf n := ⟨t, hcomponents.symm⟩
      rw [hname] at hstarts
      split_ifs at hstarts
      · rcases List.prefix_concat_iff.1 hstarts with rfl | hstarts
        · simp at hblank
        · exact hstarts
      · exact hstarts
    obtain ⟨rest, rfl⟩ := hstarts
    rw [Item.at?_append] at hat
    exact Option.isSome_of_eq_some (Option.bind_eq_some_iff.1 hat).choose_spec.1

/-- A path of the tree leads to a member, that of a directory to one below it. -/
theorem exists_member (hpacks : archive.Packs root) (hplain : root.Plain) (hne : p ≠ [])
    (hat : root.at? p = some inner) :
    ∃ n ∈ archive.names, ∃ t, componentsOf n = p ++ t ∧ (inner.isDirectory = true → t ≠ []) := by
  obtain ⟨q, leaf, hq, hleaf⟩ := inner.exists_leaf (hplain.below hat)
  have hpath : root.at? (p ++ q) = some leaf := by rw [Item.at?_append_some hat, hq]
  have hsimple := hplain.simple_path hpath
  have hne : p ++ q ≠ [] := by simp [hne]
  cases leaf with
  | file content modified =>
    obtain ⟨m, hm, -⟩ := hpacks.files hpath
    refine ⟨_, mem_names.2 ⟨m, hm⟩, q, ?_, ?_⟩
    · exact FileSystem.componentsOf_join hne fun name hname => (hsimple name hname).slash
    · rintro hdir rfl
      cases hq
      cases hdir
  | directory children modified =>
    obtain rfl : children = [] := hleaf
    refine ⟨_, hpacks.folders hne hpath, q ++ [""], ?_, by simp⟩
    rw [componentsOf_record hsimple hne, List.append_assoc]
  | link target => exact hleaf.elim

/-- Names of members are written with forward slashes. -/
theorem slashed_member (hpacks : archive.Packs root) (hplain : root.Plain)
    (hn : n ∈ archive.names) : slashed n = n := by
  obtain ⟨q, item, hat, rfl⟩ := hpacks.only n hn
  have hsimple := hplain.simple_path hat
  have hjoin : '\\' ∉ (Split.join "/" q).toList :=
    Split.not_mem_join (by decide) fun name hname => (hsimple name hname).backslash
  have hbackslash : '\\' ∉ (memberName q item).toList := by
    unfold memberName
    split_ifs <;> simp [hjoin]
  exact slashed_eq_self hbackslash

/-- Only files are members under their own name. -/
theorem file_of_mem_names (hpacks : archive.Packs root) (hplain : root.Plain)
    (hdir : root.isDirectory = true) (hp : ∀ name ∈ p, Simple name) (hne : p ≠ [])
    (hn : Split.join "/" p ∈ archive.names) :
    ∃ content modified, root.at? p = some (.file content modified) := by
  have hblank := empty_not_mem_of_simple hp
  have hcomponents : componentsOf (Split.join "/" p) = p :=
    FileSystem.componentsOf_join hne fun name hname => (hp name hname).slash
  rcases hpacks.componentsOf_member hplain hdir hn with hslash | ⟨q, item, -, hat, hname⟩
  · rw [hslash] at hcomponents
    exact absurd (hcomponents ▸ by decide) hblank
  · rw [hcomponents] at hname
    cases item with
    | file content modified =>
      obtain rfl : p = q := hname
      exact ⟨content, modified, hat⟩
    | directory children modified =>
      obtain rfl : p = q ++ [""] := hname
      simp at hblank
    | link target => exact absurd hat (hplain.unlinked q target)

/-! ## 3. What an archive says about the tree that it packs -/

/-- The top of the tree is the top of the archive. -/
theorem join_eq_empty_iff (hp : ∀ name ∈ p, Simple name) : Split.join "/" p = "" ↔ p = [] := by
  refine ⟨fun hjoin => ?_, fun hnil => by simp [hnil, Split.join]⟩
  by_contra hne
  have hcomponents := FileSystem.componentsOf_join hne fun name hname => (hp name hname).slash
  rw [hjoin] at hcomponents
  exact (hp "" (hcomponents ▸ by decide)).ne_empty rfl

theorem namesBelow_packed (hpacks : archive.Packs root) (hplain : root.Plain)
    (hdir : root.isDirectory = true) (hat : root.at? p = some inner) (x : String) :
    x ∈ namesBelow archive (Split.join "/" p) ↔ x ∈ inner.names := by
  have hp := hplain.simple_path hat
  have hfolder : (if Split.join "/" p = "" then "" else Split.join "/" p ++ "/") = folder p := by
    simp [folder, join_eq_empty_iff hp]
  have hbelow : root.at? (p ++ [x]) = inner.child? x := by
    rw [Item.at?_append_some hat]
    simp [Item.at?]
  simp only [namesBelow, hfolder, KeySet.mem_members, KeySet.ofMembers, KeySet.contains_foldl_add,
    List.mem_filterMap]
  rw [← Item.isSome_child?_iff, ← hbelow]
  constructor
  · rintro (⟨n, hn, hfirst⟩ | hnone)
    · rw [firstBelow?_eq_some_iff hp (hpacks.slashed_member hplain hn)] at hfirst
      obtain ⟨hx, t, ht⟩ := hfirst
      refine hpacks.isSome_of_member hplain hdir hn ?_ (by simp) (t := t) (by simp [ht])
      simp [hx.symm, empty_not_mem_of_simple hp]
    · cases hnone
  · intro hsome
    obtain ⟨child, hchild⟩ := Option.isSome_iff_exists.1 hsome
    have hx := hplain.simple_path hchild x (by simp)
    obtain ⟨n, hn, t, ht, -⟩ := hpacks.exists_member hplain (by simp) hchild
    refine .inl ⟨n, hn, (firstBelow?_eq_some_iff hp (hpacks.slashed_member hplain hn)).2 ?_⟩
    exact ⟨hx.ne_empty, t, by simpa using ht⟩

theorem ne_nil_of_file {content : Bytes} {modified : Moment} (hdir : root.isDirectory = true)
    (hat : root.at? p = some (.file content modified)) : p ≠ [] := by
  rintro rfl
  cases hat
  cases hdir

/-- A file of the tree is a member that can be opened and that is taken for a file. -/
theorem open?_of_file (hpacks : archive.Packs root) (hplain : root.Plain)
    (hdir : root.isDirectory = true) {content : Bytes} {modified : Moment}
    (hat : root.at? p = some (.file content modified)) :
    ∃ m, archive.open? (Split.join "/" p) = .ok m ∧ m.isDirectory = false ∧
      m.size = content.length ∧ m.content.get = .ok content := by
  obtain ⟨m, hm, hfault, hsize, hcontent⟩ := hpacks.files hat
  have hname : m.name = Split.join "/" p := archive.named _ m hm
  have hfile := Member.isDirectory_eq_false (hplain.simple_path hat) (ne_nil_of_file hdir hat) hname
  exact ⟨m, by simp [open?, hm, hfault], hfile, hsize, hcontent⟩

/-- Whether there is a name below a folder. -/
theorem any_prefix_iff (hpacks : archive.Packs root) (hplain : root.Plain)
    (hp : ∀ name ∈ p, Simple name) (hne : p ≠ []) :
    (archive.names.any fun n => (Split.join "/" p ++ "/").toList.isPrefixOf (slashed n).toList) =
      true ↔ ∃ n ∈ archive.names, ∃ t, t ≠ [] ∧ componentsOf n = p ++ t := by
  have hfolder : Split.join "/" p ++ "/" = folder p := by rw [folder, if_neg hne]
  rw [List.any_eq_true]
  refine exists_congr fun n => and_congr_right fun hn => ?_
  rw [hpacks.slashed_member hplain hn, hfolder, List.isPrefixOf_iff_prefix, folder_prefix_iff hp]

theorem classify_of_directory (hpacks : archive.Packs root) (hplain : root.Plain)
    (hdir : root.isDirectory = true) (hat : root.at? p = some inner)
    (hinner : inner.isDirectory = true) :
    ∃ modified, classify archive (Split.join "/" p) = .directory modified := by
  have hp := hplain.simple_path hat
  by_cases hne : p = []
  · exact ⟨none, if_pos ((join_eq_empty_iff hp).2 hne)⟩
  · have hmember : archive.open? (Split.join "/" p) = .error .missingEntry := by
      refine open?_of_not_mem fun hn => ?_
      obtain ⟨content, modified, hfile⟩ := hpacks.file_of_mem_names hplain hdir hp hne hn
      rw [hat] at hfile
      cases hfile
      cases hinner
    obtain ⟨n, hn, t, ht, hbelow⟩ := hpacks.exists_member hplain hne hat
    have hany := (hpacks.any_prefix_iff hplain hp hne).2 ⟨n, hn, t, hbelow hinner, ht⟩
    simp only [classify, join_eq_empty_iff hp, hne, if_false, hmember, hany, if_true]
    split
    · exact ⟨_, rfl⟩
    · exact ⟨_, rfl⟩

/-- **Every item of the tree is classified as what it is.** -/
theorem classify_of_item (hpacks : archive.Packs root) (hplain : root.Plain)
    (hdir : root.isDirectory = true) (hat : root.at? p = some inner) :
    ∃ modified, classify archive (Split.join "/" p) =
      if inner.isDirectory then .directory modified else .file inner.size modified := by
  cases inner with
  | file content modified =>
    have hne := ne_nil_of_file hdir hat
    obtain ⟨m, hopen, hfile, hsize, -⟩ := hpacks.open?_of_file hplain hdir hat
    refine ⟨m.modified, ?_⟩
    simp [classify, join_eq_empty_iff (hplain.simple_path hat), hne, hopen, hfile, hsize,
      Item.isDirectory, Item.size]
  | directory children modified =>
    obtain ⟨modified, hkind⟩ := hpacks.classify_of_directory hplain hdir hat rfl
    exact ⟨modified, hkind⟩
  | link target => exact absurd hat (hplain.unlinked p target)

theorem classify_of_missing (hpacks : archive.Packs root) (hplain : root.Plain)
    (hdir : root.isDirectory = true) (hp : ∀ name ∈ p, Simple name) (hat : root.at? p = none) :
    classify archive (Split.join "/" p) = .missing := by
  have hne : p ≠ [] := by
    rintro rfl
    cases hat
  have hnone : ¬ ∃ n ∈ archive.names, ∃ t, t ≠ [] ∧ componentsOf n = p ++ t := by
    rintro ⟨n, hn, t, -, ht⟩
    have hsome := hpacks.isSome_of_member hplain hdir hn (empty_not_mem_of_simple hp) hne ht
    rw [hat] at hsome
    cases hsome
  have hmember : archive.open? (Split.join "/" p) = .error .missingEntry := by
    refine open?_of_not_mem fun hn => ?_
    obtain ⟨content, modified, hfile⟩ := hpacks.file_of_mem_names hplain hdir hp hne hn
    rw [hat] at hfile
    cases hfile
  have hrecord : archive.open? (Split.join "/" p ++ "/") = .error .missingEntry := by
    refine open?_of_not_mem fun hn => hnone ⟨_, hn, [""], by simp, ?_⟩
    exact componentsOf_record hp hne
  have hany := mt (hpacks.any_prefix_iff hplain hp hne).1 hnone
  simp only [classify, join_eq_empty_iff hp, hne, if_false, hmember, hrecord, hany,
    Bool.false_eq_true]

/-- **An archive packs one tree**: what another tree that it packs has at a path is the same, apart from
moments. -/
theorem exists_at? {a b item : Item} (ha : archive.Packs a) (hb : archive.Packs b) (hplain : a.Plain)
    (hplain' : b.Plain) (hdir : a.isDirectory = true) (hdir' : b.isDirectory = true)
    (hat : a.at? p = some item) :
    ∃ item', b.at? p = some item' ∧ item'.isDirectory = item.isDirectory ∧
      ∀ content modified, item = .file content modified →
        ∃ modified', item' = .file content modified' := by
  obtain ⟨modified, hitem⟩ := ha.classify_of_item hplain hdir hat
  cases hat' : b.at? p with
  | none =>
    rw [hb.classify_of_missing hplain' hdir' (hplain.simple_path hat) hat'] at hitem
    split at hitem <;> cases hitem
  | some item' =>
    obtain ⟨modified', hitem'⟩ := hb.classify_of_item hplain' hdir' hat'
    rw [hitem] at hitem'
    have hsame : item'.isDirectory = item.isDirectory := by
      split at hitem' <;> split at hitem' <;> simp_all
    refine ⟨item', rfl, hsame, ?_⟩
    rintro content moment rfl
    cases item' with
    | directory => cases hsame
    | link target => exact absurd hat' (hplain'.unlinked p target)
    | file content' moment' =>
      obtain ⟨m, hm, -, -, hcontent⟩ := ha.files hat
      obtain ⟨m', hm', -, -, hcontent'⟩ := hb.files hat'
      rw [hm] at hm'
      cases hm'
      rw [hcontent] at hcontent'
      cases hcontent'
      exact ⟨moment', rfl⟩

end Archive.Packs

end FactGraph
