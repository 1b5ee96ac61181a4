import FactGraph.FileSystem
import FactGraph.Proofs.Paths

/-!
# Looking up a tree

A directory without links in it is a tree: whatever stands below it is found by following names.  This
module says what the file system answers for the paths of such a tree, wherever the tree stands and
however many links lead to it: a path of the tree that can be named leads to what the tree has there,
and a path that the tree does not have leads nowhere.

Main statements: `FileSystem.item?_below`, `FileSystem.contains_below_eq_false`.
-/

namespace FactGraph

namespace FileSystem

/-! ## 1. Trees -/

namespace Item

/-- What stands below an item, following names from the outside in. -/
def at? : Item → List String → Option Item
  | item, [] => some item
  | item, name :: rest => (item.child? name).bind fun inner => inner.at? rest

/-- The number of bytes of a file; nothing else has any. -/
def size : Item → Nat
  | .file content _ => content.length
  | _ => 0

theorem at?_append (item : Item) (p q : List String) :
    item.at? (p ++ q) = (item.at? p).bind fun inner => inner.at? q := by
  induction p generalizing item with
  | nil => rfl
  | cons name rest ih =>
    simp only [List.cons_append, at?]
    cases item.child? name with
    | none => rfl
    | some inner => exact ih inner

theorem at?_append_some {item inner : Item} {p : List String} (h : item.at? p = some inner)
    (q : List String) : item.at? (p ++ q) = inner.at? q := by
  rw [at?_append, h]
  rfl

theorem isSome_child?_iff {item : Item} {name : String} :
    (item.child? name).isSome = true ↔ name ∈ item.names := by
  cases item with
  | directory children modified =>
    simp only [child?, names, List.lookup_isSome_iff, List.mem_map, beq_iff_eq]
    exact ⟨fun ⟨row, hrow, e⟩ => ⟨row, hrow, e.symm⟩, fun ⟨row, hrow, e⟩ => ⟨row, hrow, e.symm⟩⟩
  | file content modified => simp [child?, names]
  | link target => simp [child?, names]

/-- A tree: its names are simple and it holds no links. -/
structure Plain (item : Item) : Prop where
  simple : ∀ p inner, item.at? p = some inner → ∀ name ∈ inner.names, Simple name
  unlinked : ∀ p target, item.at? p ≠ some (.link target)

namespace Plain

variable {item inner : Item} {p : List String}

theorem below (h : item.Plain) (hp : item.at? p = some inner) : inner.Plain where
  simple q innermost hq := h.simple (p ++ q) innermost (by rw [at?_append_some hp, hq])
  unlinked q target hq := h.unlinked (p ++ q) target (by rw [at?_append_some hp, hq])

/-- A path of a tree has simple names. -/
theorem simple_path (h : item.Plain) (hp : item.at? p = some inner) : ∀ name ∈ p, Simple name := by
  induction p generalizing item with
  | nil => simp
  | cons name rest ih =>
    simp only [at?, Option.bind_eq_some_iff] at hp
    obtain ⟨child, hchild, hp⟩ := hp
    have hat : item.at? [name] = some child := by simp [at?, hchild]
    have hname : name ∈ item.names := isSome_child?_iff.1 (by rw [hchild]; rfl)
    exact List.forall_mem_cons.2 ⟨h.simple [] item rfl name hname, ih (h.below hat) hp⟩

end Plain

theorem plain_file (content : Bytes) (modified : Moment) : (file content modified).Plain where
  simple p inner hp := by
    cases p with
    | nil => cases hp; simp [names]
    | cons name rest => cases hp
  unlinked p target hp := by
    cases p with
    | nil => cases hp
    | cons name rest => cases hp

theorem plain_directory {children : List (String × Item)} (modified : Moment)
    (h : ∀ row ∈ children, Simple row.1 ∧ row.2.Plain) : (directory children modified).Plain := by
  have hstep {name : String} {child : Item} (hchild : children.lookup name = some child) :
      child.Plain := by
    obtain ⟨before, after, rfl, -⟩ := List.lookup_eq_some_iff.1 hchild
    exact (h (name, child) (by simp)).2
  constructor
  · intro p inner hp
    cases p with
    | nil =>
      cases hp
      intro name hname
      obtain ⟨row, hrow, rfl⟩ := List.mem_map.1 hname
      exact (h row hrow).1
    | cons name rest =>
      obtain ⟨child, hchild, hp⟩ := Option.bind_eq_some_iff.1 hp
      exact (hstep hchild).simple rest inner hp
  · intro p target hp
    cases p with
    | nil => cases hp
    | cons name rest =>
      obtain ⟨child, hchild, hp⟩ := Option.bind_eq_some_iff.1 hp
      exact (hstep hchild).unlinked rest target hp

/-- A file, or a directory without anything in it. -/
def IsLeaf : Item → Prop
  | .file _ _ => True
  | .directory children _ => children = []
  | .link _ => False

/-- Every directory of a tree is empty or has a leaf below it. -/
theorem exists_leaf : ∀ item : Item, item.Plain → ∃ p leaf, item.at? p = some leaf ∧ leaf.IsLeaf
  | .file content modified, _ => ⟨[], _, rfl, trivial⟩
  | .directory [] modified, _ => ⟨[], _, rfl, rfl⟩
  | .directory ((name, child) :: rest) modified, h => by
    have hchild : at? (.directory ((name, child) :: rest) modified) [name] = some child := by
      simp [at?, child?]
    obtain ⟨p, leaf, hp, hleaf⟩ := exists_leaf child (h.below hchild)
    exact ⟨name :: p, leaf, (at?_append_some hchild p).trans hp, hleaf⟩
  | .link target, h => absurd rfl (h.unlinked [] target)

end Item

/-! ## 2. Walking -/

variable {fs : FileSystem}

@[simp] theorem walk_nil (links : Nat) (place : Place) : fs.walk links place [] = .ok place := by
  rw [walk.eq_def]

/-- A component that stays. -/
theorem walk_stay {links : Nat} {place : Place} {name : String} (hname : name = "" ∨ name = ".")
    (hdir : (fs.itemAt place).isDirectory = true) (rest : List String) :
    fs.walk links place (name :: rest) = fs.walk links place rest := by
  rw [walk.eq_def]
  simp [hdir, hname]

/-- One step down to something that is no link. -/
theorem walk_down {links : Nat} {place : Place} {name : String} {item : Item}
    (hname : Simple name) (hlong : Utf8.length name ≤ 255)
    (hchild : (fs.itemAt place).child? name = some item) (hlink : ∀ target, item ≠ .link target)
    (rest : List String) :
    fs.walk links place (name :: rest) = fs.walk links ((name, item) :: place) rest := by
  have hdir : (fs.itemAt place).isDirectory = true := by
    cases h : fs.itemAt place <;> simp_all [Item.child?, Item.isDirectory]
  rw [walk.eq_def]
  simp only [hdir, Bool.not_true, Bool.false_eq_true, if_false, hname.ne_empty, hname.ne_dot,
    or_self, hname.ne_dots, Nat.not_lt.2 hlong, hchild]

theorem walk_not_directory {links : Nat} {place : Place}
    (h : (fs.itemAt place).isDirectory = false) (name : String) (rest : List String) :
    fs.walk links place (name :: rest) = .error .notDirectory := by
  rw [walk.eq_def]
  simp [h]

/-- Components are walked one after the other; the links that were followed on the way still count
afterwards. -/
theorem walk_append (links : Nat) (place : Place) (todo : List String) :
    ∃ links', ∀ rest, fs.walk links place (todo ++ rest) =
      (fs.walk links place todo).bind fun place' => fs.walk links' place' rest := by
  induction links, place, todo using walk.induct fs with
  | case1 links place =>
    exact ⟨links, fun rest => by rw [walk_nil]; rfl⟩
  | case3 links place name todo hdir hstay ih =>
    obtain ⟨links', hrest⟩ := ih
    have hstep := @walk_stay fs links place name hstay (by simpa using hdir)
    exact ⟨links', fun rest => by rw [List.cons_append, hstep, hstep, hrest]⟩
  | case4 links place todo hdir hstay ih =>
    obtain ⟨links', hrest⟩ := ih
    have hstep (more : List String) :
        fs.walk links place (".." :: more) = fs.walk links place.tail more := by
      rw [walk.eq_def]
      simp [hdir]
    exact ⟨links', fun rest => by rw [List.cons_append, hstep, hstep, hrest]⟩
  | case7 links place name todo hdir hstay hup hlong target hchild hlinks start ih =>
    -- The target of the link stands in front of what is left, before and after.
    obtain ⟨links', hrest⟩ := ih
    have hstep (more : List String) : fs.walk links place (name :: more) =
        fs.walk (links + 1) start (componentsOf target ++ more) := by
      rw [walk.eq_def]
      simp only [hdir, hstay, hup, hlong, hchild, if_false, dif_pos hlinks]
      rfl
    exact ⟨links', fun rest => by
      rw [List.cons_append, hstep, hstep, ← List.append_assoc, hrest]⟩
  | case9 links place name todo hdir hstay hup hlong item hlink hchild ih =>
    obtain ⟨links', hrest⟩ := ih
    have hstep (more : List String) :
        fs.walk links place (name :: more) = fs.walk links ((name, item) :: place) more := by
      rw [walk.eq_def]
      simp only [hdir, hstay, hup, hlong, hchild, if_false, Bool.false_eq_true]
    exact ⟨links', fun rest => by rw [List.cons_append, hstep, hstep, hrest]⟩
  | case2 links place name todo hdir | case5 links place name todo hdir hstay hup hlong
  | case6 links place name todo hdir hstay hup hlong hchild
  | case8 links place name todo hdir hstay hup hlong target hchild hlinks =>
    -- The first component fails, so nothing after it is looked at.
    refine ⟨0, fun rest => ?_⟩
    rw [List.cons_append, walk.eq_def, walk.eq_def fs links place (name :: todo)]
    simp [*, Except.bind]

/-- Components that stay lead nowhere else. -/
theorem walk_stays {links : Nat} {place place' : Place} {stays : List String}
    (hstays : ∀ name ∈ stays, name = "" ∨ name = ".")
    (h : fs.walk links place stays = .ok place') : place' = place := by
  induction stays with
  | nil =>
    rw [walk_nil] at h
    cases h
    rfl
  | cons name rest ih =>
    obtain ⟨hname, hrest⟩ := List.forall_mem_cons.1 hstays
    cases hdir : (fs.itemAt place).isDirectory with
    | false =>
      rw [walk_not_directory hdir] at h
      cases h
    | true =>
      rw [walk_stay hname hdir] at h
      exact ih hrest h

/-- A walk through a tree arrives at what the tree has there. -/
theorem walk_tree {item inner : Item} (h : item.Plain) {p : List String}
    (hp : item.at? p = some inner) (hlong : ∀ name ∈ p, Utf8.length name ≤ 255) (links : Nat)
    {place : Place} (hplace : fs.itemAt place = item) :
    ∃ place', fs.walk links place p = .ok place' ∧ fs.itemAt place' = inner := by
  induction p generalizing item place with
  | nil =>
    cases hp
    exact ⟨place, by rw [walk.eq_def], hplace⟩
  | cons name rest ih =>
    have hname := h.simple_path hp name List.mem_cons_self
    obtain ⟨hshort, hrest⟩ := List.forall_mem_cons.1 hlong
    simp only [Item.at?, Option.bind_eq_some_iff] at hp
    obtain ⟨child, hchild, hp⟩ := hp
    have hat : item.at? [name] = some child := by simp [Item.at?, hchild]
    have hlink : ∀ target, child ≠ .link target := fun target e => h.unlinked [name] target (e ▸ hat)
    rw [walk_down hname hshort (hplace ▸ hchild) hlink]
    exact ih (h.below hat) hp hrest rfl

/-- A walk along simple names that a tree does not have fails. -/
theorem walk_missing {item : Item} (h : item.Plain) {p : List String} (hp : item.at? p = none)
    (hsimple : ∀ name ∈ p, Simple name) (links : Nat) {place : Place}
    (hplace : fs.itemAt place = item) : ∃ fault, fs.walk links place p = .error fault := by
  induction p generalizing item place with
  | nil => cases hp
  | cons name rest ih =>
    subst hplace
    obtain ⟨hname, hrest⟩ := List.forall_mem_cons.1 hsimple
    cases hdir : (fs.itemAt place).isDirectory with
    | false => exact ⟨_, walk_not_directory hdir name rest⟩
    | true =>
      by_cases hlong : Utf8.length name ≤ 255
      · cases hchild : (fs.itemAt place).child? name with
        | none =>
          refine ⟨.notFound, ?_⟩
          rw [walk.eq_def]
          simp [hdir, hname.ne_empty, hname.ne_dot, hname.ne_dots, Nat.not_lt.2 hlong, hchild]
        | some child =>
          have hat : (fs.itemAt place).at? [name] = some child := by simp [Item.at?, hchild]
          have hlink : ∀ target, child ≠ .link target := fun target e =>
            h.unlinked [name] target (e ▸ hat)
          rw [walk_down hname hlong hchild hlink]
          refine ih (h.below hat) ?_ hrest rfl
          simpa [Item.at?, hchild] using hp
      · refine ⟨.nameTooLong, ?_⟩
        rw [walk.eq_def]
        simp [hdir, hname.ne_empty, hname.ne_dot, hname.ne_dots, Nat.not_le.1 hlong]

/-! ## 3. Looking paths up -/

theorem componentsOf_join {names : List String} (hne : names ≠ [])
    (h : ∀ name ∈ names, '/' ∉ name.toList) : componentsOf (Split.join "/" names) = names := by
  refine Split.texts_join (· = '/') '/' (by decide) hne fun name hname c hc => ?_
  have hslash : c ≠ '/' := fun e => h name hname (e ▸ hc)
  simp [hslash]

theorem componentsOf_slash (text : String) :
    componentsOf ("/" ++ text) = "" :: componentsOf text := by
  have h : Split.pieces (· = '/') ("/" ++ text).toList =
      [] :: Split.pieces (· = '/') text.toList := by
    rw [String.toList_append]
    exact @Split.pieces_append_cons (· = '/') [] (by simp) '/' (by decide) text.toList
  rw [componentsOf, Split.texts, h]
  rfl

end FileSystem

namespace Path

/-- The path that names lead to from another, outermost name first. -/
def below (path : Path) (names : List String) : Path := ⟨path.base, names.reverse ++ path.trail⟩

theorem Plain.below {path : Path} (h : path.Plain) {names : List String}
    (hnames : ∀ name ∈ names, Simple name) : (path.below names).Plain := by
  intro name hname
  rcases List.mem_append.1 hname with hname | hname
  · exact hnames name (List.mem_reverse.1 hname)
  · exact h name hname

/-- A path that can be handed to the operating system: there is no NUL in it, and neither the path
nor one of its names is too long. -/
structure Nameable (path : Path) : Prop where
  legible : '\x00' ∉ path.text.toList
  short : Utf8.length path.text < 4096
  names : ∀ name ∈ path.trail, Utf8.length name ≤ 255

theorem isAbsoluteText_text {path : Path} (h : path.Plain) :
    isAbsoluteText path.text = path.isAbsolute := by
  obtain ⟨base, trail⟩ := path
  cases base with
  | root =>
    have htext : (text ⟨.root, trail⟩).toList = '/' :: (Split.join "/" trail.reverse).toList :=
      String.toList_append
    simp [isAbsoluteText, isAbsolute, htext]
  | above ups =>
    by_cases hne : components ⟨.above ups, trail⟩ = []
    · simp [isAbsoluteText, isAbsolute, text, hne]
    · obtain ⟨c, rest, hc, hsep⟩ := exists_toList_join hne h.free
      have hslash : c ≠ '/' := by
        rintro rfl
        exact absurd hsep (by decide)
      simp [isAbsoluteText, isAbsolute, text_above hne, hc, hslash]

/-- The components of a path's text continue those of the paths above it, up to components that
stay. -/
theorem componentsOf_below {path : Path} (h : path.Plain) :
    ∃ lead stays, (∀ name ∈ stays, name = "" ∨ name = ".") ∧
      FileSystem.componentsOf path.text = lead ++ stays ∧
      ∀ names, names ≠ [] → (∀ name ∈ names, Simple name) →
        FileSystem.componentsOf (path.below names).text = lead ++ names := by
  have hcut (path : Path) (h : path.Plain) (hne : path.components ≠ []) :
      FileSystem.componentsOf (Split.join "/" path.components) = path.components :=
    FileSystem.componentsOf_join hne fun name hname hslash =>
      absurd ((h.free name hname).2 '/' hslash) (by decide)
  have hbelow (names : List String) : (path.below names).components = path.components ++ names := by
    obtain ⟨base, trail⟩ := path
    cases base <;> simp [below, components]
  have hne (names : List String) (hn : names ≠ []) : (path.below names).components ≠ [] := by
    simp [hbelow, hn]
  obtain ⟨base, trail⟩ := path
  cases base with
  | root =>
    have hroot (names : List String) (hn : names ≠ []) (hs : ∀ name ∈ names, Simple name) :
        FileSystem.componentsOf (text (below ⟨.root, trail⟩ names)) =
          "" :: (trail.reverse ++ names) := by
      exact (FileSystem.componentsOf_slash _).trans
        (by rw [hcut _ (h.below hs) (hne names hn), hbelow]; rfl)
    by_cases ht : trail = []
    · subst ht
      exact ⟨[""], [""], by simp, by decide, fun names hn hs => hroot names hn hs⟩
    · refine ⟨"" :: trail.reverse, [], by simp, ?_, fun names hn hs => hroot names hn hs⟩
      rw [List.append_nil]
      exact (FileSystem.componentsOf_slash _).trans
        (congrArg _ (hcut ⟨.root, trail⟩ h (by simpa [components] using ht)))
  | above ups =>
    have habove (names : List String) (hn : names ≠ []) (hs : ∀ name ∈ names, Simple name) :
        FileSystem.componentsOf (text (below ⟨.above ups, trail⟩ names)) =
          components ⟨.above ups, trail⟩ ++ names := by
      rw [below, text_above (hne names hn)]
      exact (hcut _ (h.below hs) (hne names hn)).trans (hbelow names)
    by_cases ht : components ⟨.above ups, trail⟩ = []
    · refine ⟨[], ["."], by simp, ?_, fun names hn hs => by rw [habove names hn hs, ht]⟩
      have htext : text ⟨.above ups, trail⟩ = "." := by simp [text, ht]
      rw [htext]
      decide
    · refine ⟨components ⟨.above ups, trail⟩, [], by simp, ?_, habove⟩
      rw [List.append_nil, text_above ht]
      exact hcut _ h ht

end Path

namespace FileSystem

variable {fs : FileSystem} {root inner : Item} {path : Path} {names : List String}

/-- Where a path is looked up from. -/
def origin (fs : FileSystem) (path : Path) : List String := if path.isAbsolute then [] else fs.current

/-- A path is looked up from the root or from the current directory, unless it cannot be named. -/
theorem place?_text (h : path.Plain) :
    fs.place? path.text = fs.walk 0 [] (fs.origin path ++ componentsOf path.text) ∨
      ¬ path.Nameable ∧ ∃ fault, fs.place? path.text = .error fault := by
  unfold place?
  split_ifs with hnul hempty hlong habs
  · refine .inr ⟨fun hn => ?_, _, rfl⟩
    obtain ⟨c, hc, hzero⟩ := List.any_eq_true.1 hnul
    obtain rfl : c = '\x00' := Char.toNat_inj.1 (by simpa using hzero)
    exact hn.legible hc
  · exact absurd hempty (Path.text_ne_empty h)
  · exact .inr ⟨fun hn => Nat.not_lt.2 hlong hn.short, _, rfl⟩
  · rw [Path.isAbsoluteText_text h] at habs
    simp [origin, habs]
  · rw [Path.isAbsoluteText_text h] at habs
    simp [origin, habs]

theorem item?_of_long {text : String} (hlegible : '\x00' ∉ text.toList)
    (hlong : 4096 ≤ Utf8.length text) : fs.item? text = .error .nameTooLong := by
  have hnul : text.toList.any (·.toNat = 0) = false := by
    refine List.any_eq_false.2 fun c hc hzero => hlegible ?_
    obtain rfl : c = '\x00' := Char.toNat_inj.1 (by simpa using hzero)
    exact hc
  have hempty : text ≠ "" := by
    rintro rfl
    exact absurd hlong (by decide)
  simp [item?, place?, hnul, hempty, hlong, Except.map]

/-- Looking a longer path up goes on where the shorter one led. -/
theorem place?_below {place : Place} (hpath : path.Plain) (hplace : fs.place? path.text = .ok place)
    (hsimple : ∀ name ∈ names, Simple name) (hne : names ≠ []) :
    (∃ links, fs.place? (path.below names).text = fs.walk links place names) ∨
      ¬ (path.below names).Nameable ∧ ∃ fault, fs.place? (path.below names).text = .error fault := by
  obtain ⟨lead, stays, hstays, hcomponents, hmore⟩ := Path.componentsOf_below hpath
  refine (place?_text (hpath.below hsimple)).imp_left fun hlonger => ?_
  rcases @place?_text fs path hpath with hshort | ⟨-, fault, hfault⟩
  · obtain ⟨links, hlead⟩ := fs.walk_append 0 [] (fs.origin path ++ lead)
    rw [hplace, hcomponents, ← List.append_assoc, hlead] at hshort
    cases hwalk : fs.walk 0 [] (fs.origin path ++ lead) with
    | error fault =>
      rw [hwalk] at hshort
      cases hshort
    | ok around =>
      rw [hwalk] at hshort
      have hsame : place = around := walk_stays hstays hshort.symm
      refine ⟨links, hlonger.trans ?_⟩
      rw [hmore names hne hsimple, ← List.append_assoc]
      exact (hlead names).trans (by rw [hwalk, hsame]; rfl)
  · rw [hplace] at hfault
    cases hfault

theorem exists_place?_of_item? {text : String} (h : fs.item? text = .ok root) :
    ∃ place, fs.place? text = .ok place ∧ fs.itemAt place = root := by
  unfold item? at h
  cases hplace : fs.place? text with
  | error fault =>
    rw [hplace] at h
    cases h
  | ok place =>
    rw [hplace] at h
    cases h
    exact ⟨place, rfl, rfl⟩

/-- A path of a tree that can be named leads to what the tree has there. -/
theorem item?_below (hpath : path.Plain) (hroot : fs.item? path.text = .ok root)
    (hplain : root.Plain) (hat : root.at? names = some inner) (hname : (path.below names).Nameable) :
    fs.item? (path.below names).text = .ok inner := by
  by_cases hne : names = []
  · subst hne
    cases hat
    exact hroot
  · obtain ⟨place, hplace, rfl⟩ := exists_place?_of_item? hroot
    rcases place?_below hpath hplace (hplain.simple_path hat) hne with ⟨links, hwalk⟩ | ⟨hno, -⟩
    · have hshort : ∀ name ∈ names, Utf8.length name ≤ 255 := fun name h =>
        hname.names name (List.mem_append_left _ (List.mem_reverse.2 h))
      obtain ⟨place', hplace', hinner⟩ := walk_tree hplain hat hshort links rfl
      rw [item?, hwalk, hplace']
      exact congrArg _ hinner
    · exact absurd hname hno

/-- Simple names that a tree does not have lead nowhere. -/
theorem contains_below_eq_false (hpath : path.Plain) (hroot : fs.item? path.text = .ok root)
    (hplain : root.Plain) (hsimple : ∀ name ∈ names, Simple name) (hat : root.at? names = none) :
    fs.contains (path.below names).text = false := by
  have hne : names ≠ [] := by
    rintro rfl
    cases hat
  have herror : ∃ fault, fs.place? (path.below names).text = .error fault := by
    obtain ⟨place, hplace, rfl⟩ := exists_place?_of_item? hroot
    rcases place?_below hpath hplace hsimple hne with ⟨links, hwalk⟩ | ⟨-, hfault⟩
    · rw [hwalk]
      exact walk_missing hplain hat hsimple links rfl
    · exact hfault
  obtain ⟨fault, hfault⟩ := herror
  rw [contains, item?, hfault]
  rfl

theorem item?_root (h : fs.root.isDirectory = true) :
    fs.item? (Path.text ⟨.root, []⟩) = .ok fs.root := by
  have hplace : fs.place? (Path.text ⟨.root, []⟩) = .ok [] := by
    show fs.walk 0 [] ["", ""] = _
    have hstay := @walk_stay fs 0 [] "" (.inl rfl) h
    rw [hstay, hstay, walk_nil]
  rw [item?, hplace]
  rfl

/-- In a file system without links, a path from the root leads where its names lead. -/
theorem item?_of_at? (hdir : fs.root.isDirectory = true) (hplain : fs.root.Plain)
    (hat : fs.root.at? names = some inner) (hname : Path.Nameable ⟨.root, names.reverse⟩) :
    fs.item? (Path.text ⟨.root, names.reverse⟩) = .ok inner := by
  have hbelow : Path.below ⟨.root, []⟩ names = ⟨.root, names.reverse⟩ := by simp [Path.below]
  rw [← hbelow] at hname ⊢
  exact item?_below (by simp [Path.Plain, Trail.Plain]) (item?_root hdir) hplain hat hname

end FileSystem

end FactGraph
