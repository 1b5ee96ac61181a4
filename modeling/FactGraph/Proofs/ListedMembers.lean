import FactGraph.Proofs.Listings
import FactGraph.Proofs.Presence

/-!
# Listed members

An archive is listed by its names as they read with forward slashes, and a member of it is looked up by
the very name under which it is stored.  This module settles when the two views agree: which of the
locations that a listing gives can be found.

* A listed location stands for a stored name or for the folder of one (`Archives.exists_stored`).  A folder
  is found however the names below it are spelled.
* So what is listed and not found is a member with nothing below it, and it is not found for one of two
  reasons: it is stored under a name with a backslash, or it cannot be opened (`Archives.Hides`).

Main statement: `listed_found_iff`.  That a listed location need not be found is `listed_not_found`: a
single member `d\f` is enough.
-/

namespace FactGraph

open FileSystem (Item componentsOf)

namespace Archives

variable {archive : Archive} {p : List String} {t u : Trail} {s x : String}

/-! ## 1. Stored names and places -/

theorem slashed_slashed (s : String) : slashed (slashed s) = slashed s :=
  slashed_eq_self (backslash_not_mem_slashed s)

/-- A stored name lies below a place. -/
def Below (u : Trail) (s : String) : Prop := (folder u.reverse).toList <+: (slashed s).toList

theorem below_iff (hu : u.Plain) :
    Below u s ↔ ∃ rest, rest ≠ [] ∧ componentsOf (slashed s) = u.reverse ++ rest :=
  folder_prefix_iff fun name h => hu name (List.mem_reverse.mp h)

theorem backslash_not_mem_text (hu : u.Plain) : '\\' ∉ u.text.toList :=
  Split.not_mem_join (by decide) fun name h => (hu name (List.mem_reverse.mp h)).backslash

theorem below_nil (s : String) : Below [] s := List.nil_prefix

/-- **What is listed below a place** is what comes next in the stored names, read with forward slashes. -/
theorem mem_namesBelow_iff (ht : t.Plain) :
    x ∈ namesBelow archive t.text ↔
      x ≠ "" ∧ ∃ s ∈ archive.names, ∃ rest, componentsOf (slashed s) = t.reverse ++ x :: rest := by
  have hp : ∀ name ∈ t.reverse, Simple name := fun name h => ht name (List.mem_reverse.mp h)
  have hfolder : (if t.text = "" then "" else t.text ++ "/") = folder t.reverse := by
    simp [folder, Trail.text, Archive.Packs.join_eq_empty_iff hp]
  have hfirst (s : String) : firstBelow? (folder t.reverse) s = some x ↔
      x ≠ "" ∧ ∃ rest, componentsOf (slashed s) = t.reverse ++ x :: rest := by
    rw [← firstBelow?_eq_some_iff hp (slashed_slashed s)]
    simp only [firstBelow?, slashed_slashed]
  simp only [namesBelow, hfolder, KeySet.mem_members, KeySet.ofMembers, KeySet.contains_foldl_add,
    List.mem_filterMap, hfirst]
  constructor
  · rintro (⟨s, hs, hne, hrest⟩ | hnone)
    · exact ⟨hne, s, hs, hrest⟩
    · cases hnone
  · rintro ⟨hne, s, hs, hrest⟩
    exact .inl ⟨s, hs, hne, hrest⟩

/-- **Every listed place has a stored name behind it**, at the place or below it.  The two steps that an
archive can hold for names lead to folders. -/
theorem exists_stored (ht : t.Plain) (hx : x ∈ namesBelow archive t.text) :
    ∃ s ∈ archive.names, Below (t.walk (Step.ofPath x)) s ∨
      slashed s = Trail.text (t.walk (Step.ofPath x)) := by
  obtain ⟨-, s, hs, rest, hrest⟩ := (mem_namesBelow_iff ht).mp hx
  refine ⟨s, hs, ?_⟩
  rcases mem_namesBelow_cases hx with hsimple | rfl | rfl
  · rw [walk_simple t hsimple]
    have hbelow : componentsOf (slashed s) = (x :: t).reverse ++ rest := by simp [hrest]
    by_cases hend : rest = []
    · refine .inr ?_
      rw [← FileSystem.join_componentsOf (slashed s), hbelow, hend, List.append_nil, Trail.text]
    · exact .inl ((below_iff (List.forall_mem_cons.mpr ⟨hsimple, ht⟩)).mpr ⟨rest, hend, hbelow⟩)
  · have hstep : Step.ofPath "." = [.stay] := by decide
    rw [hstep]
    exact .inl ((below_iff ht).mpr ⟨_, by simp, hrest⟩)
  · have hstep : Step.ofPath ".." = [.up] := by decide
    rw [hstep]
    refine .inl ?_
    cases t with
    | nil => exact below_nil s
    | cons name t =>
      have ht' : Trail.Plain t := fun name hname => ht name (List.mem_cons_of_mem _ hname)
      exact (below_iff ht').mpr ⟨name :: ".." :: rest, by simp, by simpa using hrest⟩

/-! ## 2. Places that are found -/

/-- A place other than the top is found if its member can be opened or a name lies below it. -/
theorem shown_iff_stored (hu : u.Plain) (hne : u ≠ []) :
    shown (archive, u.text) = true ↔
      (∃ m, archive.open? u.text = .ok m) ∨ ∃ s ∈ archive.names, Below u s := by
  have hp : ∀ name ∈ u.reverse, Simple name := fun name h => hu name (List.mem_reverse.mp h)
  have htext : u.text ≠ "" := by
    rw [Ne, Trail.text, Archive.Packs.join_eq_empty_iff hp]
    simpa using hne
  have hfolder : u.text ++ "/" = folder u.reverse := by
    rw [folder, if_neg (by simpa using hne), Trail.text]
  have hany : (archive.names.any fun n => (folder u.reverse).toList.isPrefixOf (slashed n).toList) =
      true ↔ ∃ s ∈ archive.names, Below u s := by
    simp [List.any_eq_true, Below]
  unfold shown classify
  simp only [htext, if_false, hfolder]
  cases hmember : archive.open? u.text with
  | ok m =>
    refine iff_of_true ?_ (.inl ⟨m, rfl⟩)
    dsimp only
    split_ifs <;> rfl
  | error fault =>
    cases hrecord : archive.open? (folder u.reverse) with
    | ok m =>
      -- the record of a folder is itself a name that lies below the place
      refine iff_of_true rfl (.inr ⟨_, Archive.mem_names.mpr ⟨m, get?_of_open? hrecord⟩, ?_⟩)
      have hslashes : '\\' ∉ (folder u.reverse).toList := by
        simp [← hfolder, backslash_not_mem_text hu]
      rw [Below, slashed_eq_self hslashes]
    | error fault =>
      rw [← hany]
      dsimp only
      split_ifs with h <;> simp [h]

/-- **An archive hides a place**: some of its names stand for the place and none for anything below it,
but they are written with a backslash or cannot be opened. -/
def Hides (archive : Archive) (u : Trail) : Prop :=
  (∃ s ∈ archive.names, slashed s = u.text) ∧
    ∀ s ∈ archive.names, ¬ Below u s ∧
      (slashed s = u.text → '\\' ∈ s.toList ∨ ∃ fault, archive.open? s = .error fault)

theorem shown_iff_not_hides (hu : u.Plain)
    (hstored : ∃ s ∈ archive.names, Below u s ∨ slashed s = u.text) :
    shown (archive, u.text) = true ↔ ¬ Hides archive u := by
  by_cases hne : u = []
  · subst hne
    refine iff_of_true rfl ?_
    rintro ⟨⟨s, hs, -⟩, hnone⟩
    exact (hnone s hs).1 (below_nil s)
  · rw [shown_iff_stored hu hne]
    have hslashes := backslash_not_mem_text hu
    constructor
    · rintro (⟨m, hm⟩ | ⟨s, hs, hbelow⟩) ⟨-, hnone⟩
      · have hs := Archive.mem_names.mpr ⟨m, get?_of_open? hm⟩
        rcases (hnone _ hs).2 (slashed_eq_self hslashes) with hback | ⟨fault, hfault⟩
        · exact hslashes hback
        · rw [hm] at hfault
          cases hfault
      · exact (hnone s hs).1 hbelow
    · intro hshown
      by_contra hlost
      obtain ⟨s, hs, hbelow | hat⟩ := hstored
      · exact hlost (.inr ⟨s, hs, hbelow⟩)
      · refine hshown ⟨⟨s, hs, hat⟩, fun s' hs' => ⟨fun hbelow => hlost (.inr ⟨s', hs', hbelow⟩), ?_⟩⟩
        intro hat'
        by_cases hback : '\\' ∈ s'.toList
        · exact .inl hback
        · rw [slashed_eq_self hback] at hat'
          cases hmember : archive.open? s' with
          | ok m => exact absurd (.inl ⟨m, hat' ▸ hmember⟩) hlost
          | error fault => exact .inr ⟨fault, rfl⟩

/-- Names with forward slashes whose members can be opened hide nothing. -/
theorem not_hides (h : ∀ s ∈ archive.names, '\\' ∉ s.toList ∧ ∃ m, archive.open? s = .ok m) :
    ¬ Hides archive u := by
  rintro ⟨⟨s, hs, hat⟩, hnone⟩
  obtain ⟨hslashes, m, hm⟩ := h s hs
  rcases (hnone s hs).2 hat with hback | ⟨fault, hfault⟩
  · exact hslashes hback
  · rw [hm] at hfault
    cases hfault

end Archives

/-! ## 3. Listed locations -/

/-- The place of a location in its innermost archive. -/
def Location.innermost (l : Location) : Trail := l.levels.getLast?.getD []

namespace Archives

variable {archive : Archive} {x : String} {fs : FileSystem} {l : Location} {c : Cache}

/-- A location is found: it is there, and it can be described. -/
def Found (fs : FileSystem) (c : Cache) (l : Location) : Prop :=
  ((Access.ofArchives fs).present l c).1 = .ok true ∧
    ∃ d, ((Access.ofArchives fs).describe l c).1 = .ok d

/-- A location is not found: it is not there, and a description says so. -/
def Lost (fs : FileSystem) (c : Cache) (l : Location) : Prop :=
  ((Access.ofArchives fs).present l c).1 = .ok false ∧
    ((Access.ofArchives fs).describe l c).1 = .error (.notFound l.uri)

/-- What has been resolved is found or not as its archive has it. -/
theorem found_or_lost (hl : l.Plain) (hc : c.Sound fs) {found : Archive × String}
    (h : resolved fs l = .ok found) :
    (Found fs c l ↔ shown found = true) ∧ (Lost fs c l ↔ shown found = false) := by
  have hpresent : ((Access.ofArchives fs).present l c).1 = .ok (shown found) :=
    ((answers_present hl).eq hc).trans (presented_of_resolved hl.tidy h)
  have hdescribe : ((Access.ofArchives fs).describe l c).1 = described l found :=
    ((answers_describe hl).eq hc).trans (by rw [h]; rfl)
  simp only [Found, Lost, hpresent, hdescribe, Except.ok.injEq]
  refine ⟨and_iff_left_of_imp shown_iff.mp, and_iff_left_of_imp fun hlost => ?_⟩
  unfold shown at hlost
  unfold described
  split at hlost
  · next hkind => rw [hkind]
  · cases hlost

/-- **A listed location is found exactly if it is not hidden.** -/
theorem found_join_iff (hl : l.Plain) (hc : c.Sound fs) {name : String}
    (h : resolved fs l = .ok (archive, name)) (hx : x ∈ namesBelow archive name) :
    (Found fs c (l.join x) ↔ ¬ Hides archive (l.join x).innermost) ∧
      (Lost fs c (l.join x) ↔ Hides archive (l.join x).innermost) := by
  obtain ⟨path, outer, t, rfl⟩ := eq_of_resolved hl.tidy h
  obtain ⟨rfl, hbytes⟩ := resolved_eq_ok_iff.mp h
  have hplain := hl.join x
  have hstored := exists_stored (hl.entry _ rfl).inner hx
  have hshown := shown_iff_not_hides (hplain.entry _ rfl).inner hstored
  have hinner : (Location.join ⟨Location.archiveScheme, path, some ⟨outer, t⟩⟩ x).innermost =
      t.walk (Step.ofPath x) := by
    simp [Location.innermost, Location.join, Location.levels, Entry.levels]
  obtain ⟨hfound, hlost⟩ := found_or_lost hplain hc (resolved_eq_ok_iff.mpr ⟨rfl, hbytes⟩)
  rw [hinner, hfound, hlost, ← Bool.not_eq_true, hshown, not_not]
  exact ⟨Iff.rfl, Iff.rfl⟩

end Archives

open Archives

/-- **Which listed locations are found.**  For every archive, every place in it and every history of
requests before the listing and before the questions: a listed location is there and can be described
exactly if the archive does not hide it, and is not found otherwise.  So every listed location is found
if all names of the archive are written with forward slashes and all its members can be opened. -/
theorem listed_found_iff (fs : FileSystem) {history later : List Request}
    (hhistory : ∀ q l, Request.ask q l ∈ history → l.Reached)
    (hlater : ∀ q l, Request.ask q l ∈ later → l.Reached) {l : Location} (hl : l.Made)
    {found : List Location}
    (hfound : ((Access.ofArchives fs).children l (kept fs history)).1 = .ok found) :
    ∃ archive name, (resolve fs l).fresh = .ok (archive, name) ∧
      (∀ child ∈ found,
        (Found fs (kept fs later) child ↔ ¬ Hides archive child.innermost) ∧
        (Lost fs (kept fs later) child ↔ Hides archive child.innermost)) ∧
      ((∀ s ∈ archive.names, '\\' ∉ s.toList ∧ ∃ m, archive.open? s = .ok m) →
        ∀ child ∈ found, Found fs (kept fs later) child) := by
  obtain ⟨archive, name, hresolve, rfl⟩ := exists_of_children hfound
  have hplain : l.Plain :=
    hl.tidy.plain (by rw [scheme_of_resolve hresolve]; exact Location.legible_archive)
  have hkept := Cache.sound_kept fs fun q l hmem => (hhistory q l hmem).plain
  have hsound := Cache.sound_kept fs fun q l hmem => (hlater q l hmem).plain
  have hfound : resolved fs l = .ok (archive, name) := by
    rw [← (answers_resolve hplain).eq hkept, hresolve]
  have hchild : ∀ child ∈ (namesBelow archive name).map l.join,
      (Found fs (kept fs later) child ↔ ¬ Hides archive child.innermost) ∧
        (Lost fs (kept fs later) child ↔ Hides archive child.innermost) := by
    intro child hchild
    obtain ⟨x, hx, rfl⟩ := List.mem_map.mp hchild
    exact found_join_iff hplain hsound hfound hx
  refine ⟨archive, name, (answers_resolve hplain).fresh_eq.trans hfound, hchild, ?_⟩
  intro hnames child hmem
  exact (hchild child hmem).1.mpr (not_hides hnames)

/-! ## 4. A name with a backslash -/

/-- An archive file with the one member `d\f`. -/
def backslashBytes : Bytes :=
  [80, 75, 3, 4, 20, 0, 0, 8, 0, 0, 0, 0, 33, 0, 172, 42, 147, 216, 2, 0, 0, 0, 2, 0, 0, 0, 3, 0,
   0, 0, 100, 92, 102, 104, 105, 80, 75, 1, 2, 20, 0, 20, 0, 0, 8, 0, 0, 0, 0, 33, 0, 172, 42, 147,
   216, 2, 0, 0, 0, 2, 0, 0, 0, 3, 0, 0, 0, 0, 0, 0, 0, 0, 0, 0, 0, 0, 0, 0, 0, 0, 0, 100, 92, 102,
   80, 75, 5, 6, 0, 0, 0, 0, 1, 0, 1, 0, 49, 0, 0, 0, 35, 0, 0, 0, 0, 0]

set_option maxRecDepth 100000 in
theorem names_backslashBytes :
    (Zip.openArchive backslashBytes).toOption.map Archive.names = some ["d\\f"] := by
  decide +kernel

/-- A file system with `backslashBytes` in `w.zip`. -/
def backslashShelf : FileSystem where
  root := .directory [("w.zip", .file backslashBytes ⟨0⟩)] ⟨0⟩

/-- A place in `w.zip`. -/
def backslashPlace (t : Trail) : Location := Location.inArchive ⟨.root, ["w.zip"]⟩ t

theorem exists_readFile_backslashShelf :
    ∃ archive, readFile backslashShelf (Path.text ⟨.root, ["w.zip"]⟩) = .ok archive ∧
      archive.names = ["d\\f"] := by
  have hplain : backslashShelf.root.Plain := by
    refine Item.plain_directory _ ?_
    simp only [List.forall_mem_cons, List.not_mem_nil, false_implies, implies_true, and_true]
    exact ⟨by decide, Item.plain_file _ _⟩
  have hitem : backslashShelf.item? (Path.text ⟨.root, ["w.zip"].reverse⟩) =
      .ok (.file backslashBytes ⟨0⟩) :=
    FileSystem.item?_of_at? rfl hplain rfl ⟨by decide +kernel, by decide +kernel, by decide +kernel⟩
  have hnames := names_backslashBytes
  cases hopen : Zip.openArchive backslashBytes with
  | error fault => simp [hopen, Except.toOption] at hnames
  | ok archive =>
    have hunzip : backslashShelf.unzip = Zip.openArchive := rfl
    refine ⟨archive, readFile_of_item? hitem (hunzip ▸ hopen), ?_⟩
    simpa [hopen, Except.toOption] using hnames

/-- The top lists `d`, and `d` lists `f`. -/
theorem children_backslashPlace :
    (children backslashShelf (backslashPlace [])).fresh = .ok [backslashPlace ["d"]] ∧
      (children backslashShelf (backslashPlace ["d"])).fresh = .ok [backslashPlace ["f", "d"]] := by
  obtain ⟨archive, hread, hnames⟩ := exists_readFile_backslashShelf
  have hbelow (t : Trail) (x : String) (hx : Simple x)
      (h : (KeySet.ofMembers (["d\\f"].filterMap (firstBelow?
        (if t.text = "" then "" else t.text ++ "/")))).members = [x]) :
      (children backslashShelf (backslashPlace t)).fresh = .ok [backslashPlace (x :: t)] := by
    rw [backslashPlace, children_of_readFile hread, namesBelow, hnames, h]
    simp [backslashPlace, Location.inArchive, Location.join, walk_simple t hx]
  exact ⟨hbelow [] "d" (by decide) (by decide +kernel), hbelow ["d"] "f" (by decide) (by decide +kernel)⟩

theorem resolve_backslashPlace :
    ∃ archive, archive.names = ["d\\f"] ∧
      ∀ t : Trail, (resolve backslashShelf (backslashPlace t)).fresh = .ok (archive, t.text) := by
  obtain ⟨archive, hread, hnames⟩ := exists_readFile_backslashShelf
  refine ⟨archive, hnames, fun t => ?_⟩
  obtain ⟨c, hrun⟩ := @run_resolve backslashShelf ⟨.root, ["w.zip"]⟩ t archive hread
  rw [backslashPlace, Cached.fresh, hrun]

/-- The archive hides `d/f`, and it does not hide `d`. -/
theorem hides_backslash {archive : Archive} (h : archive.names = ["d\\f"]) :
    Hides archive ["f", "d"] ∧ ¬ Hides archive ["d"] := by
  unfold Hides Below
  rw [h]
  simp only [List.mem_singleton, exists_eq_left, forall_eq]
  refine ⟨⟨by decide, by decide +kernel, fun _ => .inl (by decide)⟩, fun hhides => ?_⟩
  exact absurd hhides.1 (by decide)

/-- The folder that a name with a backslash implies is found, and the member itself is not. -/
theorem listed_found_iff_backslash :
    Found backslashShelf (kept backslashShelf [.ask .children (Location.archive "/w.zip" "")])
        (Location.archive "/w.zip" "d") ∧
      Lost backslashShelf (kept backslashShelf []) (Location.archive "/w.zip" "d/f") := by
  have htop : Location.archive "/w.zip" "" = backslashPlace [] := by decide +kernel
  have hfolder : Location.archive "/w.zip" "d" = backslashPlace ["d"] := by decide +kernel
  have hmember : Location.archive "/w.zip" "d/f" = backslashPlace ["f", "d"] := by decide +kernel
  obtain ⟨archive, hnames, hresolve⟩ := resolve_backslashPlace
  obtain ⟨hhidden, hshown⟩ := hides_backslash hnames
  constructor
  · obtain ⟨_, _, hfound, hchild, -⟩ := @listed_found_iff backslashShelf []
      [.ask .children (Location.archive "/w.zip" "")] (by simp)
      (by
        intro q l hmem
        cases List.mem_singleton.mp hmem
        exact .archive _ _)
      _ (.archive "/w.zip" "") _ (htop ▸ children_backslashPlace.1)
    rw [htop, hresolve] at hfound
    cases hfound
    rw [hfolder]
    exact (hchild _ List.mem_cons_self).1.mpr hshown
  · obtain ⟨_, _, hfound, hchild, -⟩ := @listed_found_iff backslashShelf [] [] (by simp) (by simp)
      _ (.archive "/w.zip" "d") _ (hfolder ▸ children_backslashPlace.2)
    rw [hfolder, hresolve] at hfound
    cases hfound
    rw [hmember]
    exact (hchild _ List.mem_cons_self).2.mpr hhidden

/-- **A listed member is not found**: of `d\f` the folder `d` is listed with `f` in it, which is neither
there nor can be described. -/
theorem listed_not_found :
    Handler.archives.children backslashShelf (Location.archive "/w.zip" "d") =
        .ok [Location.archive "/w.zip" "d/f"] ∧
      Handler.archives.present backslashShelf (Location.archive "/w.zip" "d/f") = .ok false ∧
      Handler.archives.describe backslashShelf (Location.archive "/w.zip" "d/f") =
        .error (.notFound "archive:/w.zip!/d/f") := by
  have hfolder : Location.archive "/w.zip" "d" = backslashPlace ["d"] := by decide +kernel
  have hmember : Location.archive "/w.zip" "d/f" = backslashPlace ["f", "d"] := by decide +kernel
  have huri : "archive:/w.zip!/d/f" = (Location.archive "/w.zip" "d/f").uri := by decide +kernel
  have hplain : (Location.archive "/w.zip" "d/f").Plain := (Location.Reached.archive _ _).plain
  obtain ⟨archive, hnames, hresolve⟩ := resolve_backslashPlace
  have hshown : shown (archive, Trail.text ["f", "d"]) = false := by
    have hstored : ∃ s ∈ archive.names, Below ["f", "d"] s ∨ slashed s = Trail.text ["f", "d"] :=
      ⟨_, hnames ▸ List.mem_cons_self, .inr (by decide)⟩
    rw [← Bool.not_eq_true, shown_iff_not_hides (by unfold Trail.Plain; decide) hstored, not_not]
    exact (hides_backslash hnames).1
  have hresolved : resolved backslashShelf (Location.archive "/w.zip" "d/f") =
      .ok (archive, Trail.text ["f", "d"]) := by
    rw [← (answers_resolve hplain).fresh_eq, hmember, hresolve]
  refine ⟨by rw [hfolder, hmember]; exact children_backslashPlace.2, ?_⟩
  rw [huri]
  exact (found_or_lost hplain (Cache.sound_empty backslashShelf) hresolved).2.mpr hshown

end FactGraph
