import FactGraph.Proofs.Navigation
import FactGraph.Proofs.NestedArchives

/-!
# Presence

Three questions about a location have to fit together: whether something is there, what it is, and what
it holds.  They are answered in three ways.  Presence is refused early if the path of an archive leads
nowhere and overlooks what is not found further in; a description is worked out from the names of an
archive, also for directories that only other names imply; and reading wants the very member.

* In a FILE SYSTEM the three look at one item, and a look-up never ends at a link
  (`FileSystem.item?_ne_link`), the one item that is there and has no description.
* In an ARCHIVE all three start from the same innermost archive and the same name.  If that is found,
  then so was the file (`Archives.contains_of_resolved`), and the early refusal costs nothing.

Main statement: `answers_agree`.
-/

namespace FactGraph

/-! ## 1. Look-ups end at files and directories -/

namespace FileSystem

variable {fs : FileSystem}

/-- No item on the way to a place is a link. -/
def Place.Unlinked (place : Place) : Prop := ∀ step ∈ place, ∀ target, step.2 ≠ .link target

theorem Place.unlinked_nil : Place.Unlinked [] := by simp [Place.Unlinked]

/-- **A walk leaves no link behind.**  A link is replaced by its target before it would be entered. -/
theorem Place.Unlinked.walk {links : Nat} {place place' : Place} {todo : List String}
    (hplace : place.Unlinked) (h : fs.walk links place todo = .ok place') : place'.Unlinked := by
  fun_induction FileSystem.walk fs links place todo with
  | case1 links place =>
    cases h
    exact hplace
  | case3 links place name rest hdir hstay ih => exact ih hplace h
  | case4 links place rest hdir hstay ih =>
    exact ih (fun step hstep => hplace step (List.mem_of_mem_tail hstep)) h
  | case7 links place name rest hdir hstay hup hlong target hlink hlinks start ih =>
    refine ih ?_ h
    unfold start
    split_ifs
    · exact unlinked_nil
    · exact hplace
  | case9 links place name rest hdir hstay hup hlong item hlink hitem ih =>
    exact ih (List.forall_mem_cons.mpr ⟨fun target htarget => hlink target htarget, hplace⟩) h
  | case2 | case5 | case6 | case8 => cases h

/-- Only directories are walked from. -/
theorem isDirectory_root_of_walk {place : Place} {todo : List String} (htodo : todo ≠ [])
    (h : fs.walk 0 [] todo = .ok place) : fs.root.isDirectory = true := by
  obtain ⟨name, rest, rfl⟩ := List.exists_cons_of_ne_nil htodo
  by_contra hroot
  have hstart : (fs.itemAt []).isDirectory = false := Bool.eq_false_iff.mpr hroot
  rw [walk_not_directory hstart] at h
  cases h

/-- **What is found at a path is no link.** -/
theorem item?_ne_link (path target : String) : fs.item? path ≠ .ok (.link target) := by
  have hwalk {todo : List String} (htodo : todo ≠ []) :
      (fs.walk 0 [] todo).map fs.itemAt ≠ .ok (.link target) := by
    intro h
    cases hplace : fs.walk 0 [] todo with
    | error fault =>
      rw [hplace] at h
      cases h
    | ok place =>
      rw [hplace] at h
      have hitem : fs.itemAt place = .link target := Except.ok.inj h
      cases place with
      | nil =>
        have hroot := isDirectory_root_of_walk htodo hplace
        have hlink : fs.root = .link target := hitem
        rw [hlink] at hroot
        cases hroot
      | cons step around =>
        exact Place.unlinked_nil.walk hplace step List.mem_cons_self target hitem
  unfold item? place?
  split_ifs
  case pos => simp [Except.map]
  case pos => simp [Except.map]
  case pos => simp [Except.map]
  case pos => exact hwalk (componentsOf_ne_nil path)
  case neg => exact hwalk (by simp [componentsOf_ne_nil path])

end FileSystem

/-! ## 2. Three answers -/

/-- Three answers about one location fit together: what is there is what can be described, and what can be
read is described as no directory and, if the sizes are true, with as many bytes as are read. -/
structure Agree (sizesTrue : Prop) (present : Result Bool) (description : Result Description)
    (content : Result Bytes) : Prop where
  present_iff : present = .ok true ↔ ∃ d, description = .ok d
  described : ∀ bytes, content = .ok bytes → ∃ d, description = .ok d ∧ d.isDirectory = false ∧
    (sizesTrue → d.size = bytes.length)

/-- Answers that all fail. -/
theorem Agree.of_errors {sizesTrue : Prop} {present : Result Bool} {description : Result Description}
    {content : Result Bytes} (hpresent : present ≠ .ok true) (hdescription : ∀ d, description ≠ .ok d)
    (hcontent : ∀ bytes, content ≠ .ok bytes) : Agree sizesTrue present description content where
  present_iff := iff_of_false hpresent (not_exists.mpr hdescription)
  described bytes hbytes := absurd hbytes (hcontent bytes)

namespace Files

theorem agree (fs : FileSystem) (l : Location) (sizesTrue : Prop) :
    Agree sizesTrue (present fs l) (describe fs l) (stream fs l >>= Stream.readAll) := by
  unfold present describe stream
  cases hpath : pathOf l with
  | error e => exact .of_errors (by rintro ⟨⟩) (by rintro _ ⟨⟩) (by rintro _ ⟨⟩)
  | ok path =>
    have hcontains : fs.contains path = (fs.item? path).isOk := rfl
    simp only [bind, Except.bind, pure, Except.pure, hcontains]
    cases hitem : fs.item? path with
    | error fault =>
      refine .of_errors (by rintro ⟨⟩) ?_ ?_
      · cases fault <;> rintro _ ⟨⟩
      · cases fault <;> rintro _ ⟨⟩
    | ok item =>
      cases item with
      | link target => exact absurd hitem (FileSystem.item?_ne_link path target)
      | file content modified =>
        refine ⟨iff_of_true rfl ⟨_, rfl⟩, ?_⟩
        rintro bytes ⟨⟩
        exact ⟨_, rfl, rfl, fun _ => rfl⟩
      | directory children modified =>
        refine ⟨iff_of_true rfl ⟨_, rfl⟩, ?_⟩
        rintro bytes ⟨⟩

end Files

/-! ## 3. Archives -/

/-- The size that is given for a member is that of its content. -/
def Member.Measured (m : Member) : Prop :=
  ∀ content, m.content.get = .ok content → m.size = content.length

instance (m : Member) : Decidable m.Measured :=
  match h : m.content.get with
  | .ok content => decidable_of_iff (m.size = content.length) (by simp [Member.Measured, h])
  | .error e => isTrue (by simp [Member.Measured, h])

/-- The sizes that an archive gives are those of the contents. -/
def Archive.Measured (a : Archive) : Prop := ∀ m ∈ a.members.values, m.Measured

instance (a : Archive) : Decidable a.Measured :=
  inferInstanceAs (Decidable (∀ m ∈ a.members.values, m.Measured))

theorem Archive.Measured.member {a : Archive} (h : a.Measured) {name : String} {m : Member}
    (hopen : a.open? name = .ok m) : m.Measured := by
  refine h m (List.mem_map.mpr ⟨(name, m), ?_, rfl⟩)
  exact Table.mem_rows.mpr (Archives.get?_of_open? hopen)

namespace Archives

variable {fs : FileSystem} {l : Location}

/-- The sizes are true in the archive in which a location is looked up. -/
def SizesTrue (fs : FileSystem) (l : Location) : Prop :=
  ∀ archive name, (resolve fs l).fresh = .ok (archive, name) → archive.Measured

/-- Only places in archives are resolved. -/
theorem eq_of_resolved (hl : l.Tidy) {found : Archive × String} (h : resolved fs l = .ok found) :
    ∃ path outer inner, l = ⟨Location.archiveScheme, path, some ⟨outer, inner⟩⟩ := by
  have hscheme : l.scheme = Location.archiveScheme := by
    by_contra hscheme
    rw [resolved, if_pos hscheme] at h
    cases h
  obtain ⟨scheme, path, entry⟩ := l
  obtain ⟨⟨outer, inner⟩, rfl⟩ := Option.ne_none_iff_exists'.mp (hl.archive hscheme)
  cases hscheme
  exact ⟨path, outer, inner, rfl⟩

/-- **What is found in archives lies in a file.** -/
theorem contains_of_resolved (hl : l.Tidy) {found : Archive × String}
    (h : resolved fs l = .ok found) : fs.contains l.path.text = true := by
  obtain ⟨path, outer, inner, rfl⟩ := eq_of_resolved hl h
  obtain ⟨-, bytes, hbytes, -⟩ := resolved_eq_ok_iff.mp h
  obtain ⟨first, hfirst, -⟩ := Option.bind_eq_some_iff.mp hbytes
  obtain ⟨modified, hitem⟩ := read?_eq_ok_iff.mp (toOption_eq_some_iff.mp hfirst)
  exact FileSystem.contains_of_item? hitem

theorem presented_of_resolved (hl : l.Tidy) {found : Archive × String}
    (h : resolved fs l = .ok found) : presented fs l = .ok (shown found) := by
  simp only [presented, h, contains_of_resolved hl h, Bool.not_true, Bool.false_eq_true, if_false]

theorem shown_iff {found : Archive × String} :
    shown found = true ↔ ∃ d, described l found = .ok d := by
  unfold shown described
  cases classify found.1 found.2 <;> simp

/-- Something is there exactly if it can be described. -/
theorem presented_iff (hl : l.Tidy) :
    presented fs l = .ok true ↔ ∃ d, (resolved fs l >>= described l) = .ok d := by
  cases hfound : resolved fs l with
  | ok found =>
    rw [presented_of_resolved hl hfound, Except.ok.injEq]
    exact shown_iff
  | error e =>
    refine iff_of_false ?_ ?_
    · simp only [presented, hfound]
      split_ifs <;> simp
    · rintro ⟨d, ⟨⟩⟩

/-- What can be read is a member of the very name that was asked for, and is described by it. -/
theorem described_of_streamed {found : Archive × String} {bytes : Bytes}
    (h : (streamed l found >>= Stream.readAll) = .ok bytes) :
    ∃ d, described l found = .ok d ∧ d.isDirectory = false ∧
      (found.1.Measured → d.size = bytes.length) := by
  obtain ⟨opened, hstream, hread⟩ := bind_eq_ok_iff.mp h
  unfold streamed at hstream
  split_ifs at hstream with hname
  obtain ⟨m, hm, hstream⟩ := bind_eq_ok_iff.mp hstream
  split_ifs at hstream with hdir
  obtain ⟨content, hcontent, hstream⟩ := bind_eq_ok_iff.mp hstream
  cases hstream
  cases hread
  have hopen := openMember_eq_ok_iff.mp hm
  have hkind : classify found.1 found.2 = .file m.size m.modified := by
    rw [classify, if_neg hname, hopen]
    simp [hdir]
  refine ⟨_, by rw [described, hkind], rfl, fun hsizes => ?_⟩
  exact hsizes.member hopen bytes (mapError_eq_ok_iff.mp hcontent)

/-- **The answers of archives fit together**, whatever has been opened before. -/
theorem agree (hl : l.Tidy) {c : Cache} (hc : c.Sound fs) :
    Agree (SizesTrue fs l) ((present fs l).run c).1 ((describe fs l).run c).1
      (((stream fs l).run c).1 >>= Stream.readAll) := by
  by_cases hscheme : l.scheme = Location.archiveScheme
  · have hplain := hl.plain (hscheme ▸ Location.legible_archive)
    rw [(answers_present hplain).eq hc, (answers_describe hplain).eq hc, (answers_stream hplain).eq hc]
    refine ⟨presented_iff hl, fun bytes hbytes => ?_⟩
    cases hfound : resolved fs l with
    | error e =>
      rw [hfound] at hbytes
      cases hbytes
    | ok found =>
      rw [hfound] at hbytes
      obtain ⟨d, hd, hdir, hsize⟩ := described_of_streamed hbytes
      refine ⟨d, hd, hdir, fun hsizes => hsize (hsizes found.1 found.2 ?_)⟩
      rw [(answers_resolve hplain).fresh_eq, hfound]
  · refine .of_errors ?_ ?_ ?_
    · unfold present resolve
      rw [if_pos hscheme]
      split_ifs <;> rintro ⟨⟩
    · unfold describe resolve
      rw [if_pos hscheme]
      rintro d ⟨⟩
    · unfold stream resolve
      rw [if_pos hscheme]
      rintro bytes ⟨⟩

end Archives

/-! ## 4. Resolvers -/

theorem Handler.agree (h : Handler) (fs : FileSystem) {l : Location} (hl : l.Tidy) :
    Agree (Archives.SizesTrue fs l) (h.present fs l) (h.describe fs l)
      (h.stream fs l >>= Stream.readAll) := by
  cases h with
  | files => exact Files.agree fs l _
  | archives => exact Archives.agree hl (Archives.Cache.sound_empty fs)
  | fixed content shutdownError =>
    refine ⟨iff_of_true rfl ⟨_, rfl⟩, ?_⟩
    rintro bytes ⟨⟩
    exact ⟨_, rfl, rfl, fun _ => rfl⟩

namespace Resolver

variable {r : Resolver} {l : Location}

theorem handler_eq_error_iff {e : Error} :
    r.handler l = .error e ↔ r.supports l.scheme = false ∧ e = .unsupportedScheme l.scheme := by
  unfold handler supports Table.contains
  cases r.handlers.get? l.scheme <;> simp [eq_comm]

theorem agree (r : Resolver) (fs : FileSystem) (hl : l.Tidy) :
    Agree (Archives.SizesTrue fs l) (r.present fs l) (r.describe fs l) (r.read fs l) := by
  unfold present describe read stream
  cases r.handler l with
  | error e => exact .of_errors (by rintro ⟨⟩) (by rintro _ ⟨⟩) (by rintro _ ⟨⟩)
  | ok h => exact h.agree fs hl

end Resolver

open Archives

/-- **Presence, description and content agree.**  For every location that can be made, every resolver and
every file system: something is there exactly if it can be described; what can be read is described as no
directory, with as many bytes as are read if the archive that holds it gives true sizes; and of a scheme
that is not served, all three questions fail and name the scheme.  The first two hold of archives, too,
after every history of requests. -/
theorem answers_agree (fs : FileSystem) {l : Location} (hl : l.Made) :
    (∀ r : Resolver,
      Agree (SizesTrue fs l) (r.present fs l) (r.describe fs l) (r.read fs l) ∧
      (r.supports l.scheme = false →
        r.present fs l = .error (.unsupportedScheme l.scheme) ∧
        r.describe fs l = .error (.unsupportedScheme l.scheme) ∧
        r.read fs l = .error (.unsupportedScheme l.scheme))) ∧
    ∀ history : List Request, (∀ q l, Request.ask q l ∈ history → l.Reached) →
      Agree (SizesTrue fs l) ((Access.ofArchives fs).present l (kept fs history)).1
        ((Access.ofArchives fs).describe l (kept fs history)).1
        (((Access.ofArchives fs).stream l (kept fs history)).1 >>= Stream.readAll) := by
  refine ⟨fun r => ⟨r.agree fs hl.tidy, fun hserved => ?_⟩, fun history hhistory => ?_⟩
  · have hhandler := Resolver.handler_eq_error_iff.mpr ⟨hserved, rfl⟩
    unfold Resolver.present Resolver.describe Resolver.read Resolver.stream
    rw [hhandler]
    exact ⟨rfl, rfl, rfl⟩
  · exact Archives.agree hl.tidy (Cache.sound_kept fs fun q l hmem => (hhistory q l hmem).plain)

set_option maxRecDepth 100000 in
theorem measured_innerBytes :
    ∀ archive ∈ (Zip.openArchive innerBytes).toOption, archive.Measured := by
  decide +kernel

/-- A file two archives deep, in whose archive the sizes are true, and the same file asked for of a
resolver that serves nothing. -/
theorem answers_agree_nested :
    (∃ d, Resolver.standard.describe nestedShelf (Location.archive "/n.zip" "a.jar!/é!") = .ok d ∧
      d.isDirectory = false ∧ d.size = 2) ∧
    Resolver.standard.present nestedShelf (Location.archive "/n.zip" "a.jar!/é!") = .ok true ∧
    Resolver.describe {} nestedShelf (Location.archive "/n.zip" "a.jar!/é!") =
      .error (.unsupportedScheme "archive") := by
  have hl : Location.archive "/n.zip" "a.jar!/é!" =
      ⟨Location.archiveScheme, ⟨.root, ["n.zip"]⟩, some ⟨[["a.jar"]], ["é!"]⟩⟩ := by decide +kernel
  have hplain : (Location.archive "/n.zip" "a.jar!/é!").Plain := (Location.Reached.archive _ _).plain
  obtain ⟨hagree, -⟩ := answers_agree nestedShelf (.archive "/n.zip" "a.jar!/é!")
  obtain ⟨⟨hpresent, hdescribed⟩, -⟩ := hagree .standard
  have hread : Resolver.standard.read nestedShelf (Location.archive "/n.zip" "a.jar!/é!") =
      .ok [104, 105] := by
    have hfresh := (@answers_stream nestedShelf _ hplain).fresh_eq
    have hstream : Resolver.standard.stream nestedShelf (Location.archive "/n.zip" "a.jar!/é!") =
        (stream nestedShelf (Location.archive "/n.zip" "a.jar!/é!")).fresh := rfl
    rw [Resolver.read, hstream, hfresh]
    rw [hl] at hplain ⊢
    exact (readAll_streamed_iff (hplain.entry _ rfl).inner (by decide)).mpr contentAt?_nestedShelf
  have hsizes : SizesTrue nestedShelf (Location.archive "/n.zip" "a.jar!/é!") := by
    intro archive name hfound
    rw [(answers_resolve hplain).fresh_eq, hl] at hfound
    obtain ⟨-, bytes, hbytes, hopen⟩ := resolved_eq_ok_iff.mp hfound
    obtain rfl : innerBytes = bytes := Option.some.inj <|
      (contentAt?_concat_of_entry (contentAt?_nil read?_nestedShelf) entryOf?_nestedBytes.1).symm.trans
        hbytes
    have hunzip : nestedShelf.unzip = Zip.openArchive := rfl
    rw [hunzip] at hopen
    exact measured_innerBytes archive (by simp [hopen, Except.toOption])
  obtain ⟨d, hd, hdir, hsize⟩ := hdescribed _ hread
  exact ⟨⟨d, hd, hdir, hsize hsizes⟩, hpresent.mpr ⟨d, hd⟩, ((hagree {}).2 rfl).2.1⟩

end FactGraph
