import FactGraph.Proofs.StorageForms
import FactGraph.Resource.Walk

/-!
# Archives inside archives

Content that lies `n` archives deep is found level by level: the file gives the first bytes, and each
level takes the next bytes out of the archive that the bytes before it are.  What has been opened on
the way is kept, and later questions find it there.  This module shows that what is kept is never seen:
an answer depends on the file system and on the location alone.

* **One level after the other.**  `contentAt?` says what a chain of names leads to, and says it of
  bytes.  Without anything kept, a location is resolved as the chain says (`resolved_eq_ok_iff`).
* **What is kept is true.**  Bytes are kept under a URI and the URI says everything about a location,
  so what is found under a URI was put there for the very chain that is asked for (`Cache.Sound`).
  Every computation answers what it answers with nothing kept and leaves only true things behind
  (`Answers`), and so does every history of questions (`Cache.sound_kept`).

Main statement: `nested_reads_compose`.
-/

namespace FactGraph

namespace Archives

/-! ## 1. Chains of names -/

/-- The content of an entry of an archive that is given by its bytes. -/
def entryOf? (fs : FileSystem) (bytes : Bytes) (name : String) : Option Bytes := do
  let archive ← (fs.unzip bytes).toOption
  let m ← (archive.open? name).toOption
  m.content.get.toOption

/-- What a chain of names leads to: the bytes of the file, then the content of one entry of an archive
after the other. -/
def contentAt? (fs : FileSystem) (path : String) (names : List String) : Option Bytes := do
  names.foldlM (entryOf? fs) (← (fs.read? path).toOption)

theorem contentAt?_concat (fs : FileSystem) (path : String) (names : List String) (name : String) :
    contentAt? fs path (names ++ [name]) = (contentAt? fs path names).bind (entryOf? fs · name) := by
  cases hread : (fs.read? path).toOption with
  | none => simp [contentAt?, hread]
  | some bytes => simp [contentAt?, hread]

theorem contentAt?_concat_of_entry {fs : FileSystem} {path : String} {names : List String} {name : String}
    {bytes content : Bytes} (hbytes : contentAt? fs path names = some bytes)
    (hentry : entryOf? fs bytes name = some content) :
    contentAt? fs path (names ++ [name]) = some content := by
  rw [contentAt?_concat, hbytes]
  exact hentry

theorem contentAt?_nil {fs : FileSystem} {path : String} {bytes : Bytes}
    (h : fs.read? path = .ok bytes) : contentAt? fs path [] = some bytes := by
  rw [contentAt?, h]
  rfl

theorem toOption_eq_some_iff {ε α : Type} {x : Except ε α} {a : α} :
    x.toOption = some a ↔ x = .ok a := by
  cases x <;> simp [Except.toOption]

theorem entryOf?_eq_some_iff {fs : FileSystem} {bytes content : Bytes} {name : String} :
    entryOf? fs bytes name = some content ↔ ∃ archive m, fs.unzip bytes = .ok archive ∧
      archive.open? name = .ok m ∧ m.content.get = .ok content := by
  simp [entryOf?, Option.bind_eq_some_iff, toOption_eq_some_iff]

/-! ## 2. Resolving with nothing kept -/

/-- The bytes of an archive that is being entered. -/
def Source.content? (fs : FileSystem) : Source → Option Bytes
  | .file path => (fs.read? path).toOption
  | .entry _ content => some content

/-- The archive of a source. -/
def Source.opened (fs : FileSystem) : Source → Result Archive
  | .file path => readFile fs path
  | .entry _ content => (fs.unzip content).mapError .archive

/-- The inner archive that is an entry of a source. -/
def entered (fs : FileSystem) (source : Source) (level : Trail) (l : Location) : Result Source := do
  let archive ← source.opened fs
  let m ← openMember archive level.text l
  let content ← contentOf m
  return .entry l.uri content

/-- The innermost archive of a location, and the name of the resource in it. -/
def resolved (fs : FileSystem) (l : Location) : Result (Archive × String) := do
  if l.scheme ≠ Location.archiveScheme then
    throw (.unsupportedScheme s!"{l.scheme} (archive resolver cannot read {l.uri})")
  let source ← l.levels.dropLast.zipIdx.foldlM (fun source (level, depth) =>
    entered fs source level (l.outermost (depth + 1))) (Source.file l.path.text)
  let archive ← source.opened fs
  return (archive, Trail.text (l.levels.getLast?.getD []))

variable {fs : FileSystem} {source : Source} {archive : Archive} {level : Trail} {l : Location}

theorem mapError_eq_ok_iff {ε ε' α : Type} {f : ε → ε'} {x : Except ε α} {a : α} :
    x.mapError f = .ok a ↔ x = .ok a := by
  cases x <;> simp [Except.mapError]

theorem bind_eq_ok_iff {ε α β : Type} {x : Except ε α} {f : α → Except ε β} {b : β} :
    x >>= f = .ok b ↔ ∃ a, x = .ok a ∧ f a = .ok b := by
  cases x <;> simp [bind, Except.bind]

theorem openMember_eq_ok_iff {name : String} {m : Member} :
    openMember archive name l = .ok m ↔ archive.open? name = .ok m := by
  unfold openMember
  split <;> simp [*]

theorem read?_eq_ok_iff {path : String} {bytes : Bytes} :
    fs.read? path = .ok bytes ↔ ∃ modified, fs.item? path = .ok (.file bytes modified) := by
  unfold FileSystem.read?
  rw [bind_eq_ok_iff]
  constructor
  · rintro ⟨item, hitem, hread⟩
    cases item with
    | file content modified =>
      cases hread
      exact ⟨modified, hitem⟩
    | directory children modified => cases hread
    | link target => cases hread
  · rintro ⟨modified, hitem⟩
    exact ⟨_, hitem, rfl⟩

theorem readFile_eq_ok_iff {path : String} :
    readFile fs path = .ok archive ↔
      ∃ bytes, fs.read? path = .ok bytes ∧ fs.unzip bytes = .ok archive := by
  simp only [read?_eq_ok_iff]
  unfold readFile
  split
  · simp [*]
  · simp [*, mapError_eq_ok_iff]
  · next item hfile hitem =>
    simp only [hitem, reduceCtorEq, Except.ok.injEq, false_iff]
    rintro ⟨bytes, ⟨modified, rfl⟩, -⟩
    exact hfile bytes modified rfl

theorem opened_eq_ok_iff :
    source.opened fs = .ok archive ↔
      ∃ bytes, source.content? fs = some bytes ∧ fs.unzip bytes = .ok archive := by
  cases source with
  | file path => simp [Source.opened, Source.content?, toOption_eq_some_iff, readFile_eq_ok_iff]
  | entry uri content => simp [Source.opened, Source.content?, mapError_eq_ok_iff]

/-- An entry is entered exactly if the chain goes on with it. -/
theorem entered_eq_ok_iff {inner : Source} :
    entered fs source level l = .ok inner ↔ ∃ content,
      (source.content? fs).bind (entryOf? fs · level.text) = some content ∧
        inner = .entry l.uri content := by
  simp only [entered, bind_eq_ok_iff, opened_eq_ok_iff, openMember_eq_ok_iff, contentOf,
    mapError_eq_ok_iff, Option.bind_eq_some_iff, entryOf?_eq_some_iff]
  constructor
  · rintro ⟨archive, ⟨bytes, hbytes, harchive⟩, m, hm, content, hcontent, hinner⟩
    exact ⟨content, ⟨bytes, hbytes, archive, m, harchive, hm, hcontent⟩, (Except.ok.inj hinner).symm⟩
  · rintro ⟨content, ⟨bytes, hbytes, archive, m, harchive, hm, hcontent⟩, rfl⟩
    exact ⟨archive, ⟨bytes, hbytes, harchive⟩, m, hm, content, hcontent, rfl⟩

/-- **Entering one level after the other goes along the chain.** -/
theorem foldlM_entered_iff (l : Location) (levels : List Trail) (depth : Nat) (source : Source)
    (content : Bytes) :
    (∃ inner, (levels.zipIdx depth).foldlM (fun source (level, depth) =>
        entered fs source level (l.outermost (depth + 1))) source = .ok inner ∧
        inner.content? fs = some content) ↔
      (source.content? fs).bind ((levels.map Trail.text).foldlM (entryOf? fs) ·) = some content := by
  induction levels generalizing depth source with
  | nil => simp [pure, Except.pure]
  | cons level rest ih =>
    rw [List.zipIdx_cons, List.map_cons]
    simp only [List.foldlM_cons, bind_eq_ok_iff, entered_eq_ok_iff]
    constructor
    · rintro ⟨inner, ⟨_, ⟨next, hnext, rfl⟩, hfold⟩, hinner⟩
      have hrest := (ih (depth + 1) _).1 ⟨inner, hfold, hinner⟩
      obtain ⟨bytes, hbytes, hentry⟩ := Option.bind_eq_some_iff.1 hnext
      rw [hbytes, Option.bind_some, hentry]
      exact hrest
    · intro h
      obtain ⟨bytes, hbytes, h⟩ := Option.bind_eq_some_iff.1 h
      obtain ⟨next, hentry, hrest⟩ := Option.bind_eq_some_iff.1 h
      obtain ⟨inner, hfold, hinner⟩ := (ih (depth + 1) (.entry _ next)).2 hrest
      exact ⟨inner, ⟨_, ⟨next, by rw [hbytes, Option.bind_some, hentry], rfl⟩, hfold⟩, hinner⟩

/-- **A place in an archive is looked up in the archive that the chain of its outer levels leads
to.** -/
theorem resolved_eq_ok_iff {path : Path} {outer : List Trail} {inner : Trail} {name : String} :
    resolved fs ⟨Location.archiveScheme, path, some ⟨outer, inner⟩⟩ = .ok (archive, name) ↔
      name = inner.text ∧ ∃ bytes, contentAt? fs path.text (outer.map Trail.text) = some bytes ∧
        fs.unzip bytes = .ok archive := by
  have hlevels : Location.levels ⟨Location.archiveScheme, path, some ⟨outer, inner⟩⟩ =
      outer ++ [inner] := rfl
  have hfold := @foldlM_entered_iff fs ⟨Location.archiveScheme, path, some ⟨outer, inner⟩⟩ outer 0
    (.file path.text)
  simp only [resolved, hlevels, List.dropLast_concat, List.getLast?_concat, Option.getD_some, ne_eq,
    not_true_eq_false, if_false, bind_eq_ok_iff, opened_eq_ok_iff]
  constructor
  · rintro ⟨source, hsource, _, ⟨bytes, hbytes, hopen⟩, hpair⟩
    cases hpair
    exact ⟨rfl, bytes, (hfold bytes).1 ⟨source, hsource, hbytes⟩, hopen⟩
  · rintro ⟨rfl, bytes, hbytes, hopen⟩
    obtain ⟨source, hsource, hcontent⟩ := (hfold bytes).2 hbytes
    exact ⟨source, hsource, archive, ⟨bytes, hcontent, hopen⟩, rfl⟩

/-! ## 3. What is kept -/

/-- The bytes that a location stands for. -/
def standsFor? (fs : FileSystem) (l : Location) : Option Bytes :=
  contentAt? fs l.path.text (l.levels.map Trail.text)

/-- What is kept is what would be found without it. -/
structure Cache.Sound (fs : FileSystem) (c : Cache) : Prop where
  files : ∀ path archive, c.files.get? path = some archive → readFile fs path = .ok archive
  taken : ∀ l : Location, l.Plain → ∀ content, c.taken.get? l.uri = some content →
    standsFor? fs l = some content
  inner : ∀ l : Location, l.Plain → ∀ archive, c.inner.get? l.uri = some archive →
    ∃ content, standsFor? fs l = some content ∧ fs.unzip content = .ok archive

theorem Cache.sound_empty (fs : FileSystem) : Cache.Sound fs {} where
  files := by rintro _ _ ⟨⟩
  taken := by rintro _ _ _ ⟨⟩
  inner := by rintro _ _ _ ⟨⟩

/-- A URI stands for one location. -/
theorem eq_of_uri_eq {l l' : Location} (h : l.Plain) (h' : l'.Plain) (huri : l.uri = l'.uri) :
    l = l' := by
  have hparse := Location.parse_uri h
  rw [huri, Location.parse_uri h'] at hparse
  exact (Except.ok.inj hparse).symm

/-- What is found after an insertion was inserted or was there before. -/
theorem of_get?_insert {α : Type} {t : Table String α} {k k' : String} {a b : α}
    (h : (t.insert k a).get? k' = some b) : (k = k' ∧ a = b) ∨ t.get? k' = some b := by
  by_cases hk : k = k'
  · subst hk
    rw [Table.get?_insert_self] at h
    exact .inl ⟨rfl, Option.some.inj h⟩
  · rw [Table.get?_insert_of_ne _ _ (Ne.symm hk)] at h
    exact .inr h

section Insert

variable {c : Cache}

theorem Cache.Sound.insertFile (hc : c.Sound fs) {path : String}
    (h : readFile fs path = .ok archive) :
    Cache.Sound fs { c with files := c.files.insert path archive } where
  files := by
    intro path' archive' hget
    rcases of_get?_insert hget with ⟨rfl, rfl⟩ | hget
    · exact h
    · exact hc.files path' archive' hget
  taken := hc.taken
  inner := hc.inner

theorem Cache.Sound.insertTaken (hc : c.Sound fs) (hl : l.Plain) {content : Bytes}
    (h : standsFor? fs l = some content) :
    Cache.Sound fs { c with taken := c.taken.insert l.uri content } where
  files := hc.files
  taken := by
    intro l' hl' content' hget
    rcases of_get?_insert hget with ⟨huri, rfl⟩ | hget
    · exact eq_of_uri_eq hl hl' huri ▸ h
    · exact hc.taken l' hl' content' hget
  inner := hc.inner

theorem Cache.Sound.insertInner (hc : c.Sound fs) (hl : l.Plain) {content : Bytes}
    (h : standsFor? fs l = some content) (hopen : fs.unzip content = .ok archive) :
    Cache.Sound fs { c with inner := c.inner.insert l.uri archive } where
  files := hc.files
  taken := hc.taken
  inner := by
    intro l' hl' archive' hget
    rcases of_get?_insert hget with ⟨huri, rfl⟩ | hget
    · exact ⟨content, eq_of_uri_eq hl hl' huri ▸ h, hopen⟩
    · exact hc.inner l' hl' archive' hget

end Insert

/-! ## 4. Answers that do not depend on what is kept -/

section Answers

variable {α β : Type} {x : Cached α} {f : α → Cached β} {r : Result α} {g : α → Result β}

/-- A computation that answers `r` whatever true things are kept, and keeps only true things. -/
def Answers (fs : FileSystem) (x : Cached α) (r : Result α) : Prop :=
  ∀ c, c.Sound fs → ∃ c', x.run c = (r, c') ∧ c'.Sound fs

theorem Answers.fresh_eq (h : Answers fs x r) : x.fresh = r := by
  obtain ⟨c', hrun, -⟩ := h {} (Cache.sound_empty fs)
  rw [Cached.fresh, hrun]

theorem answers_ofResult (fs : FileSystem) (r : Result α) : Answers fs (Cached.ofResult r) r := by
  intro c hc
  refine ⟨c, ?_, hc⟩
  cases r <;> rfl

theorem Answers.bind (hx : Answers fs x r) (hf : ∀ a, r = .ok a → Answers fs (f a) (g a)) :
    Answers fs (x >>= f) (r >>= g) := by
  intro c hc
  obtain ⟨c', hrun, hc'⟩ := hx c hc
  cases r with
  | error e =>
    refine ⟨c', ?_, hc'⟩
    have hbind : (x >>= f).run c = ExceptT.bindCont f (x.run c).1 (x.run c).2 := rfl
    rw [hbind, hrun]
    rfl
  | ok a =>
    obtain ⟨c'', hrun', hc''⟩ := hf a rfl c' hc'
    exact ⟨c'', (Cached.run_bind hrun).trans hrun', hc''⟩

theorem Answers.of_eq {r' : Result α} (h : Answers fs x r) (hr : r = r') : Answers fs x r' := hr ▸ h

theorem answers_pure (fs : FileSystem) (a : α) : Answers fs (pure a) (.ok a) :=
  answers_ofResult fs (.ok a)

/-- Keep something that is true. -/
theorem answers_keep {change : Cache → Cache} (h : ∀ c, c.Sound fs → (change c).Sound fs) (a : α) :
    Answers fs (do modify change; return a) (.ok a) :=
  fun c hc => ⟨change c, rfl, h c hc⟩

/-- What has been kept can be asked for. -/
theorem Cached.run_get_bind (f : Cache → Cached α) (c : Cache) : (get >>= f).run c = (f c).run c := rfl

end Answers

/-- What is said of a source: if it is an entry, then its URI is that of a location which stands for its
bytes. -/
def Source.Genuine (fs : FileSystem) : Source → Prop
  | .file _ => True
  | .entry uri content => ∃ l : Location, l.Plain ∧ l.uri = uri ∧ standsFor? fs l = some content

theorem answers_openSource (h : source.Genuine fs) :
    Answers fs (openSource fs source) (source.opened fs) := by
  cases source with
  | file path =>
    have hread : Answers fs (do
        let archive ← Cached.ofResult (readFile fs path)
        modify fun c => { c with files := c.files.insert path archive }
        return archive) (readFile fs path) := by
      refine ((answers_ofResult fs _).bind (g := pure) fun archive hread => ?_).of_eq (bind_pure _)
      exact answers_keep (fun c hc => hc.insertFile hread) archive
    intro c hc
    rw [openSource, Cached.run_get_bind]
    cases hget : c.files.get? path with
    | none => exact hread c hc
    | some archive =>
      refine ⟨c, ?_, hc⟩
      rw [Source.opened, hc.files path archive hget]
      rfl
  | entry uri content =>
    obtain ⟨l, hl, rfl, hcontent⟩ := h
    have hread : Answers fs (do
        let archive ← Cached.ofResult ((fs.unzip content).mapError .archive)
        modify fun c => { c with inner := c.inner.insert l.uri archive }
        return archive) ((fs.unzip content).mapError .archive) := by
      refine ((answers_ofResult fs _).bind (g := pure) fun archive hopen => ?_).of_eq (bind_pure _)
      exact answers_keep
        (fun c hc => hc.insertInner hl hcontent (mapError_eq_ok_iff.1 hopen)) archive
    intro c hc
    rw [openSource, Cached.run_get_bind]
    cases hget : c.inner.get? l.uri with
    | none => exact hread c hc
    | some archive =>
      obtain ⟨content', hcontent', hopen⟩ := hc.inner l hl archive hget
      obtain rfl : content = content' := Option.some.inj (hcontent.symm.trans hcontent')
      refine ⟨c, ?_, hc⟩
      rw [Source.opened, mapError_eq_ok_iff.2 hopen]
      rfl

/-- Entering an entry that its location stands for. -/
theorem answers_enter (hl : l.Plain) (h : source.Genuine fs)
    (hcontent : standsFor? fs l = (source.content? fs).bind (entryOf? fs · level.text)) :
    Answers fs (enter fs source level l) (entered fs source level l) := by
  have htake : Answers fs (do
      let archive ← openSource fs source
      let m ← Cached.ofResult (openMember archive level.text l)
      let content ← Cached.ofResult (contentOf m)
      modify fun c => { c with taken := c.taken.insert l.uri content }
      return .entry l.uri content) (entered fs source level l) := by
    refine (answers_openSource h).bind fun archive harchive => ?_
    refine (answers_ofResult fs _).bind fun m hm => ?_
    refine (answers_ofResult fs _).bind fun content hread => ?_
    refine answers_keep (fun c hc => hc.insertTaken hl ?_) _
    have hentered : entered fs source level l = .ok (.entry l.uri content) := by
      rw [entered, harchive]
      simp only [bind, Except.bind, hm, hread]
      rfl
    obtain ⟨_, hstep, hsame⟩ := entered_eq_ok_iff.1 hentered
    cases hsame
    rw [hcontent, hstep]
  intro c hc
  rw [enter, Cached.run_get_bind]
  cases hget : c.taken.get? l.uri with
  | none => exact htake c hc
  | some content =>
    refine ⟨c, ?_, hc⟩
    rw [entered_eq_ok_iff.2 ⟨content, hcontent ▸ hc.taken l hl content hget, rfl⟩]
    rfl

/-! ## 5. Resolving with what is kept -/

/-- The source that is reached after some levels. -/
structure Source.Reached (fs : FileSystem) (l : Location) (done : List Trail) (source : Source) :
    Prop where
  genuine : source.Genuine fs
  content : source.content? fs = contentAt? fs l.path.text (done.map Trail.text)

theorem outermost_of_entry {done todo : List Trail} {inner : Trail}
    (he : l.entry = some ⟨done ++ level :: todo, inner⟩) :
    l.outermost (done ++ [level]).length = { l with entry := some ⟨done, level⟩ } := by
  have hlevels : l.levels = (done ++ [level]) ++ (todo ++ [inner]) := by
    simp [Location.levels, he, Entry.levels]
  rw [Location.outermost, hlevels, List.take_left, Entry.ofLevels_concat]

theorem plain_outermost {done todo : List Trail} {inner : Trail} (hl : l.Plain)
    (he : l.entry = some ⟨done ++ level :: todo, inner⟩) :
    Location.Plain { l with entry := some ⟨done, level⟩ } := by
  have hplain := hl.entry _ he
  refine hl.withEntry he ⟨fun level hlevel => hplain.outer level (by simp [hlevel]), ?_⟩
  exact (hplain.outer level (by simp)).2

/-- **Every level is entered as if nothing were kept.**  What was entered before is the archive that
the levels before it lead to. -/
theorem answers_foldlM_enter (hl : l.Plain) {done todo : List Trail} {inner : Trail}
    (he : l.entry = some ⟨done ++ todo, inner⟩) (hsource : source.Reached fs l done) :
    Answers fs ((todo.zipIdx done.length).foldlM (fun source (level, depth) =>
        enter fs source level (l.outermost (depth + 1))) source)
      ((todo.zipIdx done.length).foldlM (fun source (level, depth) =>
        entered fs source level (l.outermost (depth + 1))) source) ∧
      ∀ last, (todo.zipIdx done.length).foldlM (fun source (level, depth) =>
        entered fs source level (l.outermost (depth + 1))) source = .ok last →
        last.Genuine fs := by
  induction todo generalizing done source with
  | nil =>
    refine ⟨answers_pure fs source, fun last hlast => ?_⟩
    cases hlast
    exact hsource.genuine
  | cons level rest ih =>
    have hhere := outermost_of_entry he
    have hplain := plain_outermost hl he
    have hstands : standsFor? fs { l with entry := some ⟨done, level⟩ } =
        (source.content? fs).bind (entryOf? fs · level.text) := by
      rw [hsource.content, ← contentAt?_concat]
      simp [standsFor?, Location.levels, Entry.levels]
    have hnext (next : Source) (h : entered fs source level { l with entry := some ⟨done, level⟩ } =
        .ok next) : next.Reached fs l (done ++ [level]) := by
      obtain ⟨content, hcontent, rfl⟩ := entered_eq_ok_iff.1 h
      refine ⟨⟨_, hplain, rfl, hstands.trans hcontent⟩, ?_⟩
      rw [List.map_append, List.map_singleton, contentAt?_concat, ← hsource.content, hcontent]
      rfl
    have he' : l.entry = some ⟨(done ++ [level]) ++ rest, inner⟩ := by simp [he]
    have hlength : done.length + 1 = (done ++ [level]).length := by simp
    rw [List.zipIdx_cons, List.foldlM_cons, List.foldlM_cons]
    simp only [hlength, hhere]
    constructor
    · exact (answers_enter hplain hsource.genuine hstands).bind fun next h => (ih he' (hnext next h)).1
    · intro last hlast
      obtain ⟨next, h, hlast⟩ := bind_eq_ok_iff.1 hlast
      exact (ih he' (hnext next h)).2 last hlast

theorem answers_resolve (hl : l.Plain) : Answers fs (resolve fs l) (resolved fs l) := by
  unfold resolve resolved
  by_cases hscheme : l.scheme = Location.archiveScheme
  · obtain ⟨e, he⟩ := Option.ne_none_iff_exists'.1 (hl.archive hscheme)
    have hlevels : l.levels.dropLast = e.outer := by simp [Location.levels, he, Entry.levels]
    have hfile : (Source.file l.path.text).Reached fs l [] := by
      refine ⟨trivial, ?_⟩
      cases hread : (fs.read? l.path.text).toOption <;> simp [Source.content?, contentAt?, hread]
    obtain ⟨hfold, hgenuine⟩ := @answers_foldlM_enter _ _ _ hl [] e.outer e.inner he hfile
    simp only [hscheme, ne_eq, not_true_eq_false, if_false, hlevels]
    refine hfold.bind fun source hsource => ?_
    refine (answers_openSource (hgenuine source hsource)).bind fun archive _ => ?_
    exact answers_pure fs _
  · simp only [ne_eq, hscheme, not_false_eq_true, if_true]
    exact answers_ofResult fs (.error _)

/-! ## 6. The four questions -/

/-- Open a resource in its innermost archive. -/
def streamed (l : Location) (found : Archive × String) : Result Stream :=
  if found.2 = "" then
    .error (.invalidLocation s!"{l.uri} is an archive root, not a readable entry")
  else do
    let m ← openMember found.1 found.2 l
    if m.isDirectory then .error (.invalidLocation s!"{l.uri} is a directory")
    else return .bytes (← contentOf m)

/-- Describe a resource in its innermost archive. -/
def described (l : Location) (found : Archive × String) : Result Description :=
  match classify found.1 found.2 with
  | .file size modified =>
    .ok { size, modified, isDirectory := false, contentType := l.contentType? }
  | .directory modified => .ok { size := 0, modified, isDirectory := true, contentType := none }
  | .missing => .error (.notFound l.uri)

theorem answers_stream (hl : l.Plain) : Answers fs (stream fs l) (resolved fs l >>= streamed l) := by
  refine (answers_resolve hl).bind fun found _ => ?_
  obtain ⟨archive, name⟩ := found
  simp only [streamed]
  split_ifs
  · exact answers_ofResult fs (.error _)
  · refine (answers_ofResult fs _).bind fun m _ => ?_
    split_ifs
    · exact answers_ofResult fs (.error _)
    · exact (answers_ofResult fs _).bind fun content _ => answers_pure fs _

theorem answers_children (hl : l.Plain) :
    Answers fs (children fs l)
      (resolved fs l >>= fun found => .ok ((namesBelow found.1 found.2).map l.join)) :=
  (answers_resolve hl).bind fun _ _ => answers_pure fs _

theorem answers_describe (hl : l.Plain) :
    Answers fs (describe fs l) (resolved fs l >>= described l) := by
  refine (answers_resolve hl).bind fun found _ => ?_
  obtain ⟨archive, name⟩ := found
  cases hkind : classify archive name <;> simp only [described, hkind]
  case file => exact answers_pure fs _
  case directory => exact answers_pure fs _
  case missing => exact answers_ofResult fs (.error _)

theorem Answers.tryCatch {α : Type} {x : Cached α} {r : Result α} {f : Error → Cached α}
    {g : Error → Result α} (hx : Answers fs x r) (hf : ∀ e, Answers fs (f e) (g e)) :
    Answers fs (tryCatch x f) (tryCatch r g) := by
  intro c hc
  obtain ⟨c', hrun, hc'⟩ := hx c hc
  cases r with
  | ok a => exact ⟨c', Cached.run_tryCatch hrun, hc'⟩
  | error e =>
    obtain ⟨c'', hrun', hc''⟩ := hf e c' hc'
    refine ⟨c'', ?_, hc''⟩
    have hcatch (k : Except Error α → StateM Cache (Except Error α)) :
        (x.run >>= k) c = k (x.run c).1 (x.run c).2 := rfl
    simp only [MonadExcept.tryCatch, tryCatchThe, MonadExceptOf.tryCatch, ExceptT.tryCatch,
      ExceptT.run_mk]
    refine (hcatch _).trans ?_
    rw [hrun]
    exact hrun'

/-- Whether a name stands for anything in its archive. -/
def shown (found : Archive × String) : Bool :=
  match classify found.1 found.2 with
  | .missing => false
  | _ => true

/-- Whether there is a resource at a location. -/
def presented (fs : FileSystem) (l : Location) : Result Bool :=
  if !fs.contains l.path.text then .ok false
  else
    match resolved fs l with
    | .ok found => .ok (shown found)
    | .error e => if e.isNotFound then .ok false else .error e

theorem answers_present (hl : l.Plain) : Answers fs (present fs l) (presented fs l) := by
  unfold present presented
  split_ifs
  · exact answers_pure fs false
  · have hfound : Answers fs (some <$> resolve fs l) (resolved fs l >>= fun found => .ok (some found)) :=
      (answers_resolve hl).bind fun found _ => answers_pure fs _
    refine ((hfound.tryCatch (g := fun e => if e.isNotFound then .ok none else .error e) fun e => ?_).bind
      (g := fun found => .ok (found.any shown)) fun found _ => ?_).of_eq ?_
    · split_ifs
      · exact answers_pure fs none
      · exact answers_ofResult fs (.error e)
    · cases found with
      | none => exact answers_pure fs false
      | some found =>
        obtain ⟨archive, name⟩ := found
        cases hkind : classify archive name <;> simp only [Option.any_some, shown, hkind] <;>
          exact answers_pure fs _
    · cases resolved fs l with
      | ok found => rfl
      | error e => by_cases he : e.isNotFound <;> simp [he, bind, Except.bind, tryCatch, tryCatchThe,
          MonadExceptOf.tryCatch, Except.tryCatch]

/-- Whether there is a resource is answered, too, with no regard to what is kept. -/
theorem exists_answers_present (fs : FileSystem) (hl : l.Plain) :
    ∃ r, Answers fs (present fs l) r :=
  ⟨_, answers_present hl⟩

/-! ## 7. Histories of questions -/

/-- The questions about a location. -/
inductive Question where
  | stream
  | present
  | children
  | describe

/-- What can be asked for. -/
inductive Request where
  | ask (question : Question) (l : Location)
  | shutdown

/-- What is kept after a request, whether it succeeded or failed. -/
def Request.after (fs : FileSystem) (c : Cache) : Request → Cache
  | .ask .stream l => ((Access.ofArchives fs).stream l c).2
  | .ask .present l => ((Access.ofArchives fs).present l c).2
  | .ask .children l => ((Access.ofArchives fs).children l c).2
  | .ask .describe l => ((Access.ofArchives fs).describe l c).2
  | .shutdown => {}

/-- What is kept after a history of requests. -/
def kept (fs : FileSystem) (history : List Request) : Cache := history.foldl (Request.after fs) {}

theorem Answers.sound {α : Type} {x : Cached α} {r : Result α} (h : Answers fs x r) {c : Cache}
    (hc : c.Sound fs) : (x.run c).2.Sound fs := by
  obtain ⟨c', hrun, hc'⟩ := h c hc
  rwa [hrun]

theorem Answers.eq {α : Type} {x : Cached α} {r : Result α} (h : Answers fs x r) {c : Cache}
    (hc : c.Sound fs) : (x.run c).1 = r := by
  obtain ⟨c', hrun, -⟩ := h c hc
  rw [hrun]

theorem Cache.Sound.after {c : Cache} (hc : c.Sound fs) {request : Request}
    (h : ∀ q l, request = .ask q l → l.Plain) : (request.after fs c).Sound fs := by
  cases request with
  | shutdown => exact Cache.sound_empty fs
  | ask q l =>
    have hl := h q l rfl
    cases q with
    | stream => exact (answers_stream hl).sound hc
    | present =>
      obtain ⟨r, hr⟩ := exists_answers_present fs hl
      exact hr.sound hc
    | children => exact (answers_children hl).sound hc
    | describe => exact (answers_describe hl).sound hc

/-- **Whatever has been asked, only true things are kept.** -/
theorem Cache.sound_kept (fs : FileSystem) {history : List Request}
    (h : ∀ q l, Request.ask q l ∈ history → l.Plain) : (kept fs history).Sound fs := by
  have hfold (c : Cache) (hc : c.Sound fs) : (history.foldl (Request.after fs) c).Sound fs := by
    induction history generalizing c with
    | nil => exact hc
    | cons request rest ih =>
      refine ih (fun q l hmem => h q l (List.mem_cons_of_mem _ hmem)) _ (hc.after ?_)
      rintro q l rfl
      exact h q l List.mem_cons_self
  exact hfold {} (Cache.sound_empty fs)

/-! ## 8. Reading along a chain -/

theorem get?_of_open? {name : String} {m : Member}
    (h : archive.open? name = .ok m) : archive.members.get? name = some m := by
  unfold Archive.open? at h
  split at h
  · cases h
  · next m' hget =>
    split at h
    · cases h
    · cases h
      exact hget

/-- **What is read from a place in an archive is what the chain leads to.** -/
theorem readAll_streamed_iff {path : Path} {outer : List Trail} {inner : Trail}
    (hinner : inner.Plain) (hne : inner ≠ []) {bytes : Bytes} :
    (resolved fs ⟨Location.archiveScheme, path, some ⟨outer, inner⟩⟩ >>= streamed l).bind
        Stream.readAll = .ok bytes ↔
      contentAt? fs path.text ((outer ++ [inner]).map Trail.text) = some bytes := by
  have hsimple : ∀ name ∈ inner.reverse, Simple name := fun name h => hinner name (List.mem_reverse.1 h)
  have htext : inner.text ≠ "" := by
    rw [Ne, Trail.text, Archive.Packs.join_eq_empty_iff hsimple]
    simpa using hne
  have hbind (x : Result Stream) : x.bind Stream.readAll = x >>= Stream.readAll := rfl
  rw [List.map_append, List.map_singleton, contentAt?_concat, Option.bind_eq_some_iff, hbind,
    bind_eq_ok_iff]
  simp only [bind_eq_ok_iff, entryOf?_eq_some_iff]
  constructor
  · rintro ⟨opened, ⟨⟨archive, name⟩, hfound, hstream⟩, hread⟩
    obtain ⟨rfl, content, hcontent, hopen⟩ := resolved_eq_ok_iff.1 hfound
    rw [streamed, if_neg htext] at hstream
    obtain ⟨m, hm, hstream⟩ := bind_eq_ok_iff.1 hstream
    split_ifs at hstream
    obtain ⟨read, hget, hstream⟩ := bind_eq_ok_iff.1 hstream
    cases hstream
    cases hread
    exact ⟨content, hcontent, archive, m, hopen, openMember_eq_ok_iff.1 hm, mapError_eq_ok_iff.1 hget⟩
  · rintro ⟨content, hcontent, archive, m, hopen, hm, hget⟩
    have hname : m.name = Split.join "/" inner.reverse := archive.named _ m (get?_of_open? hm)
    have hfile : m.isDirectory = false := Member.isDirectory_eq_false hsimple (by simpa using hne) hname
    refine ⟨.bytes bytes, ⟨(archive, inner.text), resolved_eq_ok_iff.2 ⟨rfl, content, hcontent, hopen⟩, ?_⟩,
      rfl⟩
    rw [streamed, if_neg htext]
    refine bind_eq_ok_iff.2 ⟨m, openMember_eq_ok_iff.2 hm, ?_⟩
    simp only [hfile, Bool.false_eq_true, if_false]
    exact bind_eq_ok_iff.2 ⟨bytes, mapError_eq_ok_iff.2 hget, rfl⟩

end Archives

open Archives
open FileSystem (Item)

/-- **Reads through archives compose, and what is kept is invisible.**  After every history of requests,
successful or failed, shutdowns among them, and for every location: content in an archive is read
exactly if the chain of its levels leads to bytes, and then it is these bytes; and every question is
answered as it is with nothing kept. -/
theorem nested_reads_compose (fs : FileSystem) {history : List Request}
    (hhistory : ∀ q l, Request.ask q l ∈ history → l.Reached) {l : Location} (hl : l.Reached) :
    (∀ path outer inner, l = ⟨Location.archiveScheme, path, some ⟨outer, inner⟩⟩ → inner ≠ [] →
      ∀ bytes, ((Access.ofArchives fs).stream l (kept fs history)).1.bind Stream.readAll = .ok bytes ↔
        contentAt? fs path.text ((outer ++ [inner]).map Trail.text) = some bytes) ∧
      ((Access.ofArchives fs).stream l (kept fs history)).1 = (stream fs l).fresh ∧
      ((Access.ofArchives fs).present l (kept fs history)).1 = (present fs l).fresh ∧
      ((Access.ofArchives fs).children l (kept fs history)).1 = (children fs l).fresh ∧
      ((Access.ofArchives fs).describe l (kept fs history)).1 = (describe fs l).fresh := by
  have hkept := Cache.sound_kept fs fun q l hmem => (hhistory q l hmem).plain
  have hstream := @answers_stream fs l hl.plain
  refine ⟨?_, ?_, ?_, ?_, ?_⟩
  · rintro path outer inner rfl hne bytes
    have hread : ((Access.ofArchives fs).stream _ (kept fs history)).1 = _ := hstream.eq hkept
    rw [hread]
    exact readAll_streamed_iff (hl.plain.entry _ rfl).inner hne
  · exact (hstream.eq hkept).trans hstream.fresh_eq.symm
  · obtain ⟨r, hr⟩ := exists_answers_present fs hl.plain
    exact (hr.eq hkept).trans hr.fresh_eq.symm
  · have hchildren := @answers_children fs l hl.plain
    exact (hchildren.eq hkept).trans hchildren.fresh_eq.symm
  · have hdescribe := @answers_describe fs l hl.plain
    exact (hdescribe.eq hkept).trans hdescribe.fresh_eq.symm

/-- An archive file with the member `é!`. -/
def innerBytes : Bytes :=
  [80, 75, 3, 4, 20, 0, 0, 8, 0, 0, 0, 0, 33, 0, 172, 42, 147, 216, 2, 0, 0, 0, 2, 0, 0, 0, 3, 0,
   0, 0, 195, 169, 33, 104, 105, 80, 75, 1, 2, 20, 0, 20, 0, 0, 8, 0, 0, 0, 0, 33, 0, 172, 42, 147,
   216, 2, 0, 0, 0, 2, 0, 0, 0, 3, 0, 0, 0, 0, 0, 0, 0, 0, 0, 0, 0, 0, 0, 0, 0, 0, 0, 195, 169, 33,
   80, 75, 5, 6, 0, 0, 0, 0, 1, 0, 1, 0, 49, 0, 0, 0, 35, 0, 0, 0, 0, 0]

/-- An archive file with `innerBytes` as its member `a.jar`. -/
def nestedBytes : Bytes :=
  [80, 75, 3, 4, 20, 0, 0, 8, 0, 0, 0, 0, 33, 0, 107, 165, 113, 55, 106, 0, 0, 0, 106, 0, 0, 0, 5,
   0, 0, 0, 97, 46, 106, 97, 114] ++ innerBytes ++
  [80, 75, 1, 2, 20, 0, 20, 0, 0, 8, 0, 0, 0, 0, 33, 0, 107, 165, 113, 55, 106, 0, 0, 0, 106, 0, 0,
   0, 5, 0, 0, 0, 0, 0, 0, 0, 0, 0, 0, 0, 0, 0, 0, 0, 0, 0, 97, 46, 106, 97, 114, 80, 75, 5, 6, 0,
   0, 0, 0, 1, 0, 1, 0, 51, 0, 0, 0, 141, 0, 0, 0, 0, 0]

/-- A file system with `nestedBytes` in `n.zip`. -/
def nestedShelf : FileSystem where
  root := .directory [("n.zip", .file nestedBytes ⟨0⟩)] ⟨0⟩

set_option maxRecDepth 100000 in
theorem entryOf?_nestedBytes :
    entryOf? nestedShelf nestedBytes "a.jar" = some innerBytes ∧
      entryOf? nestedShelf innerBytes "é!" = some [104, 105] := by
  decide +kernel

theorem read?_nestedShelf : nestedShelf.read? "/n.zip" = .ok nestedBytes := by
  have hplain : nestedShelf.root.Plain := by
    refine Item.plain_directory _ ?_
    simp only [List.forall_mem_cons, List.not_mem_nil, false_implies, implies_true, and_true]
    exact ⟨by decide, Item.plain_file _ _⟩
  have hpath : "/n.zip" = Path.text ⟨.root, ["n.zip"].reverse⟩ := by decide
  rw [hpath]
  exact read?_eq_ok_iff.2 ⟨⟨0⟩, FileSystem.item?_of_at? rfl hplain rfl
    ⟨by decide +kernel, by decide +kernel, by decide +kernel⟩⟩

theorem contentAt?_nestedShelf :
    contentAt? nestedShelf "/n.zip" ["a.jar", "é!"] = some [104, 105] := by
  obtain ⟨houter, hinner⟩ := entryOf?_nestedBytes
  have hfirst : contentAt? nestedShelf "/n.zip" ["a.jar"] = some innerBytes :=
    contentAt?_concat_of_entry (contentAt?_nil read?_nestedShelf) houter
  exact contentAt?_concat_of_entry hfirst hinner

/-- A file two archives deep, read after questions about it and around it and after a shutdown. -/
theorem nested_reads_compose_sample :
    ((Access.ofArchives nestedShelf).stream (Location.archive "/n.zip" "a.jar!/é!")
        (kept nestedShelf [.ask .children (Location.archive "/n.zip" "a.jar!/"), .shutdown,
          .ask .describe (Location.archive "/n.zip" "b.jar!/d"),
          .ask .present (Location.archive "/n.zip" "a.jar!/é!")])).1.bind Stream.readAll =
      .ok [104, 105] := by
  refine (((nested_reads_compose nestedShelf ?_ (.archive "/n.zip" "a.jar!/é!")).1
    ⟨.root, ["n.zip"]⟩ [["a.jar"]] ["é!"] (by decide +kernel) (by decide)) [104, 105]).2 ?_
  · intro q l hmem
    simp only [List.mem_cons, Request.ask.injEq, reduceCtorEq, List.not_mem_nil, or_false,
      false_or] at hmem
    rcases hmem with ⟨-, rfl⟩ | ⟨-, rfl⟩ | ⟨-, rfl⟩ <;> exact .archive _ _
  · exact contentAt?_nestedShelf

end FactGraph
