import FactGraph.Path
import Mathlib

/-!
# Paths and their texts

A path in normal form has one text, and walking that text leads back to it.  What makes this true is
that the names of a path are simple: they hold no separator, so the text is cut exactly between them,
and none of them is read as a step that stays or goes up.

Every walk starts at a place without names and only ever adds pieces of a text that was cut at its
separators, so the names of every path are simple.

Main statements: `Trail.ofText_text`, `Path.ofText_text` (the text of a place leads to it),
`Trail.Plain.walk`, `Path.Plain.walk` (walking keeps names simple).
-/

namespace FactGraph

/-! ## 1. Cutting a text that was joined -/

namespace Split

theorem pieces_eq_splitOnP (sep : Char → Bool) (text : List Char) :
    pieces sep text = text.splitOnP sep := by
  induction text with
  | nil => rfl
  | cons c rest ih =>
    rw [List.splitOnP_cons_eq_if_modifyHead, ← ih, pieces]
    cases h : pieces sep rest with
    | nil => exact absurd h (pieces_ne_nil sep rest)
    | cons piece more => simp

theorem pieces_of_free {sep : Char → Bool} {text : List Char} (h : ∀ c ∈ text, sep c = false) :
    pieces sep text = [text] := by
  rw [pieces_eq_splitOnP, List.splitOnP_eq_singleton h]

theorem pieces_append_cons {sep : Char → Bool} {piece : List Char} (h : ∀ c ∈ piece, sep c = false)
    {c : Char} (hc : sep c = true) (rest : List Char) :
    pieces sep (piece ++ c :: rest) = piece :: pieces sep rest := by
  rw [pieces_eq_splitOnP, pieces_eq_splitOnP, List.splitOnP_append_cons_of_forall_mem h c hc]

/-- No piece holds a separator. -/
theorem free_of_mem_pieces {sep : Char → Bool} {text piece : List Char}
    (h : piece ∈ pieces sep text) : ∀ c ∈ piece, sep c = false := by
  induction text generalizing piece with
  | nil =>
    rw [pieces, List.mem_singleton] at h
    simp [h]
  | cons d rest ih =>
    rw [pieces] at h
    cases hp : pieces sep rest with
    | nil => exact absurd hp (pieces_ne_nil sep rest)
    | cons first more =>
      simp only [hp] at h ih
      split_ifs at h with hd
      · rcases List.mem_cons.1 h with rfl | h
        · simp
        · exact ih h
      · rcases List.mem_cons.1 h with rfl | h
        · intro c hc
          rcases List.mem_cons.1 hc with rfl | hc
          · simpa using hd
          · exact ih List.mem_cons_self c hc
        · exact ih (List.mem_cons_of_mem _ h)

/-- Texts without separators, joined and cut again. -/
theorem texts_join (sep : Char → Bool) (c : Char) (hc : sep c = true) {names : List String}
    (hne : names ≠ []) (h : ∀ name ∈ names, ∀ d ∈ name.toList, sep d = false) :
    texts sep (join (String.singleton c) names) = names := by
  induction names with
  | nil => contradiction
  | cons name rest ih =>
    have hname := h name List.mem_cons_self
    by_cases hr : rest = []
    · simp [hr, texts, join, pieces_of_free hname]
    · have ih := ih hr fun other ho => h other (List.mem_cons_of_mem _ ho)
      simp only [texts, join] at ih ⊢
      rw [String.intercalate_cons_of_ne_nil hr, String.append_assoc, String.toList_append,
        String.toList_append]
      simp only [String.toList_singleton, List.cons_append, List.nil_append]
      rw [pieces_append_cons hname hc, List.map_cons, ih, String.ofList_toList]

end Split

/-! ## 2. Simple names -/

/-- A name that can stand in a path: it is not read as a step that stays or goes up, and it is not
cut. -/
structure Simple (name : String) : Prop where
  ne_empty : name ≠ ""
  ne_dot : name ≠ "."
  ne_dots : name ≠ ".."
  slash : '/' ∉ name.toList
  backslash : '\\' ∉ name.toList

instance (name : String) : Decidable (Simple name) :=
  decidable_of_iff (name ≠ "" ∧ name ≠ "." ∧ name ≠ ".." ∧ '/' ∉ name.toList ∧ '\\' ∉ name.toList)
    ⟨fun ⟨h1, h2, h3, h4, h5⟩ => ⟨h1, h2, h3, h4, h5⟩,
      fun h => ⟨h.ne_empty, h.ne_dot, h.ne_dots, h.slash, h.backslash⟩⟩

namespace Simple

variable {name : String}

theorem free (h : Simple name) : ∀ c ∈ name.toList, Step.separates c = false := by
  intro c hc
  have h1 : c ≠ '/' := fun e => h.slash (e ▸ hc)
  have h2 : c ≠ '\\' := fun e => h.backslash (e ▸ hc)
  simp [Step.separates, h1, h2]

@[simp] theorem ofText_eq (h : Simple name) : Step.ofText name = .down name := by
  simp [Step.ofText, h.ne_empty, h.ne_dot, h.ne_dots]

end Simple

namespace Step

/-- A step goes down by a simple name only. -/
def Plain : Step → Prop
  | .down name => Simple name
  | _ => True

/-- The steps of any text. -/
theorem plain_of_mem_ofPath {text : String} {step : Step} (h : step ∈ ofPath text) : step.Plain := by
  obtain ⟨name, hname, rfl⟩ := List.mem_map.1 h
  obtain ⟨piece, hpiece, rfl⟩ := List.mem_map.1 hname
  have hfree := Split.free_of_mem_pieces hpiece
  simp only [ofText]
  split_ifs with h1 h2
  · trivial
  · trivial
  · simp only [Bool.or_eq_true, decide_eq_true_eq, not_or] at h1
    refine ⟨h1.1, h1.2, h2, fun hc => ?_, fun hc => ?_⟩
    · rw [String.toList_ofList] at hc
      exact absurd (hfree _ hc) (by decide)
    · rw [String.toList_ofList] at hc
      exact absurd (hfree _ hc) (by decide)

/-- The steps of texts that were joined. -/
theorem ofPath_join {names : List String} (hne : names ≠ [])
    (h : ∀ name ∈ names, ∀ c ∈ name.toList, separates c = false) :
    ofPath (Split.join "/" names) = names.map ofText := by
  have hj := Split.texts_join separates '/' (by decide) hne h
  rw [ofPath]
  exact congrArg (List.map ofText) hj

/-- A simple name is one step down. -/
theorem ofPath_simple {name : String} (h : Simple name) : ofPath name = [.down name] := by
  have hpath := @ofPath_join [name] (by simp) (by simpa using h.free)
  simpa [Split.join, h.ofText_eq] using hpath

theorem ofPath_slash (text : String) : ofPath ("/" ++ text) = .stay :: ofPath text := by
  have h : Split.pieces separates ("/" ++ text).toList = [] :: Split.pieces separates text.toList := by
    rw [String.toList_append]
    exact @Split.pieces_append_cons separates [] (by simp) '/' (by decide) text.toList
  rw [ofPath, Split.texts, h]
  simp [ofPath, Split.texts, ofText]

end Step

/-! ## 3. Trails -/

namespace Trail

/-- All names are simple. -/
def Plain (trail : Trail) : Prop := ∀ name ∈ trail, Simple name

theorem Plain.step {trail : Trail} (h : trail.Plain) {s : Step} (hs : s.Plain) :
    (trail.step s).Plain := by
  cases s with
  | stay => exact h
  | up => exact fun name hname => h name (List.mem_of_mem_tail hname)
  | down name => exact List.forall_mem_cons.2 ⟨hs, h⟩

theorem Plain.walk {trail : Trail} (h : trail.Plain) {steps : List Step}
    (hs : ∀ s ∈ steps, s.Plain) : (trail.walk steps).Plain := by
  induction steps generalizing trail with
  | nil => exact h
  | cons s rest ih =>
    obtain ⟨hs, hrest⟩ := List.forall_mem_cons.1 hs
    exact ih (h.step hs) hrest

theorem plain_ofText (text : String) : (ofText text).Plain :=
  Plain.walk (by simp [Plain]) fun _ h => Step.plain_of_mem_ofPath h

/-- Steps down only add their names. -/
theorem walk_downs (trail : Trail) {names : List String} (h : ∀ name ∈ names, Simple name) :
    trail.walk (names.map Step.ofText) = names.reverse ++ trail := by
  induction names generalizing trail with
  | nil => rfl
  | cons name rest ih =>
    obtain ⟨hname, hrest⟩ := List.forall_mem_cons.1 h
    have hstep : trail.step (Step.ofText name) = name :: trail := by rw [hname.ofText_eq]; rfl
    rw [List.map_cons, walk, List.foldl_cons, hstep]
    exact (ih (name :: trail) hrest).trans (by simp)

/-- **The text of a trail leads to it.** -/
theorem ofText_text {trail : Trail} (h : trail.Plain) : ofText trail.text = trail := by
  by_cases hne : trail = []
  · subst hne
    decide
  · have hplain : ∀ name ∈ trail.reverse, Simple name := fun name hname =>
      h name (List.mem_reverse.1 hname)
    rw [ofText, text, Step.ofPath_join (by simpa using hne) fun name hname => (hplain name hname).free,
      walk_downs _ hplain]
    simp

end Trail

/-! ## 4. Paths -/

namespace Path

/-- All names are simple. -/
def Plain (p : Path) : Prop := p.trail.Plain

theorem Plain.step {p : Path} (h : p.Plain) {s : Step} (hs : s.Plain) : (p.step s).Plain := by
  obtain ⟨base, trail⟩ := p
  cases s with
  | stay => exact h
  | down name => exact List.forall_mem_cons.2 ⟨hs, h⟩
  | up =>
    cases trail with
    | cons name outer => exact fun other ho => h other (List.mem_cons_of_mem _ ho)
    | nil =>
      cases base with
      | root => exact h
      | above ups => exact h

theorem Plain.walk {p : Path} (h : p.Plain) {steps : List Step} (hs : ∀ s ∈ steps, s.Plain) :
    (p.walk steps).Plain := by
  induction steps generalizing p with
  | nil => exact h
  | cons s rest ih =>
    obtain ⟨hs, hrest⟩ := List.forall_mem_cons.1 hs
    exact ih (h.step hs) hrest

theorem plain_ofText (text : String) : (ofText text).Plain := by
  refine Plain.walk ?_ fun _ h => Step.plain_of_mem_ofPath h
  unfold start
  split
  · split_ifs <;> simp [Plain, Trail.Plain]
  · simp [Plain, Trail.Plain]

theorem Plain.parent? {p q : Path} (h : p.Plain) (hq : p.parent? = some q) : q.Plain := by
  obtain ⟨base, trail⟩ := p
  have hnil : Trail.Plain [] := by simp [Trail.Plain]
  have htail {name : String} {outer : Trail} (e : trail = name :: outer) : outer.Plain := by
    subst e
    exact (List.forall_mem_cons.1 h).2
  unfold Path.parent? at hq
  split at hq
  · next e _ =>
    cases hq
    exact htail e
  · cases hq
  · next e _ =>
    split_ifs at hq
    cases hq
    exact htail e
  · split_ifs at hq
    cases hq
    exact hnil

/-- Steps down only add their names. -/
theorem walk_downs (p : Path) {names : List String} (h : ∀ name ∈ names, Simple name) :
    p.walk (names.map Step.ofText) = ⟨p.base, names.reverse ++ p.trail⟩ := by
  induction names generalizing p with
  | nil => rfl
  | cons name rest ih =>
    obtain ⟨hname, hrest⟩ := List.forall_mem_cons.1 h
    have hstep : p.step (Step.ofText name) = ⟨p.base, name :: p.trail⟩ := by
      rw [hname.ofText_eq]; rfl
    rw [List.map_cons, walk, List.foldl_cons, hstep]
    exact (ih ⟨p.base, name :: p.trail⟩ hrest).trans (by simp)

/-- Steps up from an unnamed place are counted. -/
theorem walk_ups (base n : Nat) :
    walk ⟨.above base, []⟩ ((List.replicate n "..").map Step.ofText) = ⟨.above (base + n), []⟩ := by
  induction n generalizing base with
  | zero => rfl
  | succ n ih =>
    rw [List.replicate_succ, List.map_cons, walk, List.foldl_cons]
    refine (ih (base + 1)).trans ?_
    rw [Nat.add_assoc, Nat.add_comm 1]

/-- Joined names begin like the first of them. -/
theorem exists_toList_join {names : List String} (hne : names ≠ [])
    (h : ∀ name ∈ names, name ≠ "" ∧ ∀ c ∈ name.toList, Step.separates c = false) :
    ∃ c rest, (Split.join "/" names).toList = c :: rest ∧ Step.separates c = false := by
  obtain ⟨name, others, rfl⟩ := List.exists_cons_of_ne_nil hne
  obtain ⟨hname, hfree⟩ := h name List.mem_cons_self
  obtain ⟨c, more, hc⟩ := List.exists_cons_of_ne_nil (mt String.toList_eq_nil_iff.1 hname)
  have hsep : Step.separates c = false := hfree c (hc ▸ List.mem_cons_self)
  by_cases hr : others = []
  · exact ⟨c, more, by simp [hr, Split.join, hc], hsep⟩
  · refine ⟨c, more ++ ("/" ++ Split.join "/" others).toList, ?_, hsep⟩
    rw [Split.join, String.intercalate_cons_of_ne_nil hr, String.append_assoc, String.toList_append,
      hc, List.cons_append, Split.join]

/-- A text that begins with a name starts at an unnamed place. -/
theorem start_join {names : List String} (hne : names ≠ [])
    (h : ∀ name ∈ names, name ≠ "" ∧ ∀ c ∈ name.toList, Step.separates c = false) :
    start (Split.join "/" names) = ⟨.above 0, []⟩ := by
  obtain ⟨c, rest, hc, hsep⟩ := exists_toList_join hne h
  simp [start, hc, hsep]

theorem start_slash (text : String) : start ("/" ++ text) = ⟨.root, []⟩ := by
  have h : ("/" ++ text).toList = '/' :: text.toList := by
    rw [String.toList_append]; rfl
  simp [start, h, Step.separates]

theorem Plain.free {p : Path} (h : p.Plain) : ∀ name ∈ p.components,
    name ≠ "" ∧ ∀ c ∈ name.toList, Step.separates c = false := by
  obtain ⟨base, trail⟩ := p
  have hplain : ∀ name ∈ trail.reverse, Simple name := fun name hname =>
    h name (List.mem_reverse.1 hname)
  intro name hname
  cases base with
  | root => exact ⟨(hplain name hname).ne_empty, (hplain name hname).free⟩
  | above ups =>
    rcases List.mem_append.1 hname with hname | hname
    · rw [List.eq_of_mem_replicate hname]
      exact ⟨by simp, by simp [Step.separates]⟩
    · exact ⟨(hplain name hname).ne_empty, (hplain name hname).free⟩

theorem text_above {ups : Nat} {trail : Trail} (h : components ⟨.above ups, trail⟩ ≠ []) :
    text ⟨.above ups, trail⟩ = Split.join "/" (components ⟨.above ups, trail⟩) := by
  unfold text
  split <;> simp_all

/-- **The text of a path leads to it.** -/
theorem ofText_text {p : Path} (h : p.Plain) : ofText p.text = p := by
  have hfree := h.free
  obtain ⟨base, trail⟩ := p
  have hplain : ∀ name ∈ trail.reverse, Simple name := fun name hname =>
    h name (List.mem_reverse.1 hname)
  cases base with
  | root =>
    by_cases hne : trail = []
    · subst hne
      decide
    · have htext : text ⟨.root, trail⟩ = "/" ++ Split.join "/" trail.reverse := rfl
      rw [htext, ofText, start_slash, Step.ofPath_slash,
        Step.ofPath_join (by simpa using hne) fun name hname => (hplain name hname).free]
      exact (walk_downs ⟨.root, []⟩ hplain).trans (by simp)
  | above ups =>
    by_cases hne : components ⟨.above ups, trail⟩ = []
    · obtain ⟨h1, h2⟩ := List.append_eq_nil_iff.1 hne
      obtain rfl : ups = 0 := by simpa using h1
      obtain rfl : trail = [] := by simpa using h2
      decide
    · rw [text_above hne, ofText, start_join hne hfree, Step.ofPath_join hne fun name hname =>
        (hfree name hname).2]
      rw [components, List.map_append, walk_append, walk_ups, walk_downs _ hplain]
      simp

/-- A text starts with a slash at the root and nowhere else, and never with two. -/
theorem text_cases {p : Path} (h : p.Plain) :
    (∃ rest, p.text.toList = '/' :: rest ∧ rest.head? ≠ some '/') ∨
      (∃ c rest, p.text.toList = c :: rest ∧ c ≠ '/') := by
  have hfree := h.free
  have hjoin (hne : p.components ≠ []) :
      ∃ c rest, (Split.join "/" p.components).toList = c :: rest ∧ c ≠ '/' := by
    obtain ⟨c, rest, hc, hsep⟩ := exists_toList_join hne hfree
    refine ⟨c, rest, hc, ?_⟩
    rintro rfl
    exact absurd hsep (by decide)
  obtain ⟨base, trail⟩ := p
  cases base with
  | root =>
    refine .inl ⟨(Split.join "/" (components ⟨.root, trail⟩)).toList, String.toList_append, ?_⟩
    by_cases hne : components ⟨.root, trail⟩ = []
    · simp [hne, Split.join]
    · obtain ⟨c, rest, hc, hslash⟩ := hjoin hne
      simpa [hc] using hslash
  | above ups =>
    refine .inr ?_
    by_cases hne : components ⟨.above ups, trail⟩ = []
    · exact ⟨'.', [], by simp [text, hne], by decide⟩
    · rw [text_above hne]
      exact hjoin hne

theorem text_ne_empty {p : Path} (h : p.Plain) : p.text ≠ "" := by
  intro htext
  rcases text_cases h with ⟨rest, hp, -⟩ | ⟨c, rest, hp, -⟩ <;> simp [htext] at hp

end Path

end FactGraph
