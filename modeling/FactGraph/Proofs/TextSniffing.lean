import FactGraph.Builtin.Sniffer
import FactGraph.Proofs.Additivity
import FactGraph.Proofs.Courses
import FactGraph.Proofs.Encodings
import FactGraph.Proofs.ResourceTrees
import FactGraph.Proofs.TagQueries

/-!
# Telling text from binary

A file is sniffed by its first bytes, and these may end inside a character.  So the question is not
whether they are the bytes of a text but whether they can be CONTINUED to the bytes of one.

* The automaton accepts exactly the bytes of texts (`Utf8.valid_iff`).  One half follows a character
  through the states that the decoder goes through; for the other, accepted bytes start with the bytes of
  some character, and what follows is accepted again (`Utf8.splits_of_after`).
* No state is a dead end: every state has a shortest way back between characters
  (`Utf8.State.after_ending`).  So the bytes that can be continued are those the automaton does not
  refuse (`Utf8.extendable_iff`).

Main statement: `text_sniffed_exactly`.
-/

namespace FactGraph

open Session

/-! ## 1. Accepted bytes are bytes of texts -/

namespace Utf8

namespace State

theorem after_cons_eq_some_iff {s t : State} {b : UInt8} {rest : Bytes} :
    s.after (b :: rest) = some t ↔ ∃ s', s.next b = some s' ∧ s'.after rest = some t := by
  rw [after]
  cases s.next b <;> simp

theorem after_append (s : State) (a b : Bytes) :
    s.after (a ++ b) = (s.after a).bind fun s' => s'.after b := by
  induction a generalizing s with
  | nil => rfl
  | cons x rest ih =>
    rw [List.cons_append, after, after]
    cases s.next x with
    | none => rfl
    | some s' => exact ih s'

/-- The bytes of a character lead from between characters back there. -/
theorem after_utf8EncodeChar (c : Char) :
    State.between.after (String.utf8EncodeChar c) = some .between := by
  have hv : c.toNat < 0xD800 ∨ 0xDFFF < c.toNat ∧ c.toNat < 0x110000 := c.valid
  have hone (n : Nat) : State.one.next (continuation n) = some .between := by
    rw [State.next, if_pos (within_continuation n)]
  have htwo (n : Nat) : State.two.next (continuation n) = some .one := by
    rw [State.next, if_pos (within_continuation n)]
  rw [utf8EncodeChar_eq]
  split_ifs with h1 h2 h3
  · have hb : (UInt8.ofNat c.toNat).toNat = c.toNat :=
      UInt8.toNat_ofNat_of_lt' (by simp only [UInt8.size]; omega)
    simp only [after, next, lead_eq, hb, if_pos h1]
  · have hb : (UInt8.ofNat (c.toNat / 64 % 32 + 192)).toNat = c.toNat / 64 % 32 + 192 :=
      UInt8.toNat_ofNat_of_lt' (by simp only [UInt8.size]; omega)
    have hlead : State.between.next (UInt8.ofNat (c.toNat / 64 % 32 + 192)) = some .one := by
      rw [next, lead_eq, hb, if_neg (by omega), if_pos (by omega)]
    simp only [after, hlead, hone]
  · obtain ⟨s, hlead, -, hnext⟩ := exists_lead_three (by omega) h3 (by omega)
    have hlead : State.between.next _ = some s := hlead
    simp only [after, hlead, hnext, hone]
  · obtain ⟨s, hlead, -, hnext⟩ := exists_lead_four (v := c.toNat) (by omega) (by omega)
    have hlead : State.between.next _ = some s := hlead
    simp only [after, hlead, hnext, htwo, hone]

theorem after_encode (text : String) : State.between.after (encode text) = some .between := by
  rw [encode]
  induction text.toList with
  | nil => rfl
  | cons c rest ih =>
    rw [List.flatMap_cons, after_append, after_utf8EncodeChar, Option.bind_some, ih]

end State

/-- A byte that continues a character. -/
def Continues (b : UInt8) : Prop := 0x80 ≤ b.toNat ∧ b.toNat ≤ 0xBF

theorem continuation_eq {n : Nat} {b : UInt8} (hb : Continues b) (h : n % 64 = b.toNat - 0x80) :
    continuation n = b := by
  have hrange : 0x80 ≤ b.toNat ∧ b.toNat ≤ 0xBF := hb
  rw [← UInt8.toNat_inj, toNat_continuation]
  omega

theorem exists_char_toNat {v : Nat} (h : v < 0xD800 ∨ 0xDFFF < v ∧ v < 0x110000) :
    ∃ x : Char, x.toNat = v :=
  ⟨Char.ofNat v, by rw [Char.toNat_ofNat, if_pos h]⟩

theorem exists_char_one {a : UInt8} (ha : a.toNat ≤ 0x7F) : ∃ x, String.utf8EncodeChar x = [a] := by
  obtain ⟨x, hx⟩ := exists_char_toNat (v := a.toNat) (by omega)
  exact ⟨x, by rw [utf8EncodeChar_eq, hx, if_pos ha, UInt8.ofNat_toNat]⟩

theorem exists_char_two {a b : UInt8} (ha : 0xC2 ≤ a.toNat ∧ a.toNat ≤ 0xDF) (hb : Continues b) :
    ∃ x, String.utf8EncodeChar x = [a, b] := by
  have hb' : 0x80 ≤ b.toNat ∧ b.toNat ≤ 0xBF := hb
  obtain ⟨v, hv⟩ : ∃ v, v = (a.toNat - 0xC0) * 64 + (b.toNat - 0x80) := ⟨_, rfl⟩
  obtain ⟨x, hx⟩ := exists_char_toNat (v := v) (by omega)
  have hfirst : v / 64 % 32 + 192 = a.toNat := by omega
  refine ⟨x, ?_⟩
  rw [utf8EncodeChar_eq, hx, if_neg (by omega), if_pos (by omega), hfirst, UInt8.ofNat_toNat,
    continuation_eq hb (by omega)]

theorem exists_char_three {a b c : UInt8} (ha : 0xE0 ≤ a.toNat ∧ a.toNat ≤ 0xEF) (hb : Continues b)
    (hc : Continues c) (hE0 : a.toNat = 0xE0 → 0xA0 ≤ b.toNat) (hED : a.toNat = 0xED → b.toNat ≤ 0x9F) :
    ∃ x, String.utf8EncodeChar x = [a, b, c] := by
  have hb' : 0x80 ≤ b.toNat ∧ b.toNat ≤ 0xBF := hb
  have hc' : 0x80 ≤ c.toNat ∧ c.toNat ≤ 0xBF := hc
  obtain ⟨v, hv⟩ : ∃ v, v = ((a.toNat - 0xE0) * 64 + (b.toNat - 0x80)) * 64 + (c.toNat - 0x80) :=
    ⟨_, rfl⟩
  -- after `ED` the second byte keeps the number below the surrogates
  obtain ⟨x, hx⟩ := exists_char_toNat (v := v) (by omega)
  have hfirst : v / 4096 % 16 + 224 = a.toNat := by omega
  refine ⟨x, ?_⟩
  rw [utf8EncodeChar_eq, hx, if_neg (by omega), if_neg (by omega), if_pos (by omega), hfirst,
    UInt8.ofNat_toNat, continuation_eq hb (by omega), continuation_eq hc (by omega)]

theorem exists_char_four {a b c d : UInt8} (ha : 0xF0 ≤ a.toNat ∧ a.toNat ≤ 0xF4) (hb : Continues b)
    (hc : Continues c) (hd : Continues d) (hF0 : a.toNat = 0xF0 → 0x90 ≤ b.toNat)
    (hF4 : a.toNat = 0xF4 → b.toNat ≤ 0x8F) : ∃ x, String.utf8EncodeChar x = [a, b, c, d] := by
  have hb' : 0x80 ≤ b.toNat ∧ b.toNat ≤ 0xBF := hb
  have hc' : 0x80 ≤ c.toNat ∧ c.toNat ≤ 0xBF := hc
  have hd' : 0x80 ≤ d.toNat ∧ d.toNat ≤ 0xBF := hd
  obtain ⟨v, hv⟩ : ∃ v, v = (((a.toNat - 0xF0) * 64 + (b.toNat - 0x80)) * 64 + (c.toNat - 0x80)) * 64 +
      (d.toNat - 0x80) := ⟨_, rfl⟩
  obtain ⟨x, hx⟩ := exists_char_toNat (v := v) (by omega)
  have hfirst : v / 262144 % 8 + 240 = a.toNat := by omega
  refine ⟨x, ?_⟩
  rw [utf8EncodeChar_eq, hx, if_neg (by omega), if_neg (by omega), if_neg (by omega), hfirst,
    UInt8.ofNat_toNat, continuation_eq hb (by omega), continuation_eq hc (by omega),
    continuation_eq hd (by omega)]

/-- Inside a character there is a next byte, and it lies in the range that the state asks for. -/
theorem State.of_after {s s' : State} {lo hi : UInt8} (hs : s ≠ .between)
    (hnext : ∀ b, s.next b = if within lo hi b then some s' else none) {bytes : Bytes}
    (h : s.after bytes = some .between) :
    ∃ b rest, bytes = b :: rest ∧ (lo.toNat ≤ b.toNat ∧ b.toNat ≤ hi.toNat) ∧
      s'.after rest = some .between := by
  cases bytes with
  | nil => exact absurd (Option.some.inj h) hs
  | cons b rest =>
    obtain ⟨t, ht, hrest⟩ := after_cons_eq_some_iff.mp h
    rw [hnext] at ht
    split_ifs at ht with hin
    obtain rfl := Option.some.inj ht
    exact ⟨b, rest, rfl, within_eq_true.mp hin, hrest⟩

/-- Accepted bytes start with the bytes of a character, and what follows is accepted again. -/
def Splits (bytes : Bytes) : Prop :=
  ∃ x rest, bytes = String.utf8EncodeChar x ++ rest ∧ State.between.after rest = some .between

/-- A character of three bytes: the first one and a second one that the state after it narrows. -/
theorem splits_three {a lo hi : UInt8} {s : State} (hs : s ≠ .between)
    (hnext : ∀ b, s.next b = if within lo hi b then some .one else none)
    (ha : 0xE0 ≤ a.toNat ∧ a.toNat ≤ 0xEF) (hrange : 0x80 ≤ lo.toNat ∧ hi.toNat ≤ 0xBF)
    (hE0 : a.toNat = 0xE0 → 0xA0 ≤ lo.toNat) (hED : a.toNat = 0xED → hi.toNat ≤ 0x9F) {bytes : Bytes}
    (h : s.after bytes = some .between) : Splits (a :: bytes) := by
  obtain ⟨b, _, rfl, hb, hsecond⟩ := State.of_after hs hnext h
  obtain ⟨c, rest, rfl, hc, hrest⟩ := State.of_after (by simp) (fun _ => rfl) hsecond
  obtain ⟨x, hx⟩ := exists_char_three (b := b) ha ⟨by omega, by omega⟩ hc (by omega) (by omega)
  exact ⟨x, rest, by rw [hx]; rfl, hrest⟩

/-- A character of four bytes. -/
theorem splits_four {a lo hi : UInt8} {s : State} (hs : s ≠ .between)
    (hnext : ∀ b, s.next b = if within lo hi b then some .two else none)
    (ha : 0xF0 ≤ a.toNat ∧ a.toNat ≤ 0xF4) (hrange : 0x80 ≤ lo.toNat ∧ hi.toNat ≤ 0xBF)
    (hF0 : a.toNat = 0xF0 → 0x90 ≤ lo.toNat) (hF4 : a.toNat = 0xF4 → hi.toNat ≤ 0x8F) {bytes : Bytes}
    (h : s.after bytes = some .between) : Splits (a :: bytes) := by
  obtain ⟨b, _, rfl, hb, hsecond⟩ := State.of_after hs hnext h
  obtain ⟨c, _, rfl, hc, hthird⟩ := State.of_after (by simp) (fun _ => rfl) hsecond
  obtain ⟨d, rest, rfl, hd, hrest⟩ := State.of_after (by simp) (fun _ => rfl) hthird
  obtain ⟨x, hx⟩ := exists_char_four (b := b) ha ⟨by omega, by omega⟩ hc hd (by omega) (by omega)
  exact ⟨x, rest, by rw [hx]; rfl, hrest⟩

/-- **Accepted bytes can be split into the bytes of a character and accepted bytes.**  The cases are the
states that a first byte leads to. -/
theorem splits_of_after {a : UInt8} {bytes : Bytes}
    (h : State.between.after (a :: bytes) = some .between) : Splits (a :: bytes) := by
  obtain ⟨s, hlead, hafter⟩ := State.after_cons_eq_some_iff.mp h
  rw [State.next, State.lead_eq] at hlead
  split_ifs at hlead with h1 h2 hE0 hED h3 hF0 h4 hF4 <;> obtain rfl := Option.some.inj hlead
  · obtain ⟨x, hx⟩ := exists_char_one h1
    exact ⟨x, bytes, by rw [hx]; rfl, hafter⟩
  · obtain ⟨b, rest, rfl, hb, hrest⟩ := State.of_after (by simp) (fun _ => rfl) hafter
    obtain ⟨x, hx⟩ := exists_char_two h2 hb
    exact ⟨x, rest, by rw [hx]; rfl, hrest⟩
  · exact splits_three (by simp) (fun _ => rfl) (by omega) (by decide) (fun _ => by decide) (by omega)
      hafter
  · exact splits_three (by simp) (fun _ => rfl) (by omega) (by decide) (by omega) (fun _ => by decide)
      hafter
  · exact splits_three (by simp) (fun _ => rfl) (by omega) (by decide) (by omega) (by omega) hafter
  · exact splits_four (by simp) (fun _ => rfl) (by omega) (by decide) (fun _ => by decide) (by omega)
      hafter
  · exact splits_four (by simp) (fun _ => rfl) (by omega) (by decide) (by omega) (by omega) hafter
  · exact splits_four (by simp) (fun _ => rfl) (by omega) (by decide) (by omega) (fun _ => by decide)
      hafter

theorem encode_cons (x : Char) (chars : List Char) :
    encode (String.ofList (x :: chars)) = String.utf8EncodeChar x ++ encode (String.ofList chars) := by
  simp [encode]

/-- Character by character, accepted bytes are read to their end. -/
theorem exists_encode_of_after (bytes : Bytes) (h : State.between.after bytes = some .between) :
    ∃ text, encode text = bytes := by
  induction hn : bytes.length using Nat.strong_induction_on generalizing bytes with
  | _ n ih =>
    cases bytes with
    | nil => exact ⟨"", by decide⟩
    | cons a bytes =>
      obtain ⟨x, rest, hsplit, hrest⟩ := splits_of_after h
      have hshort : rest.length < n := by
        rw [← hn, hsplit, List.length_append]
        have := x.utf8Size_pos
        have := String.length_utf8EncodeChar x
        omega
      obtain ⟨text, htext⟩ := ih rest.length hshort rest hrest rfl
      refine ⟨String.ofList (x :: text.toList), ?_⟩
      rw [encode_cons, String.ofList_toList, htext, hsplit]

/-- **The automaton accepts exactly the bytes of texts.** -/
theorem valid_iff (bytes : Bytes) : valid bytes = true ↔ ∃ text, encode text = bytes := by
  rw [valid, beq_iff_eq]
  refine ⟨exists_encode_of_after bytes, ?_⟩
  rintro ⟨text, rfl⟩
  exact State.after_encode text

/-! ## 2. Bytes that can be continued -/

/-- The shortest way back between characters. -/
def State.ending : State → Bytes
  | .between => []
  | .one => [0x80]
  | .two | .afterED => [0x80, 0x80]
  | .afterE0 => [0xA0, 0x80]
  | .three | .afterF4 => [0x80, 0x80, 0x80]
  | .afterF0 => [0x90, 0x80, 0x80]

/-- No state is a dead end. -/
theorem State.after_ending (s : State) : s.after s.ending = some .between := by
  cases s <;> decide

/-- **Bytes are not refused exactly if they can be continued to the bytes of a text.** -/
theorem extendable_iff (bytes : Bytes) :
    extendable bytes = true ↔ ∃ rest text, encode text = bytes ++ rest := by
  simp only [← valid_iff, valid, beq_iff_eq, State.after_append]
  rw [extendable, Option.isSome_iff_exists]
  constructor
  · rintro ⟨s, hs⟩
    refine ⟨s.ending, ?_⟩
    rw [hs, Option.bind_some, s.after_ending]
  · rintro ⟨rest, hrest⟩
    obtain ⟨s, hs, -⟩ := Option.bind_eq_some_iff.mp hrest
    exact ⟨s, hs⟩

end Utf8

/-! ## 3. The sniffer -/

namespace Builtin

variable {μ : Type}

theorem looksLikeText_iff (head : Bytes) :
    looksLikeText head = true ↔ 0 ∉ head ∧ ∃ rest text, Utf8.encode text = head ++ rest := by
  rw [looksLikeText, Bool.and_eq_true, Utf8.extendable_iff]
  simp

/-- Wherever the bytes of a text are cut, what is in front of the cut can be continued. -/
theorem looksLikeText_take (text : String) (n : Nat) (h : 0 ∉ (Utf8.encode text).take n) :
    looksLikeText ((Utf8.encode text).take n) = true :=
  (looksLikeText_iff _).mpr ⟨h, _, text, (List.take_append_drop n _).symm⟩

theorem headOf_of_read {context : Context} {n : Node μ} {content : Bytes}
    (h : Context.locate n.id >>= context.read = .ok content) :
    headOf context n = .ok (content.take sniffLimit) := by
  unfold headOf
  cases hl : Context.locate n.id with
  | error e =>
    rw [hl] at h
    cases h
  | ok l =>
    rw [hl] at h
    have hread : context.stream l >>= Stream.readAll = .ok content := h
    cases hstream : context.stream l with
    | error e =>
      rw [hstream] at hread
      cases hread
    | ok opened =>
      rw [hstream] at hread
      cases opened with
      | directory => cases hread
      | bytes read =>
        cases hread
        show context.stream l >>= Stream.head sniffLimit = _
        rw [hstream]
        rfl

/-- **The bytes of a text are found to be text.** -/
theorem inspect_sniffer {context : Context} {n : Node μ} {text : String}
    (hread : Context.locate n.id >>= context.read = .ok (Utf8.encode text))
    (hnul : 0 ∉ (Utf8.encode text).take sniffLimit) :
    sniffer.inspect context n = { findings := Findings.tag {} n.id textTag, verdict := .done } := by
  have htext := looksLikeText_take text sniffLimit hnul
  simp only [sniffer, headOf_of_read hread, htext, if_true]

/-- A stored file that the sniffer has not looked at yet, and can. -/
structure AwaitsSniffing (s : Store μ) (n : Node μ) : Prop where
  stored : s.node? n.id = some n
  file : n.kind = fileKind
  resource : n.hasTag resourceTag = true
  unfinished : s.ledger.contains ⟨(sniffer (μ := μ)).name, n.id⟩ = false

section Pass

variable {active : List (Run.Active Context μ)} {context : Context} {s : Store μ} {n : Node μ}
  {text : String}

/-- A file that awaits the sniffer is on the agenda of a pass with the sniffer in it. -/
theorem AwaitsSniffing.mem_agenda (h : AwaitsSniffing s n) (hs : s.Keyed) {x : Run.Active Context μ}
    (hx : x ∈ active) (hsniffer : x.analyzer = sniffer) :
    (⟨x, n⟩ : Run.Task Context μ) ∈ Run.agenda active s := by
  refine (Run.mem_agenda hs).mpr ⟨hx, h.stored, ?_, ?_⟩
  · simp [hsniffer, Analyzer.targetsKind, sniffer, h.file]
  · rw [Run.Task.pair, hsniffer]
    exact h.unfinished

/-- A pass with the sniffer in it looks at every file that awaits it. -/
theorem exists_sniffed (hs : s.Keyed) {x : Run.Active Context μ} (hx : x ∈ active)
    (hsniffer : x.analyzer = sniffer) (h : AwaitsSniffing s n)
    (hread : Context.locate n.id >>= context.read = .ok (Utf8.encode text))
    (hnul : 0 ∉ (Utf8.encode text).take sniffLimit) :
    ∃ c ∈ Run.finishing active context s, c.pair = ⟨(sniffer (μ := μ)).name, n.id⟩ ∧
      c.outcome = .ran ∧ c.findings = Findings.tag {} n.id textTag := by
  have htags : n.hasAllTags (sniffer (μ := μ)).contract.consumes.members = true := by
    refine List.all_eq_true.mpr fun tag htag => ?_
    rw [KeySet.mem_members] at htag
    have hmem := (KeySet.contains_ofMembers [resourceTag] tag).mp htag
    rw [List.mem_singleton.mp hmem]
    exact h.resource
  have hevaluate : Run.evaluate context ⟨x, n⟩ =
      .finished ((⟨x, n⟩ : Run.Task Context μ).finish .ran (Findings.tag {} n.id textTag) none) false := by
    have hsupports : (sniffer (μ := μ)).supports n = .ok true := rfl
    simp only [Run.evaluate, hsniffer, htags, hsupports, inspect_sniffer hread hnul]
    rfl
  refine ⟨_, Run.mem_completions.mpr ⟨_, h.mem_agenda hs hx hsniffer, by rw [hevaluate]; rfl⟩, ?_, rfl,
    rfl⟩
  rw [← hsniffer]
  rfl

variable [Measure μ]

theorem hasTag_text_advance (hs : s.Keyed) {x : Run.Active Context μ} (hx : x ∈ active)
    (hsniffer : x.analyzer = sniffer) (h : AwaitsSniffing s n)
    (hread : Context.locate n.id >>= context.read = .ok (Utf8.encode text))
    (hnul : 0 ∉ (Utf8.encode text).take sniffLimit) (number : Nat) :
    ∃ m, (Run.advance active context number s).node? n.id = some m ∧ m.hasTag textTag = true := by
  obtain ⟨c, hc, -, -, hfindings⟩ := exists_sniffed hs hx hsniffer h hread hnul
  obtain ⟨m, hm, -⟩ := (Commit.keptIn_committed hs (Run.finishing active context s) number).nodes _ _ h.stored
  refine ⟨m, hm, (Commit.hasTag_committed hs h.stored hm textTag).mpr (.inr ⟨c, hc, ?_⟩)⟩
  rw [Completion.exists_marks, hfindings]
  exact .inr (Findings.gives_tag.mpr (.inl ⟨rfl, rfl⟩))

end Pass

end Builtin

open Builtin

/-- **Sniffing is exact.**  Bytes look like text exactly if none of them is NUL and they can be continued
to the bytes of a text.  So in every run in which the sniffer takes part, whatever else does, a file that
a pass finds with the sniffer's work still to be done is found to be text by that pass, without error, if
its content is that of a text and has no NUL in its first 8192 bytes, wherever these end inside a
character; and it has the tag when the run is over. -/
theorem text_sniffed_exactly {μ : Type} [Measure μ] :
    (∀ head : Bytes, looksLikeText head = true ↔
      0 ∉ head ∧ ∃ rest text, Utf8.encode text = head ++ rest) ∧
    ∀ (roster : Roster Context μ) (context : Context) (limits : Limits) (stop : Nat → Bool)
      (σ σ' : State μ) (report : Report) (trace : Trace μ), σ.store.Keyed →
      Run.TakesPart roster context limits sniffer →
      Returns (runTraced roster context limits stop) σ (report, trace) σ' →
      ∀ log ∈ trace.passes, ∀ n, AwaitsSniffing log.store n →
      ∀ text, Context.locate n.id >>= context.read = .ok (Utf8.encode text) →
      0 ∉ (Utf8.encode text).take 8192 →
        (∃ c ∈ log.completions, c.pair = ⟨(sniffer (μ := μ)).name, n.id⟩ ∧ c.outcome = .ran ∧
          c.findings = Findings.tag {} n.id "text") ∧
        ∃ m, σ'.store.node? n.id = some m ∧ m.hasTag "text" = true := by
  refine ⟨looksLikeText_iff, ?_⟩
  intro roster context limits stop σ σ' report trace hs hsniffs hrun log hlog n hn text hread hnul
  obtain ⟨x, hx, hsniffer⟩ := Run.exists_active.mpr hsniffs
  obtain ⟨rfl, hstore, -⟩ := returns_runTraced hs hrun
  obtain ⟨i, hi, rfl⟩ := List.mem_map.mp hlog
  have hkeyed : (Run.after (Run.active roster context limits) context σ.store i).Keyed :=
    Run.keyed_after hs i
  refine ⟨exists_sniffed hkeyed hx hsniffer hn hread hnul, ?_⟩
  obtain ⟨m, hm, htag⟩ := hasTag_text_advance hkeyed hx hsniffer hn hread hnul (i + 1)
  rw [← Run.after_succ] at hm
  obtain ⟨m', hm', hkept⟩ :=
    (Run.keptIn_after_of_le hs (List.mem_range.mp hi : i + 1 ≤ _)).nodes _ _ hm
  rw [hstore]
  exact ⟨m', hm', hkept.tags _ htag⟩

/-! ## 4. A file that is cut inside a character -/

/-- The text `aéé…`. -/
def accents (k : Nat) : String := String.ofList ('a' :: List.replicate k 'é')

theorem encode_accents (k : Nat) :
    Utf8.encode (accents k) = 97 :: (List.replicate k [0xC3, 0xA9]).flatten := by
  have hbytes : String.utf8EncodeChar 'a' = [97] ∧ String.utf8EncodeChar 'é' = [0xC3, 0xA9] := by decide
  rw [accents, Utf8.encode_cons, hbytes.1, Utf8.encode, String.toList_ofList, List.flatMap_replicate,
    hbytes.2]
  rfl

theorem length_encode_accents (k : Nat) : (Utf8.encode (accents k)).length = k * 2 + 1 := by
  simp [encode_accents, List.length_flatten]

theorem zero_notMem_encode_accents (k : Nat) : 0 ∉ Utf8.encode (accents k) := by
  rw [encode_accents, List.mem_cons, List.mem_flatten]
  rintro (h | ⟨bytes, hbytes, h⟩)
  · exact absurd h (by decide)
  · rw [List.eq_of_mem_replicate hbytes] at h
    exact absurd h (by decide)

/-- A file system with the bytes of a text in `f`. -/
def noteShelf (text : String) : FileSystem where
  root := .directory [("f", .file (Utf8.encode text) ⟨0⟩)] ⟨0⟩

theorem read_noteShelf (text : String) :
    Context.locate "file:/f" >>= Context.read { settings := {}, files := noteShelf text } =
      .ok (Utf8.encode text) := by
  have hplain : (noteShelf text).root.Plain := by
    refine FileSystem.Item.plain_directory _ ?_
    simp only [List.forall_mem_cons, List.not_mem_nil, false_implies, implies_true, and_true]
    exact ⟨by decide, FileSystem.Item.plain_file _ _⟩
  have hitem : (noteShelf text).item? (Path.text ⟨.root, ["f"].reverse⟩) = _ :=
    FileSystem.item?_of_at? rfl hplain rfl ⟨by decide +kernel, by decide +kernel, by decide +kernel⟩
  have hlocate : Context.locate "file:/f" = .ok ⟨Location.fileScheme, ⟨.root, ["f"]⟩, none⟩ := by
    decide +kernel
  rw [hlocate]
  have hpath : Path.Plain ⟨.root, ["f"]⟩ := Path.plain_ofText "/f"
  exact (Stands.inFiles hpath (FileSystem.Item.plain_file _ _) hitem).read

/-- The node of that file, and storage that has nothing else. -/
def noteNode : Node Float := (Node.new "file:/f" fileKind).tag resourceTag

def noteState : State Float := { store := Store.empty.mergeNodes [noteNode] }

theorem awaitsSniffing_noteNode : AwaitsSniffing noteState.store noteNode where
  stored := rfl
  file := rfl
  resource := by decide +kernel
  unfinished := by decide +kernel

/-- The surroundings of a run over that file, in which the sniffer is alone. -/
def noteContext : Context := { settings := {}, files := noteShelf (accents 4096) }

def noteRoster : Roster Context Float := ⟨[sniffer]⟩

def noteLimits : Limits := { maxPasses := 9, batchSize := 9 }

/-- A file of 8193 bytes: the first 8192 end inside its last character, and it is text. -/
theorem text_sniffed_exactly_cut :
    (Utf8.encode (accents 4096)).length = 8193 ∧
    ∃ report trace σ',
      Returns (runTraced noteRoster noteContext noteLimits fun _ => false) noteState (report, trace) σ' ∧
      ∃ m, σ'.store.node? "file:/f" = some m ∧ m.hasTag "text" = true := by
  refine ⟨length_encode_accents 4096, ?_⟩
  have hs : noteState.store.Keyed := Store.keyed_empty.mergeNodes _
  have hsniffs : Run.TakesPart noteRoster noteContext noteLimits sniffer :=
    ⟨List.mem_singleton.mpr rfl, rfl, rfl⟩
  obtain ⟨x, hx, hsniffer⟩ := Run.exists_active.mpr hsniffs
  have hbusy := List.ne_nil_of_mem (awaitsSniffing_noteNode.mem_agenda hs hx hsniffer)
  obtain ⟨report, σ', hrun⟩ := exists_returns_run noteRoster noteContext noteLimits (fun _ => false) hs
    fun _ _ _ => rfl
  obtain ⟨trace, htraced⟩ := returns_run_iff.mp hrun
  refine ⟨report, trace, σ', htraced, ?_⟩
  -- nothing stops the run before its first pass, which finds the file
  have hpass : 0 < report.passes.length := by
    rw [(course_of_returns_run noteRoster noteContext _ _ hs hrun).1, List.length_reverse]
    exact Run.length_lt_course _ noteContext noteLimits (fun _ => false) 8
      (Run.start noteRoster noteContext noteLimits noteState.store) noteState.core rfl hbusy
  have hlog : Run.passLog (Run.active noteRoster noteContext noteLimits) noteContext noteState.store 0 ∈
      trace.passes := by
    rw [(returns_runTraced hs htraced).1]
    exact List.mem_map_of_mem (List.mem_range.mpr hpass)
  exact (text_sniffed_exactly.2 _ _ _ _ _ _ _ _ hs hsniffs htraced _ hlog noteNode
    awaitsSniffing_noteNode (accents 4096) (read_noteShelf _)
    fun h => zero_notMem_encode_accents 4096 (List.mem_of_mem_take h)).2

end FactGraph
