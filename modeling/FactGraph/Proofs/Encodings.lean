import FactGraph.Text.Percent
import Mathlib

/-!
# Writing text as bytes and as percent sequences

Both encodings can be read back.  The decoder is forgiving, so reading back needs an argument about
the automaton: fed with the bytes of one character, it passes through states in which the next of
these bytes can stand, and comes back between two characters with exactly that character added.

A percent sequence is made of characters that are never written as one, and a character that is
written as itself is one byte.  So no `!` is ever written, and a slash stands for a slash only: this is
what lets a URI be cut before it is read.

Main statements: `Utf8.decodeLossy_encode`, `Percent.unescape_escape`, `Percent.escapeChar_cases`.
-/

namespace FactGraph

/-! ## 1. UTF-8 -/

namespace Utf8

theorem within_eq_true {lo hi b : UInt8} :
    within lo hi b = true ↔ lo.toNat ≤ b.toNat ∧ b.toNat ≤ hi.toNat := by
  simp [within, UInt8.le_iff_toNat_le]

/-- The continuation byte with the low six bits of a number. -/
def continuation (n : Nat) : UInt8 := UInt8.ofNat (n % 64 + 128)

theorem toNat_continuation (n : Nat) : (continuation n).toNat = n % 64 + 128 :=
  UInt8.toNat_ofNat_of_lt' (by simp only [UInt8.size]; omega)

/-- The bytes of a character, by its number. -/
theorem utf8EncodeChar_eq (c : Char) :
    String.utf8EncodeChar c =
      if c.toNat ≤ 0x7F then [UInt8.ofNat c.toNat]
      else if c.toNat ≤ 0x7FF then
        [UInt8.ofNat (c.toNat / 64 % 32 + 192), continuation c.toNat]
      else if c.toNat ≤ 0xFFFF then
        [UInt8.ofNat (c.toNat / 4096 % 16 + 224), continuation (c.toNat / 64),
          continuation c.toNat]
      else
        [UInt8.ofNat (c.toNat / 262144 % 8 + 240), continuation (c.toNat / 4096),
          continuation (c.toNat / 64), continuation c.toNat] := rfl

theorem State.bits_continuation {s : State} (hs : s ≠ .between) (code n : Nat) :
    s.bits code (continuation n) = code * 64 + n % 64 := by
  have h : s.bits code (continuation n) = code * 64 + ((continuation n).toNat - 0x80) := by
    cases s with
    | between => contradiction
    | one | two | three | afterE0 | afterED | afterF0 | afterF4 => rfl
  rw [h, toNat_continuation, Nat.add_sub_cancel]

theorem within_continuation (n : Nat) : within 0x80 0xBF (continuation n) = true := by
  rw [within_eq_true, toNat_continuation]
  constructor
  · simp
  · simp; omega

namespace Decoder

/-- A byte that stands where it may, in the middle of a character. -/
theorem feed_of_next {s s' : State} {b : UInt8} (hs : s ≠ .between) (h : s.next b = some s')
    (hs' : s' ≠ .between) (code : Nat) (text : List Char) :
    feed ⟨s, code, text⟩ b = ⟨s', s.bits code b, text⟩ := by
  unfold feed
  cases s <;> simp_all

theorem feed_one (n code : Nat) (text : List Char) :
    feed ⟨.one, code, text⟩ (continuation n) =
      ⟨.between, 0, Char.ofNat (code * 64 + n % 64) :: text⟩ := by
  have h := within_continuation n
  simp [feed, State.next, h, State.bits_continuation]

theorem feed_between {s : State} {b : UInt8} (h : State.lead b = some s) (hs : s ≠ .between)
    (code : Nat) (text : List Char) :
    feed ⟨.between, code, text⟩ b = ⟨s, State.between.bits 0 b, text⟩ := by
  cases s <;> simp_all [feed, start]

end Decoder

/-- The lead bytes by their numbers. -/
theorem State.lead_eq (b : UInt8) :
    State.lead b =
      if b.toNat ≤ 0x7F then some .between
      else if 0xC2 ≤ b.toNat ∧ b.toNat ≤ 0xDF then some .one
      else if b.toNat = 0xE0 then some .afterE0
      else if b.toNat = 0xED then some .afterED
      else if 0xE1 ≤ b.toNat ∧ b.toNat ≤ 0xEF then some .two
      else if b.toNat = 0xF0 then some .afterF0
      else if 0xF1 ≤ b.toNat ∧ b.toNat ≤ 0xF3 then some .three
      else if b.toNat = 0xF4 then some .afterF4
      else none := by
  simp [State.lead, within_eq_true, ← UInt8.toNat_inj]

/-- The first byte of three, and what may follow it. -/
theorem exists_lead_three {v : Nat} (h : 0x800 ≤ v) (h' : v ≤ 0xFFFF)
    (hs : v < 0xD800 ∨ 0xDFFF < v) :
    ∃ s, State.lead (UInt8.ofNat (v / 4096 % 16 + 224)) = some s ∧ s ≠ .between ∧
      s.next (continuation (v / 64)) = some .one := by
  have hb : (UInt8.ofNat (v / 4096 % 16 + 224)).toNat = v / 4096 % 16 + 224 :=
    UInt8.toNat_ofNat_of_lt' (by simp only [UInt8.size]; omega)
  have hc := toNat_continuation (v / 64)
  rw [State.lead_eq, hb, if_neg (by omega), if_neg (by omega)]
  by_cases h0 : v / 4096 = 0
  · -- Below U+1000 the second byte carries bit 11 or bit 10, so the form is not overlong.
    refine ⟨.afterE0, by rw [if_pos (by omega)], by simp, ?_⟩
    rw [State.next, if_pos (within_eq_true.2 _)]
    simp only [hc, UInt8.reduceToNat]
    omega
  by_cases hD : v / 4096 = 0xD
  · refine ⟨.afterED, by rw [if_neg (by omega), if_pos (by omega)], by simp, ?_⟩
    rw [State.next, if_pos (within_eq_true.2 _)]
    simp only [hc, UInt8.reduceToNat]
    omega
  · refine ⟨.two, by rw [if_neg (by omega), if_neg (by omega), if_pos (by omega)], by simp, ?_⟩
    rw [State.next, if_pos (within_continuation _)]

/-- The first byte of four, and what may follow it. -/
theorem exists_lead_four {v : Nat} (h : 0x10000 ≤ v) (h' : v < 0x110000) :
    ∃ s, State.lead (UInt8.ofNat (v / 262144 % 8 + 240)) = some s ∧ s ≠ .between ∧
      s.next (continuation (v / 4096)) = some .two := by
  have hb : (UInt8.ofNat (v / 262144 % 8 + 240)).toNat = v / 262144 % 8 + 240 :=
    UInt8.toNat_ofNat_of_lt' (by simp only [UInt8.size]; omega)
  have hc := toNat_continuation (v / 4096)
  rw [State.lead_eq, hb, if_neg (by omega), if_neg (by omega), if_neg (by omega), if_neg (by omega),
    if_neg (by omega)]
  by_cases h0 : v / 262144 = 0
  · refine ⟨.afterF0, by rw [if_pos (by omega)], by simp, ?_⟩
    rw [State.next, if_pos (within_eq_true.2 _)]
    simp only [hc, UInt8.reduceToNat]
    omega
  by_cases h4 : v / 262144 = 4
  · refine ⟨.afterF4, by rw [if_neg (by omega), if_neg (by omega), if_pos (by omega)], by simp, ?_⟩
    rw [State.next, if_pos (within_eq_true.2 _)]
    simp only [hc, UInt8.reduceToNat]
    omega
  · refine ⟨.three, by rw [if_neg (by omega), if_pos (by omega)], by simp, ?_⟩
    rw [State.next, if_pos (within_continuation _)]

/-- The bits that a lead byte carries, by its number. -/
theorem State.bits_between (code : Nat) (b : UInt8) :
    State.between.bits code b =
      if b.toNat < 0x80 then b.toNat
      else if b.toNat < 0xE0 then b.toNat - 0xC0
      else if b.toNat < 0xF0 then b.toNat - 0xE0
      else b.toNat - 0xF0 := by
  have h : State.between.bits code b =
      if b < 0x80 then b.toNat
      else if b < 0xE0 then b.toNat - 0xC0
      else if b < 0xF0 then b.toNat - 0xE0
      else b.toNat - 0xF0 := rfl
  simp only [h, UInt8.lt_iff_toNat_lt, UInt8.reduceToNat]

namespace Decoder

theorem feed_ascii {v : Nat} (h : v ≤ 0x7F) (text : List Char) :
    feed ⟨.between, 0, text⟩ (UInt8.ofNat v) = ⟨.between, 0, Char.ofNat v :: text⟩ := by
  have hb : (UInt8.ofNat v).toNat = v := UInt8.toNat_ofNat_of_lt' (by simp only [UInt8.size]; omega)
  have hl : State.lead (UInt8.ofNat v) = some .between := by rw [State.lead_eq, hb, if_pos h]
  simp only [feed, start, hl, hb]

theorem foldl_feed_two {v : Nat} (h : 0x80 ≤ v) (h' : v ≤ 0x7FF) (text : List Char) :
    [UInt8.ofNat (v / 64 % 32 + 192), continuation v].foldl feed ⟨.between, 0, text⟩ =
      ⟨.between, 0, Char.ofNat v :: text⟩ := by
  have hb : (UInt8.ofNat (v / 64 % 32 + 192)).toNat = v / 64 % 32 + 192 :=
    UInt8.toNat_ofNat_of_lt' (by simp only [UInt8.size]; omega)
  have hl : State.lead (UInt8.ofNat (v / 64 % 32 + 192)) = some .one := by
    rw [State.lead_eq, hb, if_neg (by omega), if_pos (by omega)]
  have hcode : (v / 64 % 32 + 192 - 0xC0) * 64 + v % 64 = v := by omega
  rw [List.foldl_cons, feed_between hl (by simp), State.bits_between, hb, if_neg (by omega),
    if_pos (by omega), List.foldl_cons, feed_one, hcode, List.foldl_nil]

theorem foldl_feed_three {v : Nat} (h : 0x800 ≤ v) (h' : v ≤ 0xFFFF)
    (hs : v < 0xD800 ∨ 0xDFFF < v) (text : List Char) :
    [UInt8.ofNat (v / 4096 % 16 + 224), continuation (v / 64), continuation v].foldl feed
        ⟨.between, 0, text⟩ = ⟨.between, 0, Char.ofNat v :: text⟩ := by
  have hb : (UInt8.ofNat (v / 4096 % 16 + 224)).toNat = v / 4096 % 16 + 224 :=
    UInt8.toNat_ofNat_of_lt' (by simp only [UInt8.size]; omega)
  obtain ⟨s, hl, hne, hnext⟩ := exists_lead_three h h' hs
  have hcode : ((v / 4096 % 16 + 224 - 0xE0) * 64 + v / 64 % 64) * 64 + v % 64 = v := by omega
  rw [List.foldl_cons, feed_between hl hne, State.bits_between, hb, if_neg (by omega),
    if_neg (by omega), if_pos (by omega), List.foldl_cons, feed_of_next hne hnext (by simp),
    State.bits_continuation hne, List.foldl_cons, feed_one, hcode, List.foldl_nil]

theorem foldl_feed_four {v : Nat} (h : 0x10000 ≤ v) (h' : v < 0x110000) (text : List Char) :
    [UInt8.ofNat (v / 262144 % 8 + 240), continuation (v / 4096), continuation (v / 64),
        continuation v].foldl feed ⟨.between, 0, text⟩ = ⟨.between, 0, Char.ofNat v :: text⟩ := by
  have hb : (UInt8.ofNat (v / 262144 % 8 + 240)).toNat = v / 262144 % 8 + 240 :=
    UInt8.toNat_ofNat_of_lt' (by simp only [UInt8.size]; omega)
  obtain ⟨s, hl, hne, hnext⟩ := exists_lead_four h h'
  have htwo : State.two.next (continuation (v / 64)) = some .one := by
    rw [State.next, if_pos (within_continuation _)]
  have hcode : (((v / 262144 % 8 + 240 - 0xF0) * 64 + v / 4096 % 64) * 64 + v / 64 % 64) * 64 +
      v % 64 = v := by omega
  rw [List.foldl_cons, feed_between hl hne, State.bits_between, hb, if_neg (by omega),
    if_neg (by omega), if_neg (by omega), List.foldl_cons, feed_of_next hne hnext (by simp),
    State.bits_continuation hne, List.foldl_cons, feed_of_next (by simp) htwo (by simp),
    State.bits_continuation (by simp), List.foldl_cons, feed_one, hcode, List.foldl_nil]

/-- The bytes of one character add exactly that character. -/
theorem foldl_feed_utf8EncodeChar (c : Char) (text : List Char) :
    (String.utf8EncodeChar c).foldl feed ⟨.between, 0, text⟩ = ⟨.between, 0, c :: text⟩ := by
  have hv : c.toNat < 0xD800 ∨ 0xDFFF < c.toNat ∧ c.toNat < 0x110000 := c.valid
  have hc : Char.ofNat c.toNat = c := Char.ofNat_toNat c
  rw [utf8EncodeChar_eq]
  split_ifs with h1 h2 h3
  · rw [List.foldl_cons, feed_ascii h1, hc, List.foldl_nil]
  · exact (foldl_feed_two (by omega) h2 text).trans (by rw [hc])
  · exact (foldl_feed_three (by omega) h3 (by omega) text).trans (by rw [hc])
  · exact (foldl_feed_four (by omega) (by omega) text).trans (by rw [hc])

theorem foldl_feed_encode (chars text : List Char) :
    (chars.flatMap String.utf8EncodeChar).foldl feed ⟨.between, 0, text⟩ =
      ⟨.between, 0, chars.reverse ++ text⟩ := by
  induction chars generalizing text with
  | nil => rfl
  | cons c rest ih =>
    rw [List.flatMap_cons, List.foldl_append, foldl_feed_utf8EncodeChar, ih]
    simp

end Decoder

/-- **Bytes of a text are read back as that text.** -/
theorem decodeLossy_encode (text : String) : decodeLossy (encode text) = text := by
  rw [decodeLossy, encode, Decoder.foldl_feed_encode]
  simp [Decoder.finish]

theorem length_append (a b : String) : length (a ++ b) = length a + length b := by
  simp [length, encode]

theorem length_slash : length "/" = 1 := by decide

end Utf8

/-! ## 2. Percent sequences -/

namespace Percent

open Utf8

/-- The hexadecimal digits that are written. -/
def digits : List Char := "0123456789ABCDEF".toList

theorem hexDigit_mem_digits {n : Nat} (h : n < 16) : hexDigit n ∈ digits := by
  interval_cases n <;> decide

/-- A written digit is one byte and has its value back. -/
theorem exists_utf8EncodeChar_hexDigit {n : Nat} (h : n < 16) :
    ∃ b, String.utf8EncodeChar (hexDigit n) = [b] ∧ hexValue? b = some n := by
  interval_cases n <;> exact ⟨_, rfl, by decide⟩

theorem unescapeBytes_cons {b : UInt8} (h : b ≠ 0x25) (rest : Bytes) :
    unescapeBytes (b :: rest) = b :: unescapeBytes rest := by
  rw [unescapeBytes]
  simp [h]

/-- What is written for one byte is read back as that byte. -/
theorem unescapeBytes_escapeByte (b : UInt8) (rest : Bytes) :
    unescapeBytes ((escapeByte b).flatMap String.utf8EncodeChar ++ rest) =
      b :: unescapeBytes rest := by
  have hb : b.toNat < 256 := b.toNat_lt
  rw [escapeByte]
  split_ifs with h
  · obtain ⟨hi, hhi, vhi⟩ := exists_utf8EncodeChar_hexDigit (n := b.toNat / 16) (by omega)
    obtain ⟨lo, hlo, vlo⟩ := exists_utf8EncodeChar_hexDigit (n := b.toNat % 16) (by omega)
    have hp : String.utf8EncodeChar '%' = [0x25] := by decide
    simp only [List.flatMap_cons, List.flatMap_nil, hp, hhi, hlo, List.cons_append, List.nil_append,
      unescapeBytes, vhi, vlo]
    rw [Nat.div_add_mod, UInt8.ofNat_toNat]
  · simp only [reserved, Bool.or_eq_true, beq_iff_eq, decide_eq_true_eq, not_or, UInt8.not_lt,
      UInt8.not_le] at h
    obtain ⟨⟨⟨hne, -⟩, -⟩, hlt⟩ := h
    have hlt' : b.toNat < 0x7F := UInt8.lt_iff_toNat_lt.1 hlt
    have hn : (Char.ofNat b.toNat).toNat = b.toNat := by
      rw [Char.toNat_ofNat, if_pos (.inl (by omega))]
    have henc : String.utf8EncodeChar (Char.ofNat b.toNat) = [b] := by
      rw [utf8EncodeChar_eq, hn, if_pos (by omega), UInt8.ofNat_toNat]
    simp only [List.flatMap_cons, List.flatMap_nil, henc, List.cons_append, List.nil_append]
    exact unescapeBytes_cons hne rest

theorem unescapeBytes_flatMap_escapeByte (bytes : Bytes) :
    unescapeBytes ((bytes.flatMap escapeByte).flatMap String.utf8EncodeChar) = bytes := by
  induction bytes with
  | nil => rfl
  | cons b rest ih =>
    rw [List.flatMap_cons, List.flatMap_append, unescapeBytes_escapeByte, ih]

/-- **What is written is read back.** -/
theorem unescape_escape (text : String) : unescape (escape text) = text := by
  rw [unescape, escape, encode, String.toList_ofList, unescapeBytes_flatMap_escapeByte,
    decodeLossy_encode]

theorem escape_injective : Function.Injective escape :=
  Function.LeftInverse.injective unescape_escape

/-- A text that is written as itself is nothing else's spelling. -/
theorem escape_eq_iff {word : String} (h : escape word = word) {text : String} :
    escape text = word ↔ text = word := by
  rw [← escape_injective.eq_iff (a := text), h]

/-! ## 3. What a written text can hold -/

/-- The characters that stand for one character. -/
def escapeChar (c : Char) : List Char := (String.utf8EncodeChar c).flatMap escapeByte

theorem escape_eq (text : String) : (escape text).toList = text.toList.flatMap escapeChar := by
  rw [escape, encode, String.toList_ofList, List.flatMap_assoc]
  rfl

theorem escapeByte_of_reserved {b : UInt8} (h : reserved b = true) :
    ∀ d ∈ escapeByte b, d = '%' ∨ d ∈ digits := by
  have hb : b.toNat < 256 := b.toNat_lt
  intro d hd
  simp only [escapeByte, h, if_true, List.mem_cons, List.not_mem_nil, or_false] at hd
  rcases hd with rfl | rfl | rfl
  · exact .inl rfl
  · exact .inr (hexDigit_mem_digits (by omega))
  · exact .inr (hexDigit_mem_digits (by omega))

/-- The bytes of a character that is not ASCII are not ASCII. -/
theorem reserved_of_mem_utf8EncodeChar {c : Char} (h : 0x7F < c.toNat) {b : UInt8}
    (hb : b ∈ String.utf8EncodeChar c) : reserved b = true := by
  suffices hn : 0x7F ≤ b.toNat by simp [reserved, UInt8.le_iff_toNat_le, hn]
  have hcont (n : Nat) : 0x7F ≤ (continuation n).toNat := by rw [toNat_continuation]; omega
  have hlead (n : Nat) (h : 0x7F ≤ n) (h' : n < 256) : 0x7F ≤ (UInt8.ofNat n).toNat := by
    rwa [UInt8.toNat_ofNat_of_lt' h']
  rw [utf8EncodeChar_eq, if_neg (by omega)] at hb
  split_ifs at hb with h2 h3
  · rcases List.mem_pair.1 hb with rfl | rfl
    · exact hlead _ (by omega) (by omega)
    · exact hcont _
  · simp only [List.mem_cons, List.not_mem_nil, or_false] at hb
    rcases hb with rfl | rfl | rfl
    · exact hlead _ (by omega) (by omega)
    · exact hcont _
    · exact hcont _
  · simp only [List.mem_cons, List.not_mem_nil, or_false] at hb
    rcases hb with rfl | rfl | rfl | rfl
    · exact hlead _ (by omega) (by omega)
    · exact hcont _
    · exact hcont _
    · exact hcont _

/-- A character is written as itself, or with percent signs and digits only. -/
theorem escapeChar_cases (c : Char) :
    (escapeChar c = [c] ∧ c ≠ '!') ∨
      (escapeChar c ≠ [] ∧ ∀ d ∈ escapeChar c, d = '%' ∨ d ∈ digits) := by
  rw [escapeChar]
  by_cases h : 0x7F < c.toNat
  · refine .inr ⟨?_, fun d hd => ?_⟩
    · have hne : String.utf8EncodeChar c ≠ [] := by simp
      obtain ⟨b, rest, hb⟩ := List.exists_cons_of_ne_nil hne
      rw [hb, List.flatMap_cons, escapeByte,
        if_pos (reserved_of_mem_utf8EncodeChar h (hb ▸ List.mem_cons_self))]
      simp
    · obtain ⟨b, hb, hd⟩ := List.mem_flatMap.1 hd
      exact escapeByte_of_reserved (reserved_of_mem_utf8EncodeChar h hb) d hd
  · rw [utf8EncodeChar_eq, if_pos (by omega), List.flatMap_cons, List.flatMap_nil, List.append_nil]
    cases hr : reserved (UInt8.ofNat c.toNat) with
    | true => exact .inr ⟨by simp [escapeByte, hr], escapeByte_of_reserved hr⟩
    | false =>
      have hn : (UInt8.ofNat c.toNat).toNat = c.toNat :=
        UInt8.toNat_ofNat_of_lt' (by simp only [UInt8.size]; omega)
      refine .inl ⟨by simp [escapeByte, hr, hn], ?_⟩
      rintro rfl
      simp [reserved] at hr

theorem not_mem_escape (text : String) : '!' ∉ (escape text).toList := by
  rw [escape_eq]
  intro h
  obtain ⟨c, -, hd⟩ := List.mem_flatMap.1 h
  rcases escapeChar_cases c with ⟨hc, hne⟩ | ⟨-, hc⟩
  · rw [hc, List.mem_singleton] at hd
    exact hne hd.symm
  · exact absurd (hc _ hd) (by decide)

/-- Only a slash is written as one. -/
theorem head?_flatMap_escapeChar {chars : List Char} (h : chars.head? ≠ some '/') :
    (chars.flatMap escapeChar).head? ≠ some '/' := by
  cases chars with
  | nil => simp
  | cons c rest =>
    rw [List.flatMap_cons]
    rcases escapeChar_cases c with ⟨hc, -⟩ | ⟨hne, hc⟩
    · simpa [hc] using h
    · obtain ⟨d, more, hd⟩ := List.exists_cons_of_ne_nil hne
      rw [hd, List.cons_append, List.head?_cons, Ne, Option.some_inj]
      rintro rfl
      exact absurd (hc '/' (hd ▸ List.mem_cons_self)) (by decide)

end Percent

end FactGraph
