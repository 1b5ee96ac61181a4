import FactGraph.Proofs.Encodings

/-!
# The order of written texts

Texts are ordered by their characters.  What becomes of this order when a text is written?

* As bytes it is KEPT (`Utf8.encode_lt_encode_iff`): a character with a greater number has greater bytes
  at the first place where the two differ, and of two characters of different lengths the longer one has
  the greater first byte.
* As percent sequences it is NOT.  A character is written as itself or as sequences, and a sequence
  starts with a percent sign, wherever the character stands.  So a pair of texts is turned round exactly
  if their first difference is (`Percent.escape_lt_escape_iff`): one of the two characters is written as
  itself, the other as a sequence, and the percent sign does not stand on the right side of the former.
  Two characters that are both written as sequences keep their order, since their bytes and the digits
  of these do.
-/

namespace FactGraph

/-! ## 1. The first difference -/

/-- Two lists differ, and where they first do, the one has the lesser element. -/
def Ahead {α : Type} [LT α] (xs ys : List α) : Prop :=
  ∃ shared a b r s, xs = shared ++ a :: r ∧ ys = shared ++ b :: s ∧ a < b

namespace Ahead

variable {α : Type} [LT α] {xs ys : List α}

theorem head {a b : α} (h : a < b) (r s : List α) : Ahead (a :: r) (b :: s) :=
  ⟨[], a, b, r, s, rfl, rfl, h⟩

theorem append_left (h : Ahead xs ys) (shared : List α) : Ahead (shared ++ xs) (shared ++ ys) := by
  obtain ⟨more, a, b, r, s, rfl, rfl, hlt⟩ := h
  exact ⟨shared ++ more, a, b, r, s, by simp, by simp, hlt⟩

theorem append (h : Ahead xs ys) (u v : List α) : Ahead (xs ++ u) (ys ++ v) := by
  obtain ⟨shared, a, b, r, s, rfl, rfl, hlt⟩ := h
  exact ⟨shared, a, b, r ++ u, s ++ v, by simp, by simp, hlt⟩

theorem lt (h : Ahead xs ys) : xs < ys := by
  obtain ⟨shared, a, b, r, s, rfl, rfl, hlt⟩ := h
  exact List.append_left_lt (List.Lex.rel hlt)

/-- What a difference becomes if every element is replaced by a list. -/
theorem flatMap {β : Type} {f : β → List α} {a b : β} (h : Ahead (f a) (f b)) (shared r s : List β) :
    Ahead ((shared ++ a :: r).flatMap f) ((shared ++ b :: s).flatMap f) := by
  simp only [List.flatMap_append, List.flatMap_cons]
  exact (h.append _ _).append_left _

/-- The lesser of two lists is the beginning of the other, or ahead of it. -/
theorem of_lt (h : xs < ys) : (∃ rest, rest ≠ [] ∧ ys = xs ++ rest) ∨ Ahead xs ys := by
  induction h with
  | nil => exact .inl ⟨_, List.cons_ne_nil _ _, rfl⟩
  | rel hlt => exact .inr (head hlt _ _)
  | @cons a r s _ ih =>
    rcases ih with ⟨rest, hne, rfl⟩ | hahead
    · exact .inl ⟨rest, hne, rfl⟩
    · exact .inr (hahead.append_left [a])

end Ahead

theorem lt_append {α : Type} [LT α] (xs : List α) {rest : List α} (h : rest ≠ []) :
    xs < xs ++ rest := by
  obtain ⟨a, more, rfl⟩ := List.exists_cons_of_ne_nil h
  have hless : xs ++ [] < xs ++ a :: more := List.append_left_lt (List.nil_lt_cons a more)
  rwa [List.append_nil] at hless

/-! ## 2. Bytes -/

namespace Utf8

/-- The bytes in front of the last one carry the rest of a number, and decide first. -/
theorem ahead_continuation {f : Nat → Bytes} {m n : Nat} (h : m < n)
    (hfront : m / 64 < n / 64 → Ahead (f (m / 64)) (f (n / 64))) :
    Ahead (f (m / 64) ++ [continuation m]) (f (n / 64) ++ [continuation n]) := by
  by_cases hq : m / 64 = n / 64
  · rw [hq]
    refine (Ahead.head ?_ [] []).append_left _
    rw [UInt8.lt_iff_toNat_lt, toNat_continuation, toNat_continuation]
    omega
  · exact (hfront (by omega)).append _ _

theorem ahead_ofNat {m n : Nat} (h : m < n) (hn : n < 256) (r s : Bytes) :
    Ahead (UInt8.ofNat m :: r) (UInt8.ofNat n :: s) := by
  refine .head ?_ r s
  rw [UInt8.lt_iff_toNat_lt, UInt8.toNat_ofNat_of_lt' hn, UInt8.toNat_ofNat_of_lt' (h.trans hn)]
  exact h

theorem ahead_two {m n : Nat} (h : m < n) (hn : n ≤ 0x7FF) :
    Ahead ([UInt8.ofNat (m / 64 % 32 + 192)] ++ [continuation m])
      ([UInt8.ofNat (n / 64 % 32 + 192)] ++ [continuation n]) :=
  ahead_continuation (f := fun k => [UInt8.ofNat (k % 32 + 192)]) h fun hq =>
    ahead_ofNat (by omega) (by omega) [] []

theorem ahead_three {m n : Nat} (h : m < n) (hn : n ≤ 0xFFFF) :
    Ahead ([UInt8.ofNat (m / 4096 % 16 + 224)] ++ [continuation (m / 64)] ++ [continuation m])
      ([UInt8.ofNat (n / 4096 % 16 + 224)] ++ [continuation (n / 64)] ++ [continuation n]) := by
  have hlead (k : Nat) : k / 4096 = k / 64 / 64 := by omega
  rw [hlead, hlead]
  refine ahead_continuation (f := fun k => [UInt8.ofNat (k / 64 % 16 + 224)] ++ [continuation k]) h
    fun hq => ?_
  exact ahead_continuation (f := fun k => [UInt8.ofNat (k % 16 + 224)]) hq fun hq' =>
    ahead_ofNat (by omega) (by omega) [] []

theorem ahead_four {m n : Nat} (h : m < n) (hn : n < 0x110000) :
    Ahead ([UInt8.ofNat (m / 262144 % 8 + 240)] ++ [continuation (m / 4096)] ++
        [continuation (m / 64)] ++ [continuation m])
      ([UInt8.ofNat (n / 262144 % 8 + 240)] ++ [continuation (n / 4096)] ++
        [continuation (n / 64)] ++ [continuation n]) := by
  have hlead (k : Nat) : k / 262144 = k / 64 / 64 / 64 := by omega
  have hsecond (k : Nat) : k / 4096 = k / 64 / 64 := by omega
  rw [hlead, hlead, hsecond, hsecond]
  refine ahead_continuation (f := fun k => [UInt8.ofNat (k / 64 / 64 % 8 + 240)] ++
    [continuation (k / 64)] ++ [continuation k]) h fun hq => ?_
  refine ahead_continuation (f := fun k => [UInt8.ofNat (k / 64 % 8 + 240)] ++ [continuation k]) hq
    fun hq' => ?_
  exact ahead_continuation (f := fun k => [UInt8.ofNat (k % 8 + 240)]) hq' fun hq'' =>
    ahead_ofNat (by omega) (by omega) [] []

/-- **Of two characters the greater has the greater bytes.** -/
theorem ahead_utf8EncodeChar {c d : Char} (h : c < d) :
    Ahead (String.utf8EncodeChar c) (String.utf8EncodeChar d) := by
  have hlt : c.toNat < d.toNat := h
  have hd : d.toNat < 0x110000 := d.valid.elim (fun hv => hv.trans (by decide)) And.right
  rw [utf8EncodeChar_eq, utf8EncodeChar_eq]
  generalize c.toNat = m at hlt ⊢
  generalize d.toNat = n at hlt hd ⊢
  -- of two sequences of different lengths the longer one has the greater first byte
  by_cases hd1 : n ≤ 0x7F
  · rw [if_pos (by omega : m ≤ 0x7F), if_pos hd1]
    exact ahead_ofNat hlt (by omega) [] []
  rw [if_neg hd1]
  by_cases hd2 : n ≤ 0x7FF
  · rw [if_pos hd2]
    split_ifs with hc1 hc2
    · exact ahead_ofNat (by omega) (by omega) _ _
    · exact ahead_two hlt hd2
    · omega
    · omega
  rw [if_neg hd2]
  by_cases hd3 : n ≤ 0xFFFF
  · rw [if_pos hd3]
    split_ifs with hc1 hc2 hc3
    · exact ahead_ofNat (by omega) (by omega) _ _
    · exact ahead_ofNat (by omega) (by omega) _ _
    · exact ahead_three hlt hd3
    · omega
  rw [if_neg hd3]
  split_ifs with hc1 hc2 hc3
  · exact ahead_ofNat (by omega) (by omega) _ _
  · exact ahead_ofNat (by omega) (by omega) _ _
  · exact ahead_ofNat (by omega) (by omega) _ _
  · exact ahead_four hlt hd

theorem encode_lt_encode {x y : String} (h : x < y) : encode x < encode y := by
  rw [encode, encode]
  rcases Ahead.of_lt (String.lt_iff_toList_lt.mp h) with
    ⟨rest, hne, hy⟩ | ⟨shared, c, d, r, s, hx, hy, hlt⟩
  · rw [hy, List.flatMap_append]
    exact lt_append _ (by simpa using List.exists_mem_of_ne_nil _ hne)
  · rw [hx, hy]
    exact ((ahead_utf8EncodeChar hlt).flatMap shared r s).lt

/-- **Texts are ordered like their bytes.** -/
theorem encode_lt_encode_iff {x y : String} : encode x < encode y ↔ x < y := by
  refine ⟨fun h => ?_, encode_lt_encode⟩
  rcases lt_trichotomy x y with hlt | rfl | hgt
  · exact hlt
  · exact absurd h (List.lt_irrefl _)
  · exact absurd h (List.lt_asymm (encode_lt_encode hgt))

end Utf8

/-! ## 3. Percent sequences -/

namespace Percent

/-- The character that is written first for a character: itself or a percent sign. -/
def mark (c : Char) : Char := if escapeChar c = [c] then c else '%'

/-- What is written for reserved bytes starts with a percent sign. -/
theorem exists_flatMap_escapeByte {bytes : Bytes} (hne : bytes ≠ [])
    (h : ∀ b ∈ bytes, reserved b = true) : ∃ rest, bytes.flatMap escapeByte = '%' :: rest := by
  obtain ⟨b, more, rfl⟩ := List.exists_cons_of_ne_nil hne
  exact ⟨_, by rw [List.flatMap_cons, escapeByte, if_pos (h b List.mem_cons_self)]; rfl⟩

theorem mark_of_reserved {c : Char} (h : ∀ b ∈ String.utf8EncodeChar c, reserved b = true) :
    mark c = '%' ∧ ∃ rest, escapeChar c = '%' :: rest := by
  obtain ⟨rest, hrest⟩ := exists_flatMap_escapeByte (by simp) h
  rw [← escapeChar] at hrest
  refine ⟨?_, rest, hrest⟩
  rw [mark]
  split_ifs with hself
  · rw [hself] at hrest
    exact (List.cons.inj hrest).1
  · rfl

/-- A character is written as itself, or all its bytes are written as sequences. -/
theorem mark_cases (c : Char) :
    (escapeChar c = [c] ∧ mark c = c ∧ c ≠ '%') ∨
      (mark c = '%' ∧ ∀ b ∈ String.utf8EncodeChar c, reserved b = true) := by
  by_cases h : ∀ b ∈ String.utf8EncodeChar c, reserved b = true
  · exact .inr ⟨(mark_of_reserved h).1, h⟩
  · have hascii : c.toNat ≤ 0x7F := not_lt.mp fun hc =>
      h fun b hb => reserved_of_mem_utf8EncodeChar hc hb
    have hn : (UInt8.ofNat c.toNat).toNat = c.toNat :=
      UInt8.toNat_ofNat_of_lt' (by simp only [UInt8.size]; omega)
    rw [Utf8.utf8EncodeChar_eq, if_pos hascii] at h
    have hr : reserved (UInt8.ofNat c.toNat) = false := by simpa using h
    have hself : escapeChar c = [c] := by
      rw [escapeChar, Utf8.utf8EncodeChar_eq, if_pos hascii]
      simp [escapeByte, hr, hn]
    refine .inl ⟨hself, if_pos hself, ?_⟩
    rintro rfl
    simp [reserved] at hr

theorem exists_escapeChar_eq (c : Char) : ∃ rest, escapeChar c = mark c :: rest := by
  rcases mark_cases c with ⟨hself, hmark, -⟩ | ⟨hmark, hreserved⟩
  · exact ⟨[], by rw [hself, hmark]⟩
  · rw [hmark]
    exact (mark_of_reserved hreserved).2

theorem hexDigit_lt_hexDigit {m n : Nat} (h : m < n) (hn : n < 16) : hexDigit m < hexDigit n := by
  interval_cases n <;> interval_cases m <;> decide

/-- Of two bytes that are written as sequences the greater has the greater digits. -/
theorem ahead_escapeByte {b d : UInt8} (hb : reserved b = true) (hd : reserved d = true) (h : b < d) :
    Ahead (escapeByte b) (escapeByte d) := by
  have hlt : b.toNat < d.toNat := UInt8.lt_iff_toNat_lt.mp h
  have hsize : d.toNat < 256 := d.toNat_lt
  rw [escapeByte, if_pos hb, escapeByte, if_pos hd]
  by_cases hq : b.toNat / 16 = d.toNat / 16
  · rw [hq]
    exact (Ahead.head (hexDigit_lt_hexDigit (by omega) (by omega)) [] []).append_left ['%', _]
  · exact (Ahead.head (hexDigit_lt_hexDigit (by omega) (by omega)) _ _).append_left ['%']

theorem ahead_of_mark_lt {c d : Char} (h : mark c < mark d) : Ahead (escapeChar c) (escapeChar d) := by
  obtain ⟨r, hc⟩ := exists_escapeChar_eq c
  obtain ⟨s, hd⟩ := exists_escapeChar_eq d
  rw [hc, hd]
  exact .head h r s

/-- **Two characters keep their order if what is written first for them does.** -/
theorem ahead_escapeChar {c d : Char} (h : c < d) (hmark : mark c ≤ mark d) :
    Ahead (escapeChar c) (escapeChar d) := by
  rcases hmark.lt_or_eq with hlt | heq
  · exact ahead_of_mark_lt hlt
  -- the same is written first for both, so it is a percent sign, and bytes decide
  rcases mark_cases c with ⟨-, hc, hc'⟩ | ⟨hc, hbytes⟩ <;>
    rcases mark_cases d with ⟨-, hd, hd'⟩ | ⟨hd, hbytes'⟩
  · exact absurd (hc.symm.trans (heq.trans hd)) h.ne
  · exact absurd (hc.symm.trans (heq.trans hd)) hc'
  · exact absurd (hd.symm.trans (heq.symm.trans hc)) hd'
  · obtain ⟨shared, a, b, r, s, hx, hy, hlt⟩ := Utf8.ahead_utf8EncodeChar h
    rw [escapeChar, escapeChar, hx, hy]
    refine Ahead.flatMap (ahead_escapeByte ?_ ?_ hlt) shared r s
    · exact hbytes a (by simp [hx])
    · exact hbytes' b (by simp [hy])

/-- Two texts whose order is turned round by writing them: at their first difference the one that comes
first has the greater character written first. -/
def Inverted (x y : String) : Prop :=
  ∃ shared c d r s, x.toList = shared ++ c :: r ∧ y.toList = shared ++ d :: s ∧ mark d < mark c

theorem Inverted.escape_lt {x y : String} (h : Inverted x y) : escape y < escape x := by
  obtain ⟨shared, c, d, r, s, hx, hy, hmark⟩ := h
  rw [String.lt_iff_toList_lt, escape_eq, escape_eq, hx, hy]
  exact ((ahead_of_mark_lt hmark).flatMap shared s r).lt

/-- **Writing turns round the pairs whose first difference it turns round, and no others.** -/
theorem escape_lt_escape_iff {x y : String} (h : x < y) : escape x < escape y ↔ ¬ Inverted x y := by
  refine ⟨fun hlt hinv => lt_asymm hlt hinv.escape_lt, fun hkept => ?_⟩
  rw [String.lt_iff_toList_lt, escape_eq, escape_eq]
  rcases Ahead.of_lt (String.lt_iff_toList_lt.mp h) with
    ⟨rest, hne, hy⟩ | ⟨shared, c, d, r, s, hx, hy, hlt⟩
  · rw [hy, List.flatMap_append]
    obtain ⟨c, more, rfl⟩ := List.exists_cons_of_ne_nil hne
    obtain ⟨first, hfirst⟩ := exists_escapeChar_eq c
    exact lt_append _ (by simp [hfirst])
  · have hmark : mark c ≤ mark d := not_lt.mp fun hmark => hkept ⟨shared, c, d, r, s, hx, hy, hmark⟩
    rw [hx, hy]
    exact ((ahead_escapeChar hlt hmark).flatMap shared r s).lt

theorem escape_append (x y : String) : escape (x ++ y) = escape x ++ escape y := by
  rw [← String.toList_inj, String.toList_append, escape_eq, escape_eq, escape_eq, String.toList_append,
    List.flatMap_append]

end Percent

end FactGraph
