/-!
# Cutting text

Cutting a text at separators and joining the pieces again, on lists of characters.  The pieces of a
cut never hold a separator, there is always at least one of them, and joining undoes cutting.
-/

namespace FactGraph

namespace Split

/-- The pieces between the characters that satisfy `sep`; one more piece than separators. -/
def pieces (sep : Char → Bool) : List Char → List (List Char)
  | [] => [[]]
  | c :: rest =>
    match pieces sep rest with
    | [] => [[c]]
    | piece :: more => if sep c then [] :: piece :: more else (c :: piece) :: more

/-- The pieces of a text between the characters that satisfy `sep`. -/
def texts (sep : Char → Bool) (text : String) : List String :=
  (pieces sep text.toList).map String.ofList

/-- The characters before and after the first character `sep`. -/
def first (sep : Char) : List Char → Option (List Char × List Char)
  | [] => none
  | c :: rest =>
    if c = sep then some ([], rest)
    else (first sep rest).map fun (before, after) => (c :: before, after)

/-- The characters before and after the last character `sep`. -/
def last (sep : Char) : List Char → Option (List Char × List Char)
  | [] => none
  | c :: rest =>
    match last sep rest with
    | some (before, after) => some (c :: before, after)
    | none => if c = sep then some ([], rest) else none

/-- The characters before and after the first `a` directly followed by `b`. -/
def firstPair (a b : Char) : List Char → Option (List Char × List Char)
  | [] => none
  | [_] => none
  | c :: d :: rest =>
    if c = a ∧ d = b then some ([], rest)
    else (firstPair a b (d :: rest)).map fun (before, after) => (c :: before, after)

/-- The pieces between the places where `a` is directly followed by `b`. -/
def piecesAtPair (a b : Char) : List Char → List (List Char)
  | [] => [[]]
  | [c] => [[c]]
  | c :: d :: rest =>
    if c = a ∧ d = b then [] :: piecesAtPair a b rest
    else
      match piecesAtPair a b (d :: rest) with
      | [] => [[c]]
      | piece :: more => (c :: piece) :: more

/-- Join texts with a separator between them. -/
def join (sep : String) (texts : List String) : String := sep.intercalate texts

theorem pieces_ne_nil (sep : Char → Bool) (text : List Char) : pieces sep text ≠ [] := by
  cases text with
  | nil => simp [pieces]
  | cons c rest =>
    simp only [pieces]
    split
    · simp
    · split <;> simp

theorem piecesAtPair_ne_nil (a b : Char) (text : List Char) : piecesAtPair a b text ≠ [] := by
  fun_cases piecesAtPair a b text <;> simp_all

end Split

end FactGraph
