/-!
# Deflated data

Reading compressed data: blocks of literal bytes and of references to what was read before, coded by
canonical prefix codes.  Data may end early; then what was read so far counts.  Data that breaks the
rules is corrupt.

Every step of the main loop reads at least one bit, so the number of bits bounds the number of steps.
-/

namespace FactGraph

namespace Zip

/-! ## 1. Bits -/

/-- Why reading stops before the end of the last block. -/
inductive Stop where
  | truncated
  | corrupt
deriving DecidableEq, Repr

/-- The bit at a position, lowest bit of a byte first. -/
def bit? (data : Array UInt8) (pos : Nat) : Except Stop Nat :=
  match data[pos / 8]? with
  | some b => .ok (b.toNat / Nat.pow 2 (pos % 8) % 2)
  | none => .error .truncated

/-- The number in the next `n` bits, lowest first, and the position behind it. -/
def bits (data : Array UInt8) (n pos : Nat) : Except Stop (Nat × Nat) := do
  let value ← (List.range n).foldlM (fun value i => do
    return value + (← bit? data (pos + i)) * Nat.pow 2 i) 0
  return (value, pos + n)

/-! ## 2. Prefix codes -/

/-- The longest code word. -/
def maxLength : Nat := 15

/-- A canonical code: for each length the number of code words, and the symbols by code word. -/
structure Code where
  counts : Array Nat
  symbols : Array Nat

namespace Code

/-- The code with the given lengths by symbol; a length of zero means no code word. -/
def ofLengths (lengths : List Nat) : Code :=
  let counts := Array.ofFn fun n : Fin (maxLength + 1) =>
    if n.val = 0 then 0 else lengths.countP (· = n.val)
  let symbols := (List.range maxLength).flatMap fun n =>
    lengths.zipIdx.filterMap fun (length, symbol) => if length = n + 1 then some symbol else none
  ⟨counts, symbols.toArray⟩

/-- The share of the code space that is used, in units of the longest code words. -/
def used (c : Code) : Nat :=
  (List.range maxLength).foldl (fun total n =>
    total + c.counts.getD (n + 1) 0 * Nat.pow 2 (maxLength - (n + 1))) 0

/-- A code of two or more words uses the code space exactly. -/
def isValid (c : Code) : Bool := c.symbols.size ≤ 1 || c.used == Nat.pow 2 maxLength

/-- Read a code word bit by bit.  `first` is the first code word of the current length, `index` the
place of its symbol. -/
def decodeFrom (c : Code) (data : Array UInt8) : Nat → Nat → Nat → Nat → Nat → Nat →
    Except Stop (Nat × Nat)
  | 0, _, _, _, _, _ => .error .corrupt
  | left + 1, length, word, first, index, pos => do
    let word := word + (← bit? data pos)
    let count := c.counts.getD length 0
    if word < first + count then
      match c.symbols[index + (word - first)]? with
      | some symbol => return (symbol, pos + 1)
      | none => throw .corrupt
    else
      c.decodeFrom data left (length + 1) (2 * word) (2 * (first + count)) (index + count) (pos + 1)

/-- Read a code word: its symbol, and the position behind it. -/
def decode (c : Code) (data : Array UInt8) (pos : Nat) : Except Stop (Nat × Nat) :=
  c.decodeFrom data maxLength 1 0 0 0 pos

end Code

/-! ## 3. Tables -/

/-- Base and number of extra bits of each match length. -/
def lengthTable : Array (Nat × Nat) :=
  #[(3, 0), (4, 0), (5, 0), (6, 0), (7, 0), (8, 0), (9, 0), (10, 0), (11, 1), (13, 1), (15, 1),
    (17, 1), (19, 2), (23, 2), (27, 2), (31, 2), (35, 3), (43, 3), (51, 3), (59, 3), (67, 4),
    (83, 4), (99, 4), (115, 4), (131, 5), (163, 5), (195, 5), (227, 5), (258, 0)]

/-- Base and number of extra bits of each distance. -/
def distanceTable : Array (Nat × Nat) :=
  #[(1, 0), (2, 0), (3, 0), (4, 0), (5, 1), (7, 1), (9, 2), (13, 2), (17, 3), (25, 3), (33, 4),
    (49, 4), (65, 5), (97, 5), (129, 6), (193, 6), (257, 7), (385, 7), (513, 8), (769, 8),
    (1025, 9), (1537, 9), (2049, 10), (3073, 10), (4097, 11), (6145, 11), (8193, 12), (12289, 12),
    (16385, 13), (24577, 13)]

/-- The order in which the lengths of the code for lengths are written. -/
def lengthOrder : List Nat := [16, 17, 18, 0, 8, 7, 9, 6, 10, 5, 11, 4, 12, 3, 13, 2, 14, 1, 15]

/-- The fixed code for literals and lengths. -/
def fixedLiterals : Code :=
  Code.ofLengths (List.replicate 144 8 ++ List.replicate 112 9 ++ List.replicate 24 7 ++
    List.replicate 8 8)

/-- The fixed code for distances. -/
def fixedDistances : Code := Code.ofLengths (List.replicate 32 5)

/-! ## 4. Blocks -/

/-- Repeat what was written `distance` bytes ago; before the start there are zeros. -/
def copyBack (distance : Nat) : Nat → Array UInt8 → Array UInt8
  | 0, out => out
  | n + 1, out =>
    let b := if distance ≤ out.size then out.getD (out.size - distance) 0 else 0
    copyBack distance n (out.push b)

/-- What a table entry stands for: its base and the number in its extra bits. -/
def tableValue (table : Array (Nat × Nat)) (data : Array UInt8) (symbol pos : Nat) :
    Except Stop (Nat × Nat) := do
  match table[symbol]? with
  | none => throw .corrupt
  | some (base, extra) =>
    let (more, pos) ← bits data extra pos
    return (base + more, pos)

/-- What one code word of a block says. -/
inductive Piece where
  | literal (b : UInt8)
  | repetition (length distance : Nat)
  | finish

/-- Read one piece of a block. -/
def piece (literals distances : Code) (data : Array UInt8) (pos : Nat) :
    Except Stop (Piece × Nat) := do
  let (symbol, pos) ← literals.decode data pos
  if symbol < 256 then return (.literal (UInt8.ofNat symbol), pos)
  else if symbol = 256 then return (.finish, pos)
  else
    let (length, pos) ← tableValue lengthTable data (symbol - 257) pos
    let (code, pos) ← distances.decode data pos
    let (distance, pos) ← tableValue distanceTable data code pos
    return (.repetition length distance, pos)

/-- The state between two blocks: the bytes so far and the position, or why reading stopped. -/
structure Output where
  bytes : Array UInt8
  stop : Except Stop Nat

/-- Read the pieces of a block. -/
def pieces (literals distances : Code) (data : Array UInt8) : Nat → Nat → Array UInt8 → Output
  | 0, _, out => ⟨out, .error .truncated⟩
  | fuel + 1, pos, out =>
    match piece literals distances data pos with
    | .error stop => ⟨out, .error stop⟩
    | .ok (.finish, pos) => ⟨out, .ok pos⟩
    | .ok (.literal b, pos) => pieces literals distances data fuel pos (out.push b)
    | .ok (.repetition length distance, pos) =>
      pieces literals distances data fuel pos (copyBack distance length out)

/-- Read a block that is not compressed. -/
def storedBlock (data : Array UInt8) (pos : Nat) (out : Array UInt8) : Output :=
  let start := (pos + 7) / 8
  match data[start]?, data[start + 1]?, data[start + 2]?, data[start + 3]? with
  | some a, some b, some c, some d =>
    let length := a.toNat + 256 * b.toNat
    if length + (c.toNat + 256 * d.toNat) ≠ 0xFFFF then ⟨out, .error .corrupt⟩
    else
      let body := data.extract (start + 4) (start + 4 + length)
      let stop := if body.size < length then .error .truncated else .ok (8 * (start + 4 + length))
      ⟨out ++ body, stop⟩
  | _, _, _, _ => ⟨out, .error .truncated⟩

/-- Read code lengths, which are themselves coded; `done` holds those read, last first. -/
def codeLengths (code : Code) (data : Array UInt8) : Nat → Nat → Nat → List Nat →
    Except Stop (List Nat × Nat)
  | 0, _, _, _ => .error .corrupt
  | fuel + 1, wanted, pos, done =>
    if done.length = wanted then .ok (done.reverse, pos)
    else if wanted < done.length then .error .corrupt
    else do
      let (symbol, pos) ← code.decode data pos
      if symbol < 16 then codeLengths code data fuel wanted pos (symbol :: done)
      else if symbol = 16 then
        match done with
        | [] => throw .corrupt
        | last :: _ =>
          let (n, pos) ← bits data 2 pos
          codeLengths code data fuel wanted pos (List.replicate (3 + n) last ++ done)
      else if symbol = 17 then
        let (n, pos) ← bits data 3 pos
        codeLengths code data fuel wanted pos (List.replicate (3 + n) 0 ++ done)
      else
        let (n, pos) ← bits data 7 pos
        codeLengths code data fuel wanted pos (List.replicate (11 + n) 0 ++ done)

/-- Read the two codes at the start of a block. -/
def dynamicCodes (data : Array UInt8) (pos : Nat) : Except Stop (Code × Code × Nat) := do
  let (n, pos) ← bits data 5 pos
  let literalCount := n + 257
  let (n, pos) ← bits data 5 pos
  let distanceCount := n + 1
  let (n, pos) ← bits data 4 pos
  let lengthCount := n + 4
  if 286 < literalCount || 30 < distanceCount then throw .corrupt
  let read ← (List.range lengthCount).mapM fun i => do return (← bits data 3 (pos + 3 * i)).1
  let pos := pos + 3 * lengthCount
  let lengths := (List.range 19).map fun symbol =>
    ((lengthOrder.zip read).lookup symbol).getD 0
  let code := Code.ofLengths lengths
  if !code.isValid then throw .corrupt
  let wanted := literalCount + distanceCount
  let (all, pos) ← codeLengths code data (wanted + 1) wanted pos []
  let literals := Code.ofLengths (all.take literalCount)
  let distances := Code.ofLengths (all.drop literalCount)
  if !literals.isValid || !distances.isValid then throw .corrupt
  return (literals, distances, pos)

/-- Read one block of a kind. -/
def block (data : Array UInt8) (fuel kind pos : Nat) (out : Array UInt8) : Output :=
  match kind with
  | 0 => storedBlock data pos out
  | 1 => pieces fixedLiterals fixedDistances data fuel pos out
  | 2 =>
    match dynamicCodes data pos with
    | .error stop => ⟨out, .error stop⟩
    | .ok (literals, distances, pos) => pieces literals distances data fuel pos out
  | _ => ⟨out, .error .corrupt⟩

/-- Read blocks up to the last one. -/
def blocks (data : Array UInt8) : Nat → Nat → Array UInt8 → Output
  | 0, pos, out => ⟨out, .ok pos⟩
  | fuel + 1, pos, out =>
    match bits data 3 pos with
    | .error stop => ⟨out, .error stop⟩
    | .ok (header, pos) =>
      let result := block data (8 * data.size + 1) (header / 2) pos out
      match result.stop with
      | .error _ => result
      | .ok pos => if header % 2 = 1 then result else blocks data fuel pos result.bytes

/-- The bytes that compressed data stands for, as far as it goes; nothing if it is corrupt. -/
def inflate? (data : Array UInt8) : Option (Array UInt8) :=
  let result := blocks data (8 * data.size + 1) 0 #[]
  match result.stop with
  | .error .corrupt => none
  | _ => some result.bytes

end Zip

end FactGraph
