import FactGraph.Store

/-!
# Queries

Everything that can be asked of a store.  Nodes are listed by id, edges by source, target and kind,
ledger rows by analyzer and node.  A query by tags goes through the tag assignments, and counts them
where every tag is needed.  A query by property first looks the key up in an index of top-level keys,
whose own notation reads a backslash as the start of an escape.
-/

namespace FactGraph

namespace Store

variable {μ : Type}

/-! ## 1. Nodes -/

/-- All nodes by id. -/
def allNodes (s : Store μ) : List (Node μ) := s.nodes.values

/-- The nodes of a kind. -/
def nodesOfKind (s : Store μ) (kind : String) : List (Node μ) :=
  s.allNodes.filter (·.kind == kind)

/-! ## 2. Nodes by tag -/

/-- All tag assignments, each a node and a tag. -/
def tagRows (s : Store μ) : List (String × String) := s.tags.members.map fun t => (t.node, t.tag)

/-- How the tags of a query are combined. -/
inductive TagMatch where
  | any
  | all
deriving DecidableEq, Repr

/-- The ids with an assignment of one of the tags asked for.  Where all of them are, an id is kept if
its assignments count as many different tags as are asked for. -/
def taggedIds (s : Store μ) (asked : Names) (mode : TagMatch) : Names :=
  let hits := s.tagRows.filter fun row => asked.contains row.2
  let ids : Names := KeySet.ofMembers (hits.map (·.1))
  match mode with
  | .any => ids
  | .all => ids.filter fun id _ =>
    (KeySet.ofMembers ((hits.filter (·.1 == id)).map (·.2)) : Names).size == asked.size

/-- The nodes that match tags, of one kind or of any. -/
def nodesByTags (s : Store μ) (kind : Option String) (tags : List String) (mode : TagMatch) :
    List (Node μ) :=
  let asked : Names := KeySet.ofMembers tags
  if asked.isEmpty then
    match mode, kind with
    | .any, _ => []
    | .all, some kind => s.nodesOfKind kind
    | .all, none => s.allNodes
  else
    let ids := s.taggedIds asked mode
    s.allNodes.filter fun n => ids.contains n.id && kind.all (n.kind == ·)

/-- The nodes with a tag. -/
def nodesWithTag (s : Store μ) (tag : String) : List (Node μ) := s.nodesByTags none [tag] .any

/-- The nodes with at least one of the tags; none for no tags. -/
def nodesWithAnyTag (s : Store μ) (tags : List String) : List (Node μ) :=
  s.nodesByTags none tags .any

/-- The nodes with all of the tags; all nodes for no tags. -/
def nodesWithAllTags (s : Store μ) (tags : List String) : List (Node μ) :=
  s.nodesByTags none tags .all

/-- The nodes of a kind with at least one of the tags. -/
def nodesOfKindWithAnyTag (s : Store μ) (kind : String) (tags : List String) : List (Node μ) :=
  s.nodesByTags (some kind) tags .any

/-- The nodes of a kind with all of the tags. -/
def nodesOfKindWithAllTags (s : Store μ) (kind : String) (tags : List String) : List (Node μ) :=
  s.nodesByTags (some kind) tags .all

/-! ## 3. Nodes by property -/

/-- A hexadecimal digit as the index reads it: letters and digits by their low bits. -/
def indexDigit (c : Char) : Nat :=
  let h := c.toNat
  (h + 9 * (h / 64 % 2)) % 16

/-- The code of a one-letter escape of the index. -/
def indexEscape? : Char → Option Nat
  | 'b' => some 8
  | 't' => some 9
  | 'n' => some 10
  | 'v' => some 11
  | 'f' => some 12
  | 'r' => some 13
  | '"' => some 0x22
  | '\'' => some 0x27
  | '/' => some 0x2F
  | '\\' => some 0x5C
  | _ => none

/-- The codes that the index reads in a text; nothing if an escape in it is none.  A line break after
a backslash is skipped. -/
def indexCodes? : List Char → Option (List Nat)
  | [] => some []
  | '\\' :: 'u' :: a :: b :: c :: d :: rest =>
    let code := ((indexDigit a * 16 + indexDigit b) * 16 + indexDigit c) * 16 + indexDigit d
    (indexCodes? rest).map (code :: ·)
  | '\\' :: 'x' :: a :: b :: rest =>
    (indexCodes? rest).map ((indexDigit a * 16 + indexDigit b) :: ·)
  | '\\' :: '0' :: rest =>
    if rest.head?.any Char.isDigit then none else (indexCodes? rest).map (0 :: ·)
  | '\\' :: '\r' :: '\n' :: rest => indexCodes? rest
  | '\\' :: c :: rest =>
    if c = '\r' ∨ c = '\n' ∨ c.toNat = 0x2028 ∨ c.toNat = 0x2029 then indexCodes? rest
    else
      match indexEscape? c with
      | some code => (indexCodes? rest).map (code :: ·)
      | none => none
  | ['\\'] => none
  | c :: rest => (indexCodes? rest).map (c.toNat :: ·)

/-- The characters of some codes, two halves of a pair making one character. -/
def indexChars? : List Nat → Option (List Char)
  | [] => some []
  | [n] => if n / 0x800 = 0x1B then none else some [Char.ofNat n]
  | n :: m :: rest =>
    if n / 0x400 = 0x36 ∧ m / 0x400 = 0x37 then
      (indexChars? rest).map (Char.ofNat (0x10000 + n % 0x400 * 0x400 + m % 0x400) :: ·)
    else if n / 0x800 = 0x1B then none
    else (indexChars? (m :: rest)).map (Char.ofNat n :: ·)

/-- A key up to its first NUL, where the index stops comparing. -/
def indexed (key : List Char) : List Char := key.takeWhile (·.toNat ≠ 0)

/-- Whether the index finds a top-level key of the node under a text. -/
def inIndex (n : Node μ) (text : String) : Bool :=
  match (indexCodes? text.toList).bind indexChars? with
  | none => false
  | some key => n.properties.keys.any fun k => indexed k.toList == indexed key

/-- A text in single quotes, with the quotes inside it doubled. -/
def singleQuoted (text : List Char) : String :=
  String.ofList (['\''] ++ text.flatMap (fun c => if c = '\'' then ['\'', '\''] else [c]) ++ ['\''])

/-- The error for a path that the index cannot read: it ends at a NUL, inside its quotes. -/
def badPathError (path : String) : Error :=
  .database ("bad JSON path: " ++ singleQuoted (['$', '.', '"'] ++ indexed path.toList))
    (some "Error code 1: SQL logic error")

/-- The nodes whose property at a path equals a value.  The index narrows the search to nodes that
have the path, or its first segment, as a top-level key; a path with a double quote is searched
without it. -/
def nodesWithProperty (s : Store μ) (path : String) (value : Value) : Result (List (Node μ)) :=
  let found (n : Node μ) : Bool :=
    match n.propertyAt? path with
    | some v => v == value
    | none => false
  if path.toList.contains '"' then .ok (s.allNodes.filter found)
  else if path.toList.any (·.toNat = 0) then
    if s.rows.isEmpty then .ok [] else .error (badPathError path)
  else
    let first := (Properties.segments path).headD path
    let narrowed := s.allNodes.filter fun n => inIndex n path || inIndex n first
    .ok (narrowed.filter found)

/-! ## 4. Edges -/

/-- All edges. -/
def allEdges (s : Store μ) : List Edge := s.edges.rows.map fun row => Edge.ofKey row.1 row.2

/-- The edges that leave a node. -/
def outgoing (s : Store μ) (id : String) : List Edge := s.allEdges.filter (·.source == id)

/-- The edges that reach a node. -/
def incoming (s : Store μ) (id : String) : List Edge := s.allEdges.filter (·.target == id)

/-- The edges of a kind. -/
def edgesOfKind (s : Store μ) (kind : String) : List Edge := s.allEdges.filter (·.kind == kind)

/-! ## 5. The ledger and counts -/

/-- All ledger rows. -/
def ledgerRows (s : Store μ) : List LedgerRow := s.ledger.rows.map fun row => ⟨row.1, row.2⟩

/-- Counts over the whole store. -/
structure Statistics where
  nodes : Nat
  edges : Nat
  tags : Nat
  distinctTags : Nat
deriving DecidableEq, Repr

/-- The counts of a store. -/
def statistics (s : Store μ) : Statistics :=
  { nodes := s.rows.size
    edges := s.edges.size
    tags := s.tagRows.length
    distinctTags := (KeySet.ofMembers (s.tagRows.map (·.2)) : Names).size }

/-- The number of facts: nodes, tag assignments, properties, metrics and edges, each counted over the
whole store. -/
def factCount (s : Store μ) : Nat :=
  s.rows.size + s.tagRows.length + (s.rows.values.flatMap (·.properties.keys)).length +
    (s.rows.values.flatMap (·.metrics.keys)).length + s.edges.size

end Store

end FactGraph
