import FactGraph.Yaml.Scan

/-!
# Documents

A document is a tree of scalars, sequences and mappings.  It is read from tokens by one function per
kind of collection; the number of tokens bounds the depth of the recursion.
-/

namespace FactGraph

namespace Yaml

/-- A node of a document. -/
inductive Node where
  | scalar (style : Style) (tag : Option String) (text : String)
  | sequence (items : List Node)
  | mapping (entries : List (Node × Node))
deriving Inhabited

namespace Node

/-- Nothing where a node is expected. -/
def empty : Node := .scalar .plain none ""

/-- What is read, and what was seen. -/
structure State where
  tokens : List Token
  anchors : List (String × Node) := []
  handles : List (String × String) := []

/-- Readers of nodes. -/
abbrev Reader := StateT State (Except Fault)

/-- The next token. -/
def peek : Reader (Option Token) := return (← get).tokens.head?

/-- Move past a token. -/
def skip : Reader Unit := modify fun s => { s with tokens := s.tokens.tail }

/-- Move past a token if it is the given one. -/
def skipIf (t : Token) : Reader Bool := do
  if (← peek) == some t then
    skip
    return true
  else return false

/-- Whether the next token is one of the given ones. -/
def isNext (ts : List Token) : Reader Bool := do
  return (← peek).any ts.contains

/-! ## 1. Anchors and tags -/

/-- What stands before the content of a node. -/
structure Properties where
  anchor : Option String := none
  tag : Option String := none

/-- The expansion of a tag. -/
def expandTag (handle suffix : String) : Reader String := do
  if handle.isEmpty then return suffix
  let usual := [("!", "!"), ("!!", "tag:yaml.org,2002:")]
  match ((← get).handles ++ usual).lookup handle with
  | some expansion => return expansion ++ suffix
  | none => throw .tag

/-- Read an anchor, if there is one. -/
def anchor? : Reader (Option String) := do
  match ← peek with
  | some (.anchor name) =>
    skip
    return some name
  | _ => return none

/-- Read a tag, if there is one. -/
def tag? : Reader (Option String) := do
  match ← peek with
  | some (.tag handle suffix) =>
    skip
    return some (← expandTag handle suffix)
  | _ => return none

/-- Read an anchor and a tag, in either order. -/
def properties : Reader Properties := do
  match ← anchor? with
  | some name => return { anchor := some name, tag := ← tag? }
  | none =>
    let tag ← tag?
    if tag.isSome then return { anchor := ← anchor?, tag } else return {}

/-- Remember a node by its anchor. -/
def named (p : Properties) (n : Node) : Reader Node := do
  if let some name := p.anchor then
    modify fun s => { s with anchors := (name, n) :: s.anchors }
  return n

/-! ## 2. Nodes -/

mutual

/-- Read a node.  Between brackets there are no blocks, and only the value of a block mapping may be a
sequence without indentation. -/
def read (block flat : Bool) : Nat → Reader Node
  | 0 => throw (.structure "end")
  | fuel + 1 => do
    if let some (.alias name) := ← peek then
      skip
      match (← get).anchors.lookup name with
      | some n => return n
      | none => throw (.unknownAlias name)
    let p ← properties
    match ← peek with
    | some .item =>
      if flat then named p (.sequence (← flatItems fuel)) else blank p
    | some (.scalar style text) =>
      skip
      named p (.scalar style (if p.tag == some "!" then none else p.tag) text)
    | some .openFlowSequence =>
      skip
      named p (.sequence (← flowItems true fuel))
    | some .openFlowMapping =>
      skip
      named p (.mapping (← flowEntries true fuel))
    | some .openSequence =>
      if block then
        skip
        named p (.sequence (← blockItems fuel))
      else blank p
    | some .openMapping =>
      if block then
        skip
        named p (.mapping (← blockEntries fuel))
      else blank p
    | _ => blank p
where
  /-- A node without content has an anchor or a tag. -/
  blank (p : Properties) : Reader Node := do
    if p.anchor.isSome || p.tag.isSome then named p (.scalar .plain p.tag "")
    else throw (.structure "node content")

/-- The items of a sequence without indentation. -/
def flatItems : Nat → Reader (List Node)
  | 0 => throw (.structure "end")
  | fuel + 1 => do
    if ← skipIf .item then
      let n ← if ← isNext [.item, .key, .value, .close] then pure empty else read true false fuel
      return n :: (← flatItems fuel)
    else return []

/-- The items of an indented sequence. -/
def blockItems : Nat → Reader (List Node)
  | 0 => throw (.structure "end")
  | fuel + 1 => do
    if ← skipIf .item then
      let n ← if ← isNext [.item, .close] then pure empty else read true false fuel
      return n :: (← blockItems fuel)
    else if ← skipIf .close then return []
    else throw (.structure "'-' indicator")

/-- The entries of an indented mapping. -/
def blockEntries : Nat → Reader (List (Node × Node))
  | 0 => throw (.structure "end")
  | fuel + 1 => do
    let ends := [Token.key, .value, .close]
    if ← skipIf .close then return []
    let k ←
      if ← skipIf .key then
        if ← isNext ends then pure empty else read true true fuel
      else throw (.structure "key")
    let v ←
      if ← skipIf .value then
        if ← isNext ends then pure empty else read true true fuel
      else pure empty
    return (k, v) :: (← blockEntries fuel)

/-- The items between brackets. -/
def flowItems (first : Bool) : Nat → Reader (List Node)
  | 0 => throw (.structure "end")
  | fuel + 1 => do
    if ← skipIf .closeFlowSequence then return []
    unless first do
      unless ← skipIf .comma do throw (.structure "',' or ']'")
    if ← skipIf .closeFlowSequence then return []
    let n ←
      if ← skipIf .key then do
        let k ← if ← isNext [.value, .comma, .closeFlowSequence] then pure empty
          else read false false fuel
        let v ←
          if ← skipIf .value then
            if ← isNext [.comma, .closeFlowSequence] then pure empty else read false false fuel
          else pure empty
        pure (Node.mapping [(k, v)])
      else read false false fuel
    return n :: (← flowItems false fuel)

/-- The entries between braces. -/
def flowEntries (first : Bool) : Nat → Reader (List (Node × Node))
  | 0 => throw (.structure "end")
  | fuel + 1 => do
    if ← skipIf .closeFlowMapping then return []
    unless first do
      unless ← skipIf .comma do throw (.structure "',' or closing brace")
    if ← skipIf .closeFlowMapping then return []
    if ← skipIf .key then
      let k ← if ← isNext [.value, .comma, .closeFlowMapping] then pure empty
        else read false false fuel
      let v ←
        if ← skipIf .value then
          if ← isNext [.comma, .closeFlowMapping] then pure empty else read false false fuel
        else pure empty
      return (k, v) :: (← flowEntries false fuel)
    else
      let k ← read false false fuel
      return (k, empty) :: (← flowEntries false fuel)

end

end Node

/-! ## 3. Documents -/

namespace Node

/-- Read the directives before a document; the flag says whether a version was given. -/
def directives : Nat → Bool → Reader Unit
  | 0, _ => return ()
  | fuel + 1, versioned => do
    match ← peek with
    | some .version =>
      if versioned then throw .directive
      skip
      directives fuel true
    | some (.handle name expansion) =>
      if ((← get).handles.lookup name).isSome then throw .directive
      skip
      modify fun s => { s with handles := (name, expansion) :: s.handles }
      directives fuel versioned
    | _ => return ()

/-- Read the only document of a text, if there is one. -/
def document (fuel : Nat) : Reader (Option Node) := do
  let n ← match ← peek with
    | none => return none
    | some .version | some (.handle _ _) | some .documentStart => do
      directives fuel false
      unless ← skipIf .documentStart do throw (.structure "<document start>")
      match ← peek with
      | none | some .version | some (.handle _ _) | some .documentStart | some .documentEnd =>
        pure empty
      | some _ => read true false fuel
    | some _ => read true false fuel
  modify fun s => { s with tokens := s.tokens.dropWhile (· == .documentEnd) }
  match ← peek with
  | none => return some n
  | some _ => throw .severalDocuments

end Node

/-- The document in a text; a text of spaces and comments has none. -/
def parse (text : String) : Except Fault (Option Node) := do
  let ts ← tokens text
  let fuel := 2 * ts.length + 2
  return (← (Node.document fuel).run { tokens := ts }).1

end Yaml

end FactGraph
