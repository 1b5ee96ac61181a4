import FactGraph.Contract
import FactGraph.Diagnostic
import FactGraph.Relation
import FactGraph.Text.Split

/-!
# Plans

A plan puts analyzers into an order in which what is produced comes before what is consumed.
Analyzers that depend on each other in a circle cannot be put into such an order: they form a block,
the blocks are ordered instead, and the circle is reported.  Among the blocks that may come next, the
one registered first does.

Which analyzers form a block is a question about strongly connected components, and a plan takes the
answer as it is given: `Plan.assemble` works with any list of the components, in any order.  From
there on it counts.  One walk along the dependencies finds out which block feeds which
(`Condensation.ofLinks`).  Then the blocks are taken one by one from a queue of those that wait for
nothing, and each releases the blocks that it feeds (`Progress.run`).

Main definitions: `Plan.assemble`, `Condensation.note`, `Progress.take`, `Progress.release`.
-/

namespace FactGraph

/-- A circle of dependencies. -/
structure Cycle where
  names : List String
  /-- The tags that are produced and consumed inside the circle, in ascending order. -/
  tags : List String
deriving DecidableEq, Repr

namespace Cycle

/-- The warning about a circle. -/
def diagnostic (c : Cycle) : Diagnostic :=
  let via := if c.tags = [] then "needs" else Split.join ", " c.tags
  { kind := .cycleDetected
    message := "units " ++ Split.join ", " c.names ++ " form a cycle via " ++ via }

end Cycle

namespace Plan

/-! ## 1. Blocks -/

/-- Analyzers by position that depend on each other, in ascending order. -/
abbrev Block := List Nat

/-- Put an entry before the first one whose key is not lower. -/
def enqueue {α : Type} (key : α → Nat) (a : α) : List α → List α
  | [] => [a]
  | b :: rest => if key a ≤ key b then a :: b :: rest else b :: enqueue key a rest

/-- Entries in ascending order of their keys. -/
def sortBy {α : Type} (key : α → Nat) (entries : List α) : List α :=
  entries.foldr (enqueue key) []

/-- Components as blocks: each in ascending order, by their lowest positions.  From now on a block
is referred to by its number in this list. -/
def arrange (parts : List (List Nat)) : List Block :=
  sortBy (fun block => block.headD 0) (parts.map (sortBy id))

/-- For each of some positions the number of its block. -/
def owners (size : Nat) (blocks : List Block) : List Nat :=
  blocks.zipIdx.foldl
    (fun owners entry => entry.1.foldl (fun owners i => owners.set i entry.2) owners)
    (List.replicate size 0)

end Plan

/-! ## 2. Dependencies between blocks -/

/-- What the dependencies say about blocks.  Each list has one entry for each block. -/
structure Condensation where
  /-- The other blocks that a block feeds. -/
  successors : List (KeySet Nat)
  /-- How many other blocks feed a block. -/
  inDegrees : List Nat
  /-- The tags that are the reason for a dependency inside a block. -/
  innerTags : List Names
  /-- Whether a member of a block depends on itself. -/
  selfLoops : List Bool

namespace Condensation

/-- Nothing is known about some blocks yet. -/
def blank (count : Nat) : Condensation where
  successors := List.replicate count ∅
  inDegrees := List.replicate count 0
  innerTags := List.replicate count ∅
  selfLoops := List.replicate count false

/-- Take note of one dependency.  A block counts for another once, however many dependencies there
are between them. -/
def note (owners : List Nat) (known : Condensation) (link : Link) : Condensation :=
  let source := owners.getD link.source 0
  let target := owners.getD link.target 0
  if source = target then
    { known with
      selfLoops :=
        if link.source = link.target then known.selfLoops.set source true else known.selfLoops
      innerTags :=
        match link.reason with
        | .tag name => known.innerTags.modify source (·.add name)
        | .need => known.innerTags }
  else if (known.successors.getD source ∅).contains target then known
  else
    { known with
      successors := known.successors.modify source (·.add target)
      inDegrees := known.inDegrees.modify target (· + 1) }

/-- What some dependencies say about some blocks. -/
def ofLinks (owners : List Nat) (count : Nat) (links : List Link) : Condensation :=
  links.foldl (note owners) (blank count)

end Condensation

/-! ## 3. Order and depth -/

/-- The blocks on their way into the order. -/
structure Progress where
  /-- The positions of the blocks that have been taken. -/
  order : List Nat
  /-- For each block the size of the longest chain known to end in it, with the block itself once it
  has been taken. -/
  depths : List Nat
  /-- For each block the number of blocks that feed it and have not been taken. -/
  inDegrees : List Nat
  /-- The blocks that wait for nothing and have not been taken, in ascending order. -/
  ready : List Nat

namespace Progress

/-- Nothing has been taken yet. -/
def start (inDegrees : List Nat) : Progress where
  order := []
  depths := List.replicate inDegrees.length 0
  inDegrees := inDegrees
  ready := (List.range inDegrees.length).filter fun c => inDegrees.getD c 0 == 0

/-- Block `c` has been taken, and `next` no longer waits for it. -/
def release (c : Nat) (p : Progress) (next : Nat) : Progress :=
  let inDegrees := p.inDegrees.modify next (· - 1)
  { p with
    depths := p.depths.modify next (max · (p.depths.getD c 0))
    inDegrees := inDegrees
    ready := if inDegrees.getD next 0 = 0 then Plan.enqueue id next p.ready else p.ready }

/-- Take block `c`, which is no longer in the queue, and release the blocks that it feeds. -/
def take (blocks : List Plan.Block) (successors : List (KeySet Nat)) (p : Progress) (c : Nat) :
    Progress :=
  let block := blocks.getD c []
  (successors.getD c ∅).members.foldl (release c)
    { p with order := p.order ++ block, depths := p.depths.modify c (· + block.length) }

/-- Take the first block of the queue, at most so many times. -/
def run (blocks : List Plan.Block) (successors : List (KeySet Nat)) : Nat → Progress → Progress
  | 0, p => p
  | fuel + 1, p =>
    match p.ready with
    | [] => p
    | c :: waiting => run blocks successors fuel (take blocks successors { p with ready := waiting } c)

end Progress

/-! ## 4. Plans -/

/-- The order of work for some declarations. -/
structure Plan where
  /-- Positions in the order of work. -/
  order : List Nat
  cycles : List Cycle
  /-- The number of analyzers on the longest chain of dependencies. -/
  depth : Nat
deriving DecidableEq, Repr

namespace Plan

/-- The plan for some declarations whose strongly connected components are given.  No block is taken
twice, so as many rounds as there are blocks empty the queue. -/
def assemble (ds : Declarations) (parts : List (List Nat)) : Plan :=
  let blocks := arrange parts
  let known := Condensation.ofLinks (owners ds.length blocks) blocks.length ds.links
  let done := Progress.run blocks known.successors blocks.length (Progress.start known.inDegrees)
  { order := done.order
    cycles := blocks.zipIdx.filterMap fun entry =>
      if 1 < entry.1.length || known.selfLoops.getD entry.2 false then
        some { names := ds.namesAt entry.1, tags := (known.innerTags.getD entry.2 ∅).members }
      else none
    depth := done.depths.foldl max 0 }

/-! ## 5. Components -/

/-- The dependencies between positions. -/
def relation (ds : Declarations) : Relation :=
  let links := ds.links
  Relation.tabulate ds.length fun i j => links.any fun link => link.source == i && link.target == j

/-- The positions that depend on `i` and that `i` depends on, `i` included. -/
def blockOf (reach : Relation) (i : Nat) : Block :=
  (List.range reach.size).filter fun j => i == j || (reach.holds i j && reach.holds j i)

/-- The strongly connected components, from what reaches what. -/
def components (reach : Relation) : List Block :=
  (List.range reach.size).filterMap fun i =>
    let block := blockOf reach i
    if block.head? = some i then some block else none

/-- The plan for some declarations. -/
def ofDeclarations (ds : Declarations) : Plan := assemble ds (components (relation ds).closure)

/-- Whether there is a circle. -/
def hasCycles (p : Plan) : Bool := !p.cycles.isEmpty

/-- The warnings of a plan. -/
def diagnostics (p : Plan) : List Diagnostic := p.cycles.map Cycle.diagnostic

end Plan

end FactGraph
