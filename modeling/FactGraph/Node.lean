import FactGraph.Measure

/-!
# Nodes

A node is a thing that analyzers learn about: it has an identity, a kind and a label, and gathers
tags, properties and metrics.  What has been gathered is never lost: a newer observation of the same
thing adds to it or overwrites single values.
-/

namespace FactGraph

/-- A thing with its facts. -/
structure Node (μ : Type) where
  id : String
  kind : String
  label : String
  properties : Properties := ∅
  tags : Names := ∅
  metrics : Metrics μ := ∅

namespace Node

variable {μ : Type}

/-- A node without facts, labelled by its id. -/
def new (id kind : String) : Node μ := { id, kind, label := id }

/-- Add a tag. -/
def tag (n : Node μ) (tag : String) : Node μ := { n with tags := n.tags.add tag }

/-- Set a property. -/
def property (n : Node μ) (key : String) (value : Value) : Node μ :=
  { n with properties := n.properties.insert key value }

/-- Set a metric; a value that is not finite is ignored. -/
def metric [Measure μ] (n : Node μ) (key : String) (value : μ) : Node μ :=
  if Measure.isFinite value then { n with metrics := n.metrics.insert key value } else n

/-- Whether the node has a tag. -/
def hasTag (n : Node μ) (tag : String) : Bool := n.tags.contains tag

/-- Whether the node has all of some tags. -/
def hasAllTags (n : Node μ) (tags : List String) : Bool := tags.all n.hasTag

/-- Whether the node has one of some tags. -/
def hasAnyTag (n : Node μ) (tags : List String) : Bool := tags.any n.hasTag

/-- The property at a path. -/
def propertyAt? (n : Node μ) (path : String) : Option Value := n.properties.at? path

/-- Fold a newer observation into a node: kind and label follow it, tags are joined, properties and
metrics are written over. -/
def absorb (n newer : Node μ) : Node μ :=
  { n with
    kind := newer.kind
    label := newer.label
    tags := n.tags.union newer.tags
    properties := n.properties.overlay newer.properties
    metrics := n.metrics.overlay newer.metrics }

/-- The number of facts a node stands for: itself and everything it gathered. -/
def factCount (n : Node μ) : Nat := 1 + n.tags.size + n.properties.size + n.metrics.size

/-- A node as it comes back from storage: only finite metrics are kept, and every number has been
written and read again. -/
def stored [Measure μ] (n : Node μ) : Node μ :=
  { n with
    properties := n.properties.mapValues fun _ v => v.stored
    metrics := (n.metrics.filter fun _ x => Measure.isFinite x).mapValues fun _ x => Measure.stored x }

end Node

end FactGraph
