import FactGraph.Builtin.Collector

/-!
# Telling text from binary

A file is text when its first 8192 bytes have no NUL byte and can be continued to well-formed UTF-8:
the cut may fall inside a character.
-/

namespace FactGraph

namespace Builtin

variable {μ : Type}

/-- The tag of text files. -/
def textTag : String := "text"

/-- The tag of binary files. -/
def binaryTag : String := "binary"

/-- How much of a file is looked at. -/
def sniffLimit : Nat := 8192

/-- Whether the beginning of a file looks like text. -/
def looksLikeText (head : Bytes) : Bool := !head.contains 0 && Utf8.extendable head

/-- The beginning of a file. -/
def headOf (context : Context) (n : Node μ) : Result Bytes := do
  let l ← Context.locate n.id
  (← context.stream l).head sniffLimit

/-- The analyzer that tells text from binary. -/
def sniffer : Analyzer Context μ :=
  { name := "content-sniffer"
    targets := [fileKind]
    contract :=
      { consumes := KeySet.ofMembers [resourceTag]
        produces := KeySet.ofMembers [textTag, binaryTag] }
    inspect := fun context n =>
      match headOf context n with
      | .error e => { findings := {}, verdict := .failed e.message }
      | .ok head =>
        let tag := if looksLikeText head then textTag else binaryTag
        { findings := Findings.tag {} n.id tag, verdict := .done } }

end Builtin

end FactGraph
