import StageGraph.Json.Shape
import StageGraph.Json.Writing
import StageGraph.Node.Text

set_option autoImplicit false

/-! # Nodes and edges in JSON

A node is the string of its text. An edge is an object of its two ends, and is read from an array of
them as well.
-/

namespace StageGraph

namespace Node

/-- The node as a JSON string. -/
def toJson (n : Node) : Json := .string n.text

/-- Reads a node from the string of its text. -/
def reader : Json.Reader Node :=
  Json.Reader.string.andThen fun t =>
    match read t with
    | .error _ => .error .unfit
    | .ok n => .ok n

end Node

namespace Edge

/-- The keys under which the two ends of an edge stand. -/
def keys : Text × Text := (['s', 'o', 'u', 'r', 'c', 'e'], ['t', 'a', 'r', 'g', 'e', 't'])

/-- The edge as a JSON object. -/
def toJson (e : Edge) : Json :=
  .object [(keys.1, e.source.toJson), (keys.2, e.target.toJson)]

/-- Reads an edge. The two ends may be the same node. -/
def reader : Json.Reader Edge :=
  (Json.Reader.pair keys Node.reader).andThen fun ends => .ok ⟨ends.1, ends.2⟩

end Edge

end StageGraph
