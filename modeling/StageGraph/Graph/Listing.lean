import StageGraph.Graph.Order
import StageGraph.Node.Json

set_option autoImplicit false

/-! # Listings of a graph

A graph is shown as one line for each edge, as one line for each node in topological order, as a
JSON document of its nodes and edges, or as a summary in one line.
-/

namespace StageGraph

/-- Each of the texts with a line break after it. -/
def asLines (items : List Text) : Text := items.flatMap fun item => item ++ ['\n']

namespace Graph

/-- One line for each edge, in the order of the graph. -/
def listEdges (g : Graph) : Text := asLines (g.edges.map Edge.text)

/-- One line for each node, in topological order. -/
def listOrder (g : Graph) : Text := asLines (g.topologicalOrder.map Node.text)

/-- The nodes and the edges in the order of the graph. -/
def toJson (g : Graph) : Json :=
  .object
    [ ("nodes".toList, .array (g.nodes.toList.map Node.toJson)),
      ("edges".toList, .array (g.edges.map Edge.toJson)) ]

/-- The JSON document of the graph, with two spaces for each level. -/
def document (g : Graph) : Text := g.toJson.pretty 0

/-- How many topologies, stages and edges the graph has. -/
def summary (g : Graph) : Text :=
  (s!"ok: {g.topologies.length} topologies, {g.nodeCount - 2} stages, {g.edgeCount} edges").toList

end Graph

/-- The ways to show a graph. -/
inductive Listing where
  | edges
  | order
  | json
  | summary
deriving DecidableEq

/-- The graph, shown in this way. -/
def Listing.write (listing : Listing) (g : Graph) : Text :=
  match listing with
  | edges => g.listEdges
  | order => g.listOrder
  | json => g.document
  | summary => g.summary

end StageGraph
