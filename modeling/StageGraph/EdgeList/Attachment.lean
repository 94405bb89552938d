import StageGraph.Graph.Basic

set_option autoImplicit false

/-! # From listed edges to a graph

The listed edges are added in order. Then every listed node without a listed predecessor is put
behind `Start`, and after that every listed node without a listed successor in front of `End`, each
time in the order in which the nodes appear in the list. The list itself must not name a sentinel.
-/

namespace StageGraph

/-- Adds the edges in order, up to the first that names a sentinel. -/
def addListed : List Edge → Building Unit
  | [] => pure ()
  | e :: rest => do
    if e.source.isSentinel || e.target.isSentinel then throw (.sentinelEndpoint e)
    let _ ← Graph.putEdge e.source e.target
    addListed rest

/-- The nodes of the list, each at its first appearance. -/
def listedNodes (edges : List Edge) : List Node :=
  (edges.flatMap fun e => [e.source, e.target]).eraseDups

/-- The listed nodes to which no listed edge leads. -/
def firstNodes (edges : List Edge) : List Node :=
  (listedNodes edges).filter fun n => edges.all fun e => e.target ≠ n

/-- The listed nodes from which no listed edge leads. -/
def lastNodes (edges : List Edge) : List Node :=
  (listedNodes edges).filter fun n => edges.all fun e => e.source ≠ n

/-- Builds the listed edges into the graph and joins them to the sentinels. -/
def buildListed (edges : List Edge) : Building Unit := do
  addListed edges
  Graph.putEdges ((firstNodes edges).map fun n => (.start, n))
  Graph.putEdges ((lastNodes edges).map fun n => (n, .finish))

end StageGraph
