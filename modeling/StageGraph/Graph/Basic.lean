import Std.Data.HashMap
import StageGraph.Node.Text

set_option autoImplicit false

/-! # Graphs

A graph numbers its nodes in the order in which they first appear, the source of an edge before
its target, and keeps the successors and the predecessors of every node in the order in which the
edges came. A repeated edge changes nothing.

`Graph.putEdge` is the only way in which a graph grows. It runs in `Building`, where a failure
leaves the graph as it was at that moment.
-/

namespace StageGraph

/-- Nodes and edges in the order in which they came. -/
structure Graph where
  /-- The nodes; a node's number is its place here. -/
  nodes : Array Node
  /-- The number of each node. -/
  index : Std.HashMap Node Nat
  /-- The numbers of each node's successors. -/
  successors : Array (Array Nat)
  /-- The numbers of each node's predecessors. -/
  predecessors : Array (Array Nat)

/-- A computation that lets a graph grow and may fail on the way. -/
abbrev Building := EStateM Failure Graph

namespace Graph

/-- The graph without nodes. -/
def empty : Graph := ⟨#[], ∅, #[], #[]⟩

/-! ## Looking at a graph -/

/-- How many nodes there are. -/
def nodeCount (g : Graph) : Nat := g.nodes.size

/-- How many edges there are. -/
def edgeCount (g : Graph) : Nat := g.successors.foldl (fun n out => n + out.size) 0

/-- The numbers of the successors of node number `i`. -/
def successorsAt (g : Graph) (i : Nat) : List Nat := (g.successors.getD i #[]).toList

/-- The numbers of the predecessors of node number `i`. -/
def predecessorsAt (g : Graph) (i : Nat) : List Nat := (g.predecessors.getD i #[]).toList

/-- The nodes with these numbers. -/
def nodesAt (g : Graph) (numbers : List Nat) : List Node := numbers.filterMap (g.nodes[·]?)

/-- The direct successors of a node; none for a node that is not in the graph. -/
def successorsOf (g : Graph) (n : Node) : List Node :=
  match g.index[n]? with
  | some i => g.nodesAt (g.successorsAt i)
  | none => []

/-- The direct predecessors of a node; none for a node that is not in the graph. -/
def predecessorsOf (g : Graph) (n : Node) : List Node :=
  match g.index[n]? with
  | some i => g.nodesAt (g.predecessorsAt i)
  | none => []

/-- The edges, grouped by source in the order of the nodes. -/
def edges (g : Graph) : List Edge :=
  (g.nodes.toList.zip g.successors.toList).flatMap fun (source, targets) =>
    (g.nodesAt targets.toList).map fun target => ⟨source, target⟩

/-- The node is in the graph. -/
def containsNode (g : Graph) (n : Node) : Bool := g.index.contains n

/-- The edge is in the graph. -/
def containsEdge (g : Graph) (source target : Node) : Bool :=
  match g.index[source]?, g.index[target]? with
  | some s, some t => (g.successorsAt s).contains t
  | _, _ => false

/-- The numbers of the topologies that have a stage in the graph, ascending. -/
def topologies (g : Graph) : List UInt32 :=
  (ascending ((g.nodes.toList.filter fun n => !n.isSentinel).map Node.topology)).eraseReps

/-- The same nodes and the same edges, in whatever order they came. -/
def sameAs (g h : Graph) : Bool :=
  g.nodeCount == h.nodeCount && g.nodes.all h.containsNode &&
    g.edges.all (fun e => h.containsEdge e.source e.target) &&
    h.edges.all (fun e => g.containsEdge e.source e.target)

instance : BEq Graph := ⟨sameAs⟩

/-! ## Growing -/

/-- The number of a node, which is added at the end if it is new. -/
def addNode (g : Graph) (n : Node) : Nat × Graph :=
  match g.index[n]? with
  | some i => (i, g)
  | none =>
    (g.nodeCount,
      { nodes := g.nodes.push n
        index := g.index.insert n g.nodeCount
        successors := g.successors.push #[]
        predecessors := g.predecessors.push #[] })

/-- Joins node number `s` to node number `t`; false if they were joined already. -/
def join (g : Graph) (s t : Nat) : Bool × Graph :=
  if (g.successorsAt s).contains t then (false, g)
  else
    (true,
      { g with
        successors := g.successors.modify s (·.push t)
        predecessors := g.predecessors.modify t (·.push s) })

/-- Adds an edge and its two nodes; false if the edge was there already. -/
def addEdge (g : Graph) (e : Edge) : Bool × Graph :=
  let (s, g) := g.addNode e.source
  let (t, g) := g.addNode e.target
  g.join s t

/-- Adds the edge from `source` to `target`, which have to differ; false if it was there
already. -/
def putEdge (source target : Node) : Building Bool := fun g =>
  match Edge.between source target with
  | .error failure => .error failure g
  | .ok edge => let (isNew, g) := g.addEdge edge; .ok isNew g

/-- Adds edges in order, up to the first that cannot be added. -/
def putEdges : List (Node × Node) → Building Unit
  | [] => pure ()
  | (source, target) :: rest => do
    let _ ← putEdge source target
    putEdges rest

end Graph

end StageGraph
