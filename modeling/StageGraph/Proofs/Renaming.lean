import Mathlib.Tactic
import StageGraph.Node.Text
import StageGraph.Proofs.Graph.Insertion

set_option autoImplicit false

/-! # Other names for stages

A renaming gives every stage another name and keeps its numbers, and it keeps different stages
apart. The sentinels have no other names. Graphs that have been put alike, but under other names,
are the same node by node and edge by edge up to these names (`Graph.Holds.renamedBy`).
-/

namespace StageGraph

/-- Another name for every name, so that different names stay different and names stay names. -/
structure Renaming where
  rename : Text → Text
  injective : Function.Injective rename
  ne_nil : ∀ {name : Text}, name ≠ [] → rename name ≠ []
  trimmed : ∀ {name : Text}, Text.Trimmed name → Text.Trimmed (rename name)

namespace Renaming

variable (r : Renaming)

/-- The node with the same numbers and its other name. -/
def node : Node → Node
  | .start => .start
  | .finish => .finish
  | .stage s => .stage ⟨s.topology, s.ordinal, r.rename s.name, s.topology_ne_zero,
      s.ordinal_ne_zero, r.ne_nil s.name_ne_nil, r.trimmed s.name_trimmed⟩

/-- The edge between the renamed ends. -/
def edge (e : Edge) : Edge := ⟨r.node e.source, r.node e.target⟩

@[simp] theorem topology_node : ∀ n : Node, (r.node n).topology = n.topology
  | .start | .finish | .stage _ => rfl

@[simp] theorem ordinal_node : ∀ n : Node, (r.node n).ordinal = n.ordinal
  | .start | .finish | .stage _ => rfl

@[simp] theorem isSentinel_node : ∀ n : Node, (r.node n).isSentinel = n.isSentinel
  | .start | .finish | .stage _ => rfl

theorem name_node : ∀ {n : Node}, n ≠ .start → n ≠ .finish → (r.node n).name = r.rename n.name
  | .start, hstart, _ => absurd rfl hstart
  | .finish, _, hfinish => absurd rfl hfinish
  | .stage _, _, _ => rfl

theorem node_injective : Function.Injective r.node := by
  intro m n h
  match m, n, h with
  | .start, .start, _ | .finish, .finish, _ => rfl
  | .stage s, .stage t, h =>
    have hname : r.rename s.name = r.rename t.name := congrArg Node.name h
    exact Node.eq_of_parts (by simpa using congrArg Node.topology h)
      (by simpa using congrArg Node.ordinal h) (r.injective hname)

/-- Giving a stage its other name is what a renaming does to it. -/
theorem renamed_eq : ∀ {n : Node}, n ≠ .start → n ≠ .finish →
    n.renamed (r.rename n.name) = .ok (r.node n)
  | .start, hstart, _ => absurd rfl hstart
  | .finish, _, hfinish => absurd rfl hfinish
  | .stage s, _, _ => by
    have htrim : Text.trim (r.rename s.name) = r.rename s.name :=
      Text.trim_eq_self_of_trimmed (r.trimmed s.name_trimmed)
    simp only [Node.renamed, Node.ofParts, Node.topology, Node.ordinal, Node.name,
      s.topology_ne_zero, s.ordinal_ne_zero, htrim, r.ne_nil s.name_ne_nil, dite_false, node]

end Renaming

/-- The graph has the nodes and edges of `g` in their order, with other names for the stages. -/
structure Graph.RenamedBy (r : Renaming) (g h : Graph) : Prop where
  nodes_eq : h.nodes.toList = g.nodes.toList.map r.node
  edges_eq : h.edges = g.edges.map r.edge

theorem Graph.Holds.renamedBy {g h : Graph} {edges : List (Node × Node)} (r : Renaming)
    (hg : g.Holds edges) (hh : h.Holds (edges.map (Prod.map r.node r.node))) :
    Graph.RenamedBy r g h :=
  ⟨(hg.rename r.node_injective hh).1, (hg.rename r.node_injective hh).2⟩

end StageGraph
