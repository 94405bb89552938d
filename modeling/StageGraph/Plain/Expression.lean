import StageGraph.Plain.Walk

set_option autoImplicit false

/-! # Plain expressions

A plain expression lists topologies between semicolons, numbered from 1. All of them share the two
sentinels and one store of spans, while ordinals start anew in each topology.

    A->((B->C->D),(A->F))->(G,H,X)->J; A->Y

A failure leaves in the graph what was built before it.
-/

namespace StageGraph

/-- The texts without white space around them, the first of which is the `position`-th topology of
the expression. None of them may be blank. -/
def trimTopologies (expression : Text) (position : Nat) : List Text → Except Failure (List Text)
  | [] => .ok []
  | t :: rest =>
    if Text.trim t = [] then .error (.malformed (.blankTopology position expression))
    else (trimTopologies expression (position + 1) rest).map (Text.trim t :: ·)

/-- The topologies of an expression, trimmed. -/
def topologiesOf (expression : Text) : Except Failure (List Text) :=
  trimTopologies expression 1 (Marked.read (· == .semicolon) expression).texts

/-- The failure, seen as one of this topology. -/
def Failure.inTopology (number : UInt32) : Failure → Failure
  | malformed cause => malformed (.inTopology number cause)
  | failure => failure

/-- Builds topologies into the graph; the first of them has this number. -/
def buildTopologies (number : UInt32) (topologies : List Text) (spans : SpanStore) :
    Building Unit := fun graph =>
  match topologies with
  | [] => .ok () graph
  | t :: rest =>
    if isBalanced t then
      let (root, spans) := spans.add (complete t)
      match walkTopology number root spans graph with
      | .error failure walk => .error (failure.inTopology number) walk.graph
      | .ok () walk => buildTopologies (number + 1) rest walk.walker.spans walk.graph
    else .error (.malformed (.unbalancedTopology number t)) graph

/-- Builds every topology of a plain expression into the graph. -/
def buildPlain (expression : Text) : Building Unit := fun graph =>
  if isBalanced expression then
    match topologiesOf expression with
    | .error failure => .error failure graph
    | .ok topologies => buildTopologies 1 topologies .new graph
  else .error (.malformed (.unbalanced expression)) graph

end StageGraph
