import StageGraph.EdgeList.Attachment
import StageGraph.EdgeList.Form
import StageGraph.Graph.Validity
import StageGraph.Plain.Expression

set_option autoImplicit false

/-! # From an expression to its graph

An expression is an edge list if one of the two forms claims it, and a plain expression otherwise.
White space around it does not count. The graph is validated once it is built as a whole.
-/

namespace StageGraph

/-- The failure, seen as one of the whole expression. -/
def Failure.ofExpression (expression : Text) : Failure → Failure
  | invalid cause => invalid (.ofExpression cause expression)
  | failure => failure

/-- Builds an expression of either kind into the graph. -/
def buildExpression (expression : Text) : Building Unit := fun graph =>
  match Form.detect expression with
  | .error failure => .error failure graph
  | .ok (some (_, edges)) => buildListed edges graph
  | .ok none => buildPlain expression graph

/-- The graph of an expression. -/
def compile (expression : Text) : Except Failure Graph :=
  let expression := Text.trim expression
  if expression = [] then .error (.malformed .blankExpression)
  else
    match buildExpression expression .empty with
    | .error failure _ => .error failure
    | .ok () graph => graph.validated.mapError (Failure.ofExpression expression)

end StageGraph
