import StageGraph.Node.Basic
import StageGraph.Text.Quoted

set_option autoImplicit false

/-! # What can be wrong with an expression

Three kinds of failure: the expression is malformed, its graph is not a valid topology, or an edge
list names a sentinel. Each cause carries what its message shows, and the wording of every message
is here.
-/

namespace StageGraph

open Text (quote remarkOn)

/-- The two numbers of a node. -/
inductive NumberPart where
  | topology
  | ordinal
deriving DecidableEq

/-- The word for the number in messages. -/
def NumberPart.word : NumberPart → String
  | topology => "topology"
  | ordinal => "ordinal"

/-- Why a text is no expression, no edge list or no node. -/
inductive Malformed where
  /-- There is nothing to compile. -/
  | blankExpression
  /-- The parentheses of the text do not pair up. -/
  | unbalanced (text : Text)
  /-- The parentheses of one topology do not pair up. -/
  | unbalancedTopology (number : UInt32) (topology : Text)
  /-- Nothing stands between two semicolons. -/
  | blankTopology (position : Nat) (expression : Text)
  /-- A list of terms starts or ends with an arrow or a comma. -/
  | danglingSeparator (terms : Text)
  /-- Two terms stand side by side. -/
  | missingSeparator (found : Text) (terms : Text)
  /-- A term has no parts. -/
  | emptyTerm (term : Text)
  /-- A term holds separators only. -/
  | namelessTerm (term : Text)
  /-- A stage is called like a sentinel. -/
  | reservedName (name : Text) (topology : UInt32)
  /-- A term's outermost brackets do not form one pair. -/
  | outerBrackets (count : Nat) (term : Text)
  /-- The brackets of depth 1 do not form one pair. -/
  | rootCount (count : Nat)
  /-- A term's outermost pair of brackets leaves some of it outside. -/
  | notEnclosed (term : Text)
  /-- A number of a stage is 0. -/
  | zeroNumber (part : NumberPart) (name : Text)
  /-- A stage has no name. -/
  | blankName (topology : UInt32) (ordinal : UInt32)
  /-- A node's text lacks one of its two colons. -/
  | noNodeShape (text : Text)
  /-- A number of a node's text cannot be read. -/
  | badNumber (part : NumberPart) (found : Text) (text : Text)
  /-- An end of a listed edge is blank. -/
  | blankEndpoint
  /-- An item of an edge list is not two nodes around one arrow. -/
  | noEdgeShape (item : Text)
  /-- One topology of the expression is malformed. -/
  | inTopology (number : UInt32) (cause : Malformed)
deriving DecidableEq

/-- Why a graph is no valid topology. -/
inductive Invalid where
  /-- A node would depend on itself. -/
  | selfLoop (node : Node)
  /-- Nothing stands between the sentinels. -/
  | noStage (nodeCount : Nat)
  /-- An edge leads from `Start` to `End`, seen from `Start`. -/
  | startToFinish
  /-- An edge leads from `Start` to `End`, seen from `End`. -/
  | finishAfterStart
  /-- The edges lead from a node through others back to it. -/
  | cycle (first : Node) (others : List Node)
  /-- The graph of an expression is no valid topology. -/
  | ofExpression (cause : Invalid) (expression : Text)
deriving DecidableEq

/-- Why there is no graph. -/
inductive Failure where
  | malformed (cause : Malformed)
  | invalid (cause : Invalid)
  /-- A listed edge starts or ends at a sentinel. -/
  | sentinelEndpoint (edge : Edge)
deriving DecidableEq

/-- What is wrong, with an excerpt of the text it is about where that helps. -/
def Malformed.message : Malformed → String
  | blankExpression => "expression cannot be blank"
  | unbalanced text => remarkOn "unbalanced parenthesis" text
  | unbalancedTopology number topology =>
      remarkOn s!"unbalanced parenthesis in topology {number}" topology
  | blankTopology position expression => remarkOn s!"topology {position} is blank" expression
  | danglingSeparator terms =>
      remarkOn "expression cannot start or end with a separator" terms
  | missingSeparator found terms =>
      remarkOn ("expected '->' or ',' but found " ++ String.ofList (quote found)) terms
  | emptyTerm term => remarkOn "empty term" term
  | namelessTerm term => remarkOn "term has no stage name" term
  | reservedName name topology =>
      String.ofList (quote name) ++ s!" is a reserved node name (topology {topology})"
  | outerBrackets count term =>
      remarkOn s!"expected one outer bracket pair, found {count} brackets" term
  | rootCount count => s!"bracket tree must have a single root, found {count}"
  | notEnclosed term => remarkOn "outer brackets must enclose the whole term" term
  | zeroNumber part name =>
      "node " ++ part.word ++ " must be greater than 0: " ++ String.ofList name
  | blankName topology ordinal => s!"node name cannot be blank: {topology}:{ordinal}"
  | noNodeShape text => remarkOn "node must look like topology:ordinal:name" text
  | badNumber part found text =>
      remarkOn ("bad node " ++ part.word ++ " " ++ String.ofList (quote found)) text
  | blankEndpoint => "edge-list node cannot be blank"
  | noEdgeShape item => remarkOn "edge-list item must be `source -> target`" item
  | inTopology number cause => s!"topology {number}: " ++ cause.message

/-- The nodes' texts with an arrow before each of them. -/
def arrowed (nodes : List Node) : Text := nodes.flatMap fun n => Edge.arrow ++ n.text

/-- What is wrong; a cycle is written from its first node round to that node again. -/
def Invalid.message : Invalid → String
  | selfLoop node => "self loop on node " ++ String.ofList node.text
  | noStage nodeCount => s!"expression has no stage node ({nodeCount} nodes)"
  | startToFinish => "Start cannot lead directly to End"
  | finishAfterStart => "End cannot follow directly from Start"
  | cycle first others =>
      "cycle detected: " ++ String.ofList (first.text ++ arrowed (others ++ [first]))
  | ofExpression cause expression => remarkOn cause.message expression

/-- The whole message, which starts with the kind of failure. -/
def Failure.message : Failure → String
  | malformed cause => "malformed expression: " ++ cause.message
  | invalid cause => "invalid topology: " ++ cause.message
  | sentinelEndpoint edge =>
      "edge-list node cannot be Start or End: " ++ String.ofList edge.text

end StageGraph
