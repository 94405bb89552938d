import StageGraph.Failure

set_option autoImplicit false

/-! # Making nodes and edges

A stage is made from its numbers and its name, which is trimmed first. A node's text is
`topology:ordinal:name`; the name is everything after the second colon and may hold colons itself.
White space around the two numbers is ignored. The texts `0:0:Start` and `0:0:End`, with any
spelling of zero, are the sentinels.
-/

namespace StageGraph

namespace Node

/-- The stage with these numbers and this name. The first fault in the order topology, ordinal,
name is reported. -/
def ofParts (topology ordinal : UInt32) (name : Text) : Except Failure Node :=
  if ht : topology = 0 then .error (.malformed (.zeroNumber .topology (Text.trim name)))
  else if ho : ordinal = 0 then .error (.malformed (.zeroNumber .ordinal (Text.trim name)))
  else if hn : Text.trim name = [] then .error (.malformed (.blankName topology ordinal))
  else .ok (.stage ⟨topology, ordinal, Text.trim name, ht, ho, hn, Text.trimmed_trim name⟩)

/-- The node with the same numbers and another name. -/
def renamed (n : Node) (name : Text) : Except Failure Node := ofParts n.topology n.ordinal name

/-- One number of the node text `whole`. -/
def readNumber (part : NumberPart) (found whole : Text) : Except Failure UInt32 :=
  match Text.word? (Text.trim found) with
  | some n => .ok n
  | none => .error (.malformed (.badNumber part found whole))

/-- The node with these numbers and this name, where the numbers 0 and 0 with a reserved name make
a sentinel. -/
def ofNumbers (topology ordinal : UInt32) (name : Text) : Except Failure Node :=
  if topology = 0 ∧ ordinal = 0 ∧ name = startName then .ok .start
  else if topology = 0 ∧ ordinal = 0 ∧ name = finishName then .ok .finish
  else ofParts topology ordinal name

/-- Reads a node's text. -/
def read (t : Text) : Except Failure Node :=
  match Text.cutAt ':' t with
  | none => .error (.malformed (.noNodeShape t))
  | some (topology, rest) =>
    match Text.cutAt ':' rest with
    | none => .error (.malformed (.noNodeShape t))
    | some (ordinal, name) => do
      let topology ← readNumber .topology topology t
      let ordinal ← readNumber .ordinal ordinal t
      ofNumbers topology ordinal name

end Node

/-- The edge between two different nodes. -/
def Edge.between (source target : Node) : Except Failure Edge :=
  if source = target then .error (.invalid (.selfLoop source)) else .ok ⟨source, target⟩

end StageGraph
