import StageGraph.Plain.Mark

set_option autoImplicit false

/-! # Balanced and completed texts

A text is balanced when reading it from the left never closes more parentheses than were opened and
leaves none open. A topology is completed by putting every name into parentheses of its own, unless
it has them already, and by dropping the white space around names:

    A,B->(C->D),E->F    becomes    (A),(B)->((C)->(D)),(E)->(F)
-/

namespace StageGraph

/-- How many parentheses are open after the text when `depth` are open before it; nothing if one
closes that was never opened. -/
def depthAfter : Nat → Text → Option Nat
  | depth, [] => some depth
  | depth, c :: rest =>
    if c = '(' then depthAfter (depth + 1) rest
    else if c = ')' then
      match depth with
      | 0 => none
      | depth + 1 => depthAfter depth rest
    else depthAfter depth rest

/-- Every parenthesis of the text has its partner. -/
def isBalanced (t : Text) : Bool := depthAfter 0 t == some 0

/-- A name between two marks, in parentheses unless it stands between a pair already. -/
def completeName (before after : Option Mark) (name : Text) : Text :=
  let name := Text.trim name
  if name = [] then []
  else if before = some .opening ∧ after = some .closing then name
  else '(' :: name ++ [')']

/-- A name that stands after the mark `before`, and all that follows it, completed. -/
def completeFrom (before : Option Mark) (name : Text) : List (Mark × Text) → Text
  | [] => completeName before none name
  | (mark, next) :: rest =>
    completeName before (some mark) name ++ mark.text ++ completeFrom (some mark) next rest

/-- The topology with every name in parentheses of its own. -/
def complete (topology : Text) : Text :=
  let pieces := Marked.read Mark.isInner topology
  completeFrom none pieces.first pieces.rest

end StageGraph
