import StageGraph.EdgeList.Form

set_option autoImplicit false

/-! # Thumbnails

A thumbnail shows the structure of an expression alone. Every name is replaced by letters, the same
ones wherever it occurs: `A` to `Z` for the first 26 names in the order in which they are met, then
`AA`, `AB` and so on. An edge list keeps its form. Whatever cannot be read as an edge list is
treated as plain text, and nothing is validated.

    Extract -> Transform -> Load ; Extract -> Load    becomes    A->B->C;A->C
-/

namespace StageGraph

/-- The letter with this place in the alphabet. -/
def letter (place : Nat) : Char := Char.ofNat ('A'.toNat + place)

/-- The word with this place among all words of letters, shorter ones first. -/
def letters (place : Nat) : Text :=
  if place < 26 then [letter place]
  else letters (place / 26 - 1) ++ [letter (place % 26)]
termination_by place
decreasing_by omega

/-- The letters for a name, and the names met so far, in order. -/
def lettersFor (names : List Text) (name : Text) : Text × List Text :=
  match names.idxOf? name with
  | some place => (letters place, names)
  | none => (letters names.length, names ++ [name])

/-- The letters for the name between two marks, if it is not blank. -/
def relabelName (names : List Text) (t : Text) : Text × List Text :=
  if Text.trim t = [] then ([], names) else lettersFor names (Text.trim t)

/-- The marks as they are, with letters for the names between them. -/
def relabelPieces (names : List Text) : List (Mark × Text) → Text
  | [] => []
  | (mark, t) :: rest =>
    let (label, names) := relabelName names t
    mark.text ++ label ++ relabelPieces names rest

/-- The thumbnail of a text as a plain expression. -/
def plainThumbnail (t : Text) : Text :=
  let pieces := Marked.read (fun _ => true) t
  let (label, names) := relabelName [] pieces.first
  label ++ relabelPieces names pieces.rest

/-- The edges with letters for the names of their nodes. A sentinel cannot be renamed. -/
def relabelEdges (names : List Text) : List Edge → Except Failure (List Edge)
  | [] => .ok []
  | e :: rest => do
    let (label, names) := lettersFor names e.source.name
    let source ← e.source.renamed label
    let (label, names) := lettersFor names e.target.name
    let target ← e.target.renamed label
    let edge ← Edge.between source target
    let edges ← relabelEdges names rest
    return edge :: edges

/-- The thumbnail of an expression of either kind. -/
def thumbnail (t : Text) : Text :=
  match Form.detect t with
  | .ok (some (form, edges)) =>
    match relabelEdges [] edges with
    | .ok edges => form.encode edges
    | .error _ => plainThumbnail t
  | _ => plainThumbnail t

end StageGraph
