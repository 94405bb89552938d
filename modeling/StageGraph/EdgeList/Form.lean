import StageGraph.Node.Json
import StageGraph.Plain.Mark

set_option autoImplicit false

/-! # Edge lists

A graph that no plain expression describes is given as a JSON array of its edges. It has one of two
forms: an array of strings with an arrow between the two nodes, or an array of objects with the
fields `source` and `target`.

    ["1:1:A -> 1:1:C", "B -> D"]      [{"source": "A", "target": "C"}]

A node in an edge list is a node text or a bare name, which stands for topology 1 and ordinal 1. A
text is claimed by a form when it has the form's outward shape and is read as JSON of that form; a
claimed list may still hold an item that is no edge.
-/

namespace StageGraph

/-- The numbers that a bare name stands for, as a node text begins with them. -/
def defaultNumbers : Text := ['1', ':', '1', ':']

/-- The text after the decimal digits it begins with, of which there has to be one. -/
def afterDigits? (t : Text) : Option Text :=
  match t.dropWhile Text.isDecimalDigit with
  | ':' :: rest => if (t.takeWhile Text.isDecimalDigit) = [] then none else some rest
  | _ => none

/-- The text looks like a node text: two runs of digits with colons after them, and a name that is
not blank. -/
def looksLikeNode (t : Text) : Bool :=
  match (afterDigits? t).bind afterDigits? with
  | some name => name.any fun c => !Text.isBlank c
  | none => false

/-- Reads one end of a listed edge. -/
def readEndpoint (t : Text) : Except Failure Node :=
  let t := Text.trim t
  if t = [] then .error (.malformed .blankEndpoint)
  else if looksLikeNode t then Node.read t
  else Node.read (defaultNumbers ++ t)

/-- The edge between two listed ends. -/
def readEnds (source target : Text) : Except Failure Edge := do
  let source ← readEndpoint source
  let target ← readEndpoint target
  Edge.between source target

/-- Reads an item that has one arrow between two nodes. -/
def readItem (item : Text) : Except Failure Edge :=
  match (Marked.read (· == .arrow) item).texts with
  | [source, target] => readEnds source target
  | _ => .error (.malformed (.noEdgeShape item))

/-- The forms of an edge list. -/
inductive Form where
  /-- An array of strings. -/
  | strings
  /-- An array of objects. -/
  | objects
deriving DecidableEq

namespace Form

/-- The characters with which the items of the form start and end. -/
def delimiters : Form → Char × Char
  | strings => ('"', '"')
  | objects => ('\x7b', '\x7d')

/-- The text between its first and its last character, without white space around it, if these two
characters are `first` and `last`. -/
def inside? (first last : Char) (t : Text) : Option Text :=
  let t := Text.trim t
  if 2 ≤ t.length ∧ t.head? = some first ∧ t.getLast? = some last then
    some (Text.trim t.tail.dropLast)
  else none

/-- The text has the outward shape of the form: brackets around something that starts and ends like
the items, with at least one character between the two. -/
def hasShape (form : Form) (t : Text) : Bool :=
  match inside? '[' ']' t with
  | some items =>
    3 ≤ items.length && items.head? == some form.delimiters.1 &&
      items.getLast? == some form.delimiters.2
  | none => false

/-- Reads the items of a list one by one, up to the first that is no edge. -/
def readAll {α : Type} (readOne : α → Except Failure Edge) : List α → Except Failure (List Edge)
  | [] => .ok []
  | item :: rest => do
    let edge ← readOne item
    let edges ← readAll readOne rest
    return edge :: edges

/-- The edges of a list that is not empty. -/
def claim {α : Type} (readOne : α → Except Failure Edge) (items : Except Json.Fault (List α)) :
    Except Failure (Option (List Edge)) :=
  match items with
  | .error _ | .ok [] => .ok none
  | .ok items => (readAll readOne items).map some

/-- The edges that a text lists in this form. There are none when it is no JSON of the form, or an
empty array; a failure is one of an item. -/
def decode (form : Form) (t : Text) : Except Failure (Option (List Edge)) :=
  match form with
  | strings => claim readItem ((Json.Reader.list .string).read t)
  | objects =>
    claim (fun ends => readEnds ends.1 ends.2)
      ((Json.Reader.list (.pair Edge.keys .string)).read t)

/-- An edge as an item of the form. -/
def itemOf (form : Form) (e : Edge) : Json :=
  match form with
  | strings => .string e.text
  | objects => e.toJson

/-- The edges as a compact JSON text of the form. -/
def encode (form : Form) (edges : List Edge) : Text :=
  (Json.array (edges.map form.itemOf)).compact

/-- The first of the forms that claims the text, with the edges it lists. -/
def detectAmong (t : Text) : List Form → Except Failure (Option (Form × List Edge))
  | [] => .ok none
  | form :: rest =>
    if form.hasShape t then
      match form.decode t with
      | .error failure => .error failure
      | .ok (some edges) => .ok (some (form, edges))
      | .ok none => detectAmong t rest
    else detectAmong t rest

/-- The form that claims the text, if one does. -/
def detect (t : Text) : Except Failure (Option (Form × List Edge)) :=
  detectAmong t [strings, objects]

end Form

end StageGraph
