import StageGraph.Text.Basic

set_option autoImplicit false

/-! # JSON documents and how they are written

The documents here hold strings, arrays and objects; an object keeps the order of its fields. A
string is written with escapes for the quote, the backslash and the characters below U+0020, and
with nothing else escaped. A document is written compactly, or with a line for each member and two
spaces for each level.
-/

namespace StageGraph

/-- A JSON document. -/
inductive Json where
  | string (t : Text)
  | array (items : List Json)
  | object (fields : List (Text × Json))

namespace Json

/-- How one character is spelled inside a JSON string. -/
def escapeChar (c : Char) : Text :=
  if c = '"' then ['\\', '"']
  else if c = '\\' then ['\\', '\\']
  else if c = '\x08' then ['\\', 'b']
  else if c = '\x0c' then ['\\', 'f']
  else if c = '\n' then ['\\', 'n']
  else if c = '\r' then ['\\', 'r']
  else if c = '\t' then ['\\', 't']
  else if c.toNat < 0x20 then
    ['\\', 'u', '0', '0', Nat.digitChar (c.toNat / 16), Nat.digitChar (c.toNat % 16)]
  else [c]

/-- A string as JSON spells it. -/
def writeString (t : Text) : Text := '"' :: t.flatMap escapeChar ++ ['"']

mutual

/-- The document without any white space. -/
def compact : Json → Text
  | string t => writeString t
  | array items => '[' :: compactItems items ++ [']']
  | object fields => '\x7b' :: compactFields fields ++ ['\x7d']

/-- Array items with commas between them. -/
def compactItems : List Json → Text
  | [] => []
  | [item] => compact item
  | item :: rest => compact item ++ ',' :: compactItems rest

/-- Object fields with commas between them. -/
def compactFields : List (Text × Json) → Text
  | [] => []
  | [(key, value)] => writeString key ++ ':' :: compact value
  | (key, value) :: rest => writeString key ++ ':' :: compact value ++ ',' :: compactFields rest

end

/-- The start of a line at the given level. -/
def newLine (level : Nat) : Text := '\n' :: List.replicate (2 * level) ' '

mutual

/-- The document with each member on a line of its own, inside a line of the given level. -/
def pretty (level : Nat) : Json → Text
  | string t => writeString t
  | array [] => ['[', ']']
  | array items => '[' :: prettyItems (level + 1) items ++ newLine level ++ [']']
  | object [] => ['\x7b', '\x7d']
  | object fields => '\x7b' :: prettyFields (level + 1) fields ++ newLine level ++ ['\x7d']

/-- Array items on lines of the given level, with commas between them. -/
def prettyItems (level : Nat) : List Json → Text
  | [] => []
  | [item] => newLine level ++ pretty level item
  | item :: rest => newLine level ++ pretty level item ++ ',' :: prettyItems level rest

/-- Object fields on lines of the given level, with commas between them. -/
def prettyFields (level : Nat) : List (Text × Json) → Text
  | [] => []
  | [(key, value)] => newLine level ++ writeString key ++ ':' :: ' ' :: pretty level value
  | (key, value) :: rest =>
      newLine level ++ writeString key ++ ':' :: ' ' :: pretty level value ++
        ',' :: prettyFields level rest

end

end Json

end StageGraph
