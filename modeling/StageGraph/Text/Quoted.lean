import StageGraph.Text.Basic
import StageGraph.Text.Unprintable

set_option autoImplicit false

/-! # Quoted texts and excerpts

A quoted text stands between double quotes on one line: the quote and the backslash are escaped,
the four common control characters have letters of their own, and every other unprintable
character is spelled as its code point. An excerpt is what a message shows of a long text.
-/

namespace StageGraph.Text

/-- The code point of a character in lower-case hexadecimal, as `\u` followed by braces. -/
def codePointEscape (c : Char) : Text :=
  ['\\', 'u', '\x7b'] ++ Nat.toDigits 16 c.toNat ++ ['\x7d']

/-- How one character is spelled inside quotes. -/
def quoteChar (c : Char) : Text :=
  if c = '"' then ['\\', '"']
  else if c = '\\' then ['\\', '\\']
  else if c = '\n' then ['\\', 'n']
  else if c = '\r' then ['\\', 'r']
  else if c = '\t' then ['\\', 't']
  else if c = '\x00' then ['\\', '0']
  else if isPlainGlyph c then [c]
  else if isUnprintable c then codePointEscape c
  else [c]

/-- The text between double quotes. -/
def quote (t : Text) : Text := '"' :: t.flatMap quoteChar ++ ['"']

/-- The most characters an excerpt keeps. -/
def excerptLimit : Nat := 96

/-- The trimmed text, cut after `excerptLimit` characters with three dots in place of the rest. -/
def excerpt (t : Text) : Text :=
  let t := trim t
  if t.length ≤ excerptLimit then t else t.take excerptLimit ++ ['.', '.', '.']

/-- A remark followed by the quoted excerpt of the text it is about. -/
def remarkOn (remark : String) (t : Text) : String :=
  remark ++ ": " ++ String.ofList (quote (excerpt t))

end StageGraph.Text
