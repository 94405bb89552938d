import StageGraph.Text.Basic

set_option autoImplicit false

/-! # The marks of a plain expression

`->` leads to the next stage, `,` joins the terms of one stage, parentheses group, and `;` parts the
topologies. A `-` or a `>` alone belongs to the text around it.

`Marked.read` cuts a text at the marks of a chosen kind and leaves all other marks in the texts
between. Nothing is lost: the pieces written one after the other are the text again.
-/

namespace StageGraph

/-- A sign that gives an expression its structure. -/
inductive Mark where
  | arrow
  | comma
  | opening
  | closing
  | semicolon
deriving DecidableEq

namespace Mark

/-- How the mark is written. -/
def text : Mark → Text
  | arrow => ['-', '>']
  | comma => [',']
  | opening => ['(']
  | closing => [')']
  | semicolon => [';']

/-- The mark that a single character writes. -/
def ofChar? (c : Char) : Option Mark :=
  if c = ',' then some comma
  else if c = '(' then some opening
  else if c = ')' then some closing
  else if c = ';' then some semicolon
  else none

/-- The marks within one topology: all but the semicolon. -/
def isInner : Mark → Bool
  | semicolon => false
  | _ => true

end Mark

/-- A text cut at marks: the text before the first mark, then each mark with the text after it. -/
structure Marked where
  first : Text
  rest : List (Mark × Text)
deriving DecidableEq

namespace Marked

/-- A text without any mark. -/
def none : Marked := ⟨[], []⟩

/-- The pieces with one more character in front. -/
def pushChar (c : Char) (m : Marked) : Marked := ⟨c :: m.first, m.rest⟩

/-- The pieces with one more mark in front. -/
def pushMark (k : Mark) (m : Marked) : Marked := ⟨[], (k, m.first) :: m.rest⟩

/-- Cuts a text at the marks that are accepted. -/
def read (accept : Mark → Bool) : Text → Marked
  | [] => none
  | '-' :: '>' :: rest =>
    if accept .arrow then pushMark .arrow (read accept rest)
    else pushChar '-' (read accept ('>' :: rest))
  | c :: rest =>
    match Mark.ofChar? c with
    | some k => if accept k then pushMark k (read accept rest) else pushChar c (read accept rest)
    | Option.none => pushChar c (read accept rest)

/-- The pieces written one after the other. -/
def text (m : Marked) : Text := m.first ++ m.rest.flatMap fun piece => piece.1.text ++ piece.2

/-- The texts between the marks. -/
def texts (m : Marked) : List Text := m.first :: m.rest.map Prod.snd

theorem text_pushChar (c : Char) (m : Marked) : (pushChar c m).text = c :: m.text := rfl

theorem text_pushMark (k : Mark) (m : Marked) : (pushMark k m).text = k.text ++ m.text := by
  simp [pushMark, text]

theorem text_ofChar? {c : Char} {k : Mark} (h : Mark.ofChar? c = some k) : k.text = [c] := by
  unfold Mark.ofChar? at h
  split at h
  · next hc => cases h; simp [Mark.text, hc]
  split at h
  · next hc => cases h; simp [Mark.text, hc]
  split at h
  · next hc => cases h; simp [Mark.text, hc]
  split at h
  · next hc => cases h; simp [Mark.text, hc]
  · cases h

/-- Cutting loses nothing. -/
theorem text_read (accept : Mark → Bool) (t : Text) : (read accept t).text = t := by
  fun_induction read accept t with
  | case1 => rfl
  | case2 rest _ ih => rw [text_pushMark, ih]; rfl
  | case3 rest _ ih => rw [text_pushChar, ih]
  | case4 c rest _ k hk _ ih => rw [text_pushMark, ih, text_ofChar? hk]; rfl
  | case5 c rest _ k hk _ ih => rw [text_pushChar, ih]
  | case6 c rest _ hk ih => rw [text_pushChar, ih]

end Marked

/-- The text is a separator of terms: an arrow or a comma. -/
def isSeparator (t : Text) : Bool := t == Mark.arrow.text || t == Mark.comma.text

/-- The text is a single mark of a topology. -/
def isMark (t : Text) : Bool :=
  isSeparator t || t == Mark.opening.text || t == Mark.closing.text

/-- The text holds no mark of a topology, so it is a bare name. -/
def isAtomic : Text → Bool
  | [] => true
  | '-' :: '>' :: _ => false
  | c :: rest => c != ',' && c != '(' && c != ')' && isAtomic rest

end StageGraph
