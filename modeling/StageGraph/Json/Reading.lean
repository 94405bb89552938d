import StageGraph.Json.Number

set_option autoImplicit false

/-! # Reading JSON

A reader takes a value of a known shape from the front of a text. A value of another shape is a
fault as soon as its first characters show it; of several faults in a text the first one counts.
The strings read here are those of the JSON standard. In a string that is only passed over, `\u`
escapes need not come in pairs.

Every reader takes at least one character, and that is what ends the loops over lists and objects.
-/

namespace StageGraph.Json

/-- Why a text is no value of the wanted shape. -/
inductive Fault where
  /-- The text is not JSON. -/
  | illFormed
  /-- The text ends too early. -/
  | truncated
  /-- The text is JSON so far, but holds another value than the wanted one. -/
  | unfit
deriving DecidableEq

/-- Takes a value from the front of a text and leaves a shorter text. -/
structure Reader (α : Type) where
  run : Text → Except Fault (α × Text)
  shrinks : ∀ {s r : Text} {a : α}, run s = .ok (a, r) → r.length < s.length

/-- White space between the tokens of a JSON text. -/
def isSpace (c : Char) : Bool := c = ' ' || c = '\t' || c = '\n' || c = '\r'

/-- The text without leading white space. -/
def skipSpace (t : Text) : Text := t.dropWhile isSpace

theorem length_skipSpace_le (t : Text) : (skipSpace t).length ≤ t.length :=
  (List.dropWhile_suffix isSpace).sublist.length_le

theorem length_skipSpace {t r : Text} {c : Char} (h : skipSpace t = c :: r) :
    r.length < t.length := by
  have := length_skipSpace_le t
  rw [h, List.length_cons] at this
  omega

/-! ## Strings -/

/-- The value of a hexadecimal digit. -/
def hexValue? (c : Char) : Option Nat :=
  if '0' ≤ c ∧ c ≤ '9' then some (c.toNat - '0'.toNat)
  else if 'a' ≤ c ∧ c ≤ 'f' then some (c.toNat - 'a'.toNat + 10)
  else if 'A' ≤ c ∧ c ≤ 'F' then some (c.toNat - 'A'.toNat + 10)
  else none

/-- The number of four hexadecimal digits. -/
def hexValue4? (a b c d : Char) : Option Nat := do
  let a ← hexValue? a
  let b ← hexValue? b
  let c ← hexValue? c
  let d ← hexValue? d
  return ((a * 16 + b) * 16 + c) * 16 + d

/-- The code unit after `\u`. The text has ended too early when it has fewer than four bytes. -/
def codeUnit : Text → Except Fault (Nat × Text)
  | a :: b :: c :: d :: rest =>
    match hexValue4? a b c d with
    | some n => .ok (n, rest)
    | none => .error .illFormed
  -- fewer than four characters may still be four bytes, and then the text has not ended
  | t => if Text.bytes t < 4 then .error .truncated else .error .illFormed

theorem length_codeUnit {s r : Text} {n : Nat} (h : codeUnit s = .ok (n, r)) :
    r.length < s.length := by
  unfold codeUnit at h
  split at h
  · split at h
    · cases h; simp only [List.length_cons]; omega
    · cases h
  · split at h <;> cases h

/-- The unit is the first half of a pair. -/
def isHighHalf (n : Nat) : Bool := 0xD800 ≤ n && n ≤ 0xDBFF

/-- The unit is the second half of a pair. -/
def isLowHalf (n : Nat) : Bool := 0xDC00 ≤ n && n ≤ 0xDFFF

/-- The character of a pair of halves. -/
def joinHalves (high low : Nat) : Char :=
  Char.ofNat ((high - 0xD800) * 0x400 + (low - 0xDC00) + 0x10000)

/-- The second half of a pair, which has to follow at once. -/
def lowHalf : Text → Except Fault (Nat × Text)
  | [] | ['\\'] => .error .truncated
  | '\\' :: 'u' :: rest =>
    match codeUnit rest with
    | .error fault => .error fault
    | .ok (low, rest) => if isLowHalf low then .ok (low, rest) else .error .illFormed
  | _ => .error .illFormed

theorem length_lowHalf {s r : Text} {n : Nat} (h : lowHalf s = .ok (n, r)) :
    r.length < s.length := by
  unfold lowHalf at h
  split at h
  · cases h
  · cases h
  · next rest =>
    split at h
    · cases h
    · next low rest' hunit =>
      have := length_codeUnit hunit
      split at h
      · cases h; simp only [List.length_cons]; omega
      · cases h
  · cases h

/-- The character after `\u`, which two halves may spell together. -/
def codePoint (t : Text) : Except Fault (Char × Text) :=
  match codeUnit t with
  | .error fault => .error fault
  | .ok (n, rest) =>
    if isLowHalf n then .error .illFormed
    else if isHighHalf n then
      match lowHalf rest with
      | .error fault => .error fault
      | .ok (low, rest) => .ok (joinHalves n low, rest)
    else .ok (Char.ofNat n, rest)

theorem length_codePoint {s r : Text} {c : Char} (h : codePoint s = .ok (c, r)) :
    r.length < s.length := by
  unfold codePoint at h
  split at h
  · cases h
  · next n rest hunit =>
    have hlt := length_codeUnit hunit
    split at h
    · cases h
    split at h
    · split at h
      · cases h
      · next low rest' hlow =>
        have := length_lowHalf hlow
        simp only [Except.ok.injEq, Prod.mk.injEq] at h
        obtain ⟨_, rfl⟩ := h
        omega
    · simp only [Except.ok.injEq, Prod.mk.injEq] at h
      obtain ⟨_, rfl⟩ := h
      exact hlt

/-- The character that a backslash and `c` spell. -/
def simpleEscape? (c : Char) : Option Char :=
  if c = '"' ∨ c = '\\' ∨ c = '/' then some c
  else if c = 'b' then some '\x08'
  else if c = 'f' then some '\x0c'
  else if c = 'n' then some '\n'
  else if c = 'r' then some '\r'
  else if c = 't' then some '\t'
  else none

/-- What follows a backslash, when `unicode` reads what follows `\u`. -/
def escape {α : Type} (unicode : Text → Except Fault (α × Text)) (simple : Char → α) :
    Text → Except Fault (α × Text)
  | [] => .error .truncated
  | c :: rest =>
    if c = 'u' then unicode rest
    else
      match simpleEscape? c with
      | some d => .ok (simple d, rest)
      | none => .error .illFormed

theorem length_escape {α : Type} {unicode : Text → Except Fault (α × Text)} {simple : Char → α}
    (hu : ∀ {s r : Text} {a : α}, unicode s = .ok (a, r) → r.length < s.length)
    {s r : Text} {a : α} (h : escape unicode simple s = .ok (a, r)) : r.length < s.length := by
  unfold escape at h
  split at h
  · cases h
  split at h
  · have := hu h; simp only [List.length_cons]; omega
  split at h
  · cases h; simp
  · cases h

/-- Reads the character that an escape spells. -/
def spelledEscape : Reader Char := ⟨escape codePoint id, length_escape length_codePoint⟩

/-- Passes over an escape; `\u` needs four hexadecimal digits and nothing else. -/
def skippedEscape : Reader Unit :=
  ⟨escape (fun t => (codeUnit t).map fun (_, rest) => ((), rest)) fun _ => (),
    length_escape fun {s r _} h => by
      cases hc : codeUnit s with
      | error f => rw [hc] at h; cases h
      | ok p => rw [hc] at h; cases h; exact length_codeUnit hc⟩

/-- The rest of a string after its opening quote, when `escape` reads what follows a backslash and
`plain` is what any other character stands for. -/
def stringRest {α : Type} (escape : Reader α) (plain : Char → α) (s : Text) :
    Except Fault (List α × Text) :=
  match s with
  | [] => .error .truncated
  | c :: rest =>
    if c = '"' then .ok ([], rest)
    else if c = '\\' then
      match _ : escape.run rest with
      | .error fault => .error fault
      | .ok (a, rest) => (stringRest escape plain rest).map fun (as, rest) => (a :: as, rest)
    else if c.toNat < 0x20 then .error .illFormed
    else (stringRest escape plain rest).map fun (as, rest) => (plain c :: as, rest)
termination_by s.length
decreasing_by
  · have := escape.shrinks (by assumption)
    simp only [List.length_cons]
    omega
  · simp

theorem length_stringRest {α : Type} {escape : Reader α} {plain : Char → α} {s r : Text}
    {as : List α} (h : stringRest escape plain s = .ok (as, r)) : r.length < s.length := by
  fun_induction stringRest escape plain s generalizing as r with
  | case1 => cases h
  | case2 => cases h; simp
  | case3 => cases h
  | case4 rest a rest' hescape _ ih =>
    cases hr : stringRest escape plain rest' with
    | error f => rw [hr] at h; cases h
    | ok p =>
      rw [hr] at h
      cases h
      have := ih hr
      have := escape.shrinks hescape
      simp only [List.length_cons]
      omega
  | case5 => cases h
  | case6 c rest _ _ _ ih =>
    cases hr : stringRest escape plain rest with
    | error f => rw [hr] at h; cases h
    | ok p =>
      rw [hr] at h
      cases h
      have := ih hr
      simp only [List.length_cons]
      omega

/-- The characters of a string after its opening quote. -/
def spelledString : Reader Text := ⟨stringRest spelledEscape id, length_stringRest⟩

/-- Passes over the rest of a string after its opening quote. -/
def skippedString : Reader (List Unit) :=
  ⟨stringRest skippedEscape fun _ => (), length_stringRest⟩

/-! ## Values of another shape -/

/-- The rest of a word such as `null`. -/
def literal : List Char → Text → Except Fault Text
  | [], t => .ok t
  | _ :: _, [] => .error .truncated
  | c :: word, d :: t => if c = d then literal word t else .error .illFormed

/-- The rest of the word that begins with `c`. -/
def literalRest? (c : Char) : Option (List Char) :=
  if c = 'n' then some ['u', 'l', 'l']
  else if c = 't' then some ['r', 'u', 'e']
  else if c = 'f' then some ['a', 'l', 's', 'e']
  else none

/-- A numeral begins with `c`. -/
def startsNumeral (c : Char) : Bool := c = '-' || c.isDigit

/-- The fault of a text that begins with a value of another shape than the wanted one, or with no
value at all. -/
def otherShape : Text → Fault
  | [] => .truncated
  | c :: rest =>
    if c = '[' ∨ c = '\x7b' then .unfit
    else if c = '"' then
      match spelledString.run rest with
      | .error fault => fault
      | .ok _ => .unfit
    else if startsNumeral c then
      match scanNumeral (c :: rest) with
      | .error [] => .truncated
      | .error (_ :: _) => .illFormed
      | .ok (numeral, _) => if numeral.isTooLarge then .illFormed else .unfit
    else
      match literalRest? c with
      | some word =>
        match literal word rest with
        | .error fault => fault
        | .ok _ => .unfit
      | none => .illFormed

/-- Reads a string. -/
def Reader.string : Reader Text where
  run s :=
    match skipSpace s with
    | '"' :: rest => spelledString.run rest
    | other => .error (otherShape other)
  shrinks {s r a} h := by
    split at h
    · next rest hs =>
      have := length_skipSpace hs
      have := spelledString.shrinks h
      omega
    · cases h

/-- Reads a value and turns it into another one, which may fail. -/
def Reader.andThen {α β : Type} (reader : Reader α) (f : α → Except Fault β) : Reader β where
  run s :=
    match reader.run s with
    | .error fault => .error fault
    | .ok (a, rest) => (f a).map fun b => (b, rest)
  shrinks {s r b} h := by
    split at h
    · cases h
    · next a rest hs =>
      have := reader.shrinks hs
      cases hf : f a with
      | error fault => rw [hf] at h; cases h
      | ok c => rw [hf] at h; cases h; exact this

/-- Reads a whole text, with nothing but white space after the value. -/
def Reader.read {α : Type} (reader : Reader α) (t : Text) : Except Fault α :=
  match reader.run t with
  | .error fault => .error fault
  | .ok (a, rest) => if skipSpace rest = [] then .ok a else .error .illFormed

end StageGraph.Json
