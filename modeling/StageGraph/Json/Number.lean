import StageGraph.Text.Digit

set_option autoImplicit false

/-! # Numbers in a JSON text

A numeral is an optional minus, an integer part without superfluous zeros, and optionally a
fraction and an exponent, each with at least one digit. Its size is of interest only in that it may
exceed the double-precision numbers.
-/

namespace StageGraph.Json

open Text (digitsValue)

/-- The digits of a numeral, and the exponent it states. -/
structure Numeral where
  integer : Text
  fraction : Text
  exponent : Int

/-- The leading digits of a text and what follows them. -/
def spanDigits (t : Text) : Text × Text := (t.takeWhile Char.isDigit, t.dropWhile Char.isDigit)

/-- At least one digit, and what follows. The error is the text where a digit is missing. -/
def someDigits (t : Text) : Except Text (Text × Text) :=
  let (digits, rest) := spanDigits t
  if digits = [] then .error rest else .ok (digits, rest)

/-- The integer part of a numeral: a zero alone, or digits that begin with another one. -/
def scanInteger (t : Text) : Except Text (Text × Text) := do
  let (digits, rest) ← someDigits t
  match digits with
  | '0' :: c :: more => .error (c :: more ++ rest)
  | _ => .ok (digits, rest)

/-- The fraction of a numeral, if there is one. -/
def scanFraction : Text → Except Text (Text × Text)
  | '.' :: rest => someDigits rest
  | t => .ok ([], t)

/-- The exponent of a numeral, if there is one. -/
def scanExponent : Text → Except Text (Int × Text)
  | c :: rest =>
    if c = 'e' ∨ c = 'E' then
      match rest with
      | '-' :: rest => (someDigits rest).map fun found => (-(digitsValue found.1 : Int), found.2)
      | '+' :: rest => (someDigits rest).map fun found => ((digitsValue found.1 : Int), found.2)
      | rest => (someDigits rest).map fun found => ((digitsValue found.1 : Int), found.2)
    else .ok (0, c :: rest)
  | [] => .ok (0, [])

/-- The text without the minus it may begin with. -/
def afterMinus : Text → Text
  | '-' :: rest => rest
  | t => t

/-- The numeral that a text begins with, and what follows it. The error is the text at which the
numeral breaks off. -/
def scanNumeral (t : Text) : Except Text (Numeral × Text) := do
  let (integer, rest) ← scanInteger (afterMinus t)
  let (fraction, rest) ← scanFraction rest
  let (exponent, rest) ← scanExponent rest
  .ok (⟨integer, fraction, exponent⟩, rest)

/-! ## Numerals too large for a double -/

/-- The number rounded to 53 binary digits, a half to the even neighbour. -/
def roundTo53 (n : Nat) : Nat :=
  if n.log2 < 53 then n
  else
    let unit := Nat.pow 2 (n.log2 - 52)
    let low := n / unit * unit
    let half := unit / 2
    if n - low < half ∨ (n - low = half ∧ n / unit % 2 = 0) then low else low + unit

/-- The digits that a significand of 64 bits has room for: the longest opening part of the digits
whose value stays below 2^64. The answer is that value and the number of digits used. -/
def significand (value used : Nat) : Text → Nat × Nat
  | [] => (value, used)
  | c :: rest =>
    let next := 10 * value + (c.toNat - '0'.toNat)
    if next < 2 ^ 64 then significand next (used + 1) rest else (value, used)

/-- The numeral, taken as a significand times a power of ten, has no finite double. A significand
that needs more than the power `10^308` is too large as soon as it is not zero. -/
def Numeral.isTooLarge (n : Numeral) : Bool :=
  let (value, used) := significand 0 0 (n.integer ++ n.fraction)
  let exponent : Int := n.exponent + n.integer.length - used
  if value = 0 ∨ exponent < 0 then false
  else if 308 < exponent then true
  else Nat.pow 2 1024 - Nat.pow 2 970 ≤ roundTo53 value * roundTo53 (Nat.pow 10 exponent.toNat)

end StageGraph.Json
