import GraphPlacement.Text.Numeral

/-!
# Reading decimal numbers

**Form.** An optional sign, then either one of the names `inf`, `infinity` and `nan` in any case, or
decimal digits with an optional point among, before or after them (at least one digit in all) and an
optional exponent: `e` or `E`, an optional sign and at least one digit.  Nothing may stand before or
after it.

**Value.** The float nearest to the number that is written, a tie going to the even one; too large a
number is infinite.
-/

namespace GraphPlacement.Decimal

/-- A sign and what follows it; no sign counts as plus.  The flag says that the sign is minus. -/
def splitSign : List Char → Bool × List Char
  | '+' :: cs => (false, cs)
  | '-' :: cs => (true, cs)
  | cs => (false, cs)

/-- The digits at the start of a text, and the rest. -/
def splitDigits (cs : List Char) : List Char × List Char :=
  (cs.takeWhile Char.isDigit, cs.dropWhile Char.isDigit)

/-- The digits before and after the point, and the rest. -/
def splitPoint (cs : List Char) : List Char × List Char × List Char :=
  match splitDigits cs with
  | (front, '.' :: rest) => let (back, rest) := splitDigits rest; (front, back, rest)
  | (front, rest) => (front, [], rest)

/-- The exponent that a text consists of; none at all counts as zero. -/
def exponent? : List Char → Option Int
  | [] => some 0
  | c :: cs =>
    if c = 'e' ∨ c = 'E' then
      let (negative, ds) := splitSign cs
      (Text.digits? ds).map fun n => if negative then -(n : Int) else n
    else none

/-- The magnitude that a text without a sign stands for. -/
def magnitude? (cs : List Char) : Option Float :=
  let name := String.ofList (cs.map Char.toLower)
  if name = "inf" ∨ name = "infinity" then some (1.0 / 0.0)
  else if name = "nan" then some (0.0 / 0.0)
  else
    let (front, back, rest) := splitPoint cs
    if front ++ back = [] then none
    else (exponent? rest).map fun (e : Int) =>
      let place : Int := e - back.length
      Float.ofScientific (Nat.ofDigitChars 10 (front ++ back) 0) (place < 0) place.natAbs

def read? (text : String) : Option Float :=
  let (negative, cs) := splitSign text.toList
  (magnitude? cs).map fun x => if negative then -x else x

end GraphPlacement.Decimal
