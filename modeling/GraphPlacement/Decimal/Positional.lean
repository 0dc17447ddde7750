import GraphPlacement.Text.Numeral

/-!
# Positional notation

**Notation.** A number counted in units of `10 ^ -places` is written with its whole part, a point and
exactly `places` digits.  Two writers share it: the one for a fixed number of places, and the one for
the fewest digits, which leaves out zeros at the end of the fraction and a point with nothing after it.
Neither ever writes an exponent.
-/

namespace GraphPlacement.Decimal

open GraphPlacement.Text (decimal)

def tenTo (n : Nat) : Nat := Nat.pow 10 n

/-- The digits of `n`, with zeros in front up to `width` characters. -/
def padded (width n : Nat) : List Char :=
  let ds := (decimal n).toList
  List.replicate (width - ds.length) '0' ++ ds

/-- The whole part of `n` units of `10 ^ -places`. -/
def whole (places n : Nat) : String := decimal (n / tenTo places)

/-- The `places` digits after the point of `n` units of `10 ^ -places`. -/
def fraction (places n : Nat) : List Char := padded places (n % tenTo places)

/-- Writes `n` units of `10 ^ -places` with all its places. -/
def withPlaces (places n : Nat) : String :=
  if places = 0 then decimal n
  else whole places n ++ "." ++ String.ofList (fraction places n)

def dropEndZeros (ds : List Char) : List Char :=
  (ds.reverse.dropWhile (· = '0')).reverse

/-- Writes `n` units of `10 ^ -places` with no more places than it needs. -/
def withNeededPlaces (places n : Nat) : String :=
  match dropEndZeros (fraction places n) with
  | [] => whole places n
  | ds => whole places n ++ "." ++ String.ofList ds

end GraphPlacement.Decimal
