import GraphPlacement.Decimal.Shortest

/-!
# A fixed number of places

**Rule.** A number is rounded to a given count of decimal places from its exact binary value; a value
halfway between two decimal numbers goes to the one whose last digit is even.  The sign of a negative
number stays when the digits left are all zero.
-/

namespace GraphPlacement.Decimal

/-- The whole number nearest to `num / den`; halfway, the even one. -/
def roundHalfEven (num den : Nat) : Nat :=
  let low := num / den
  let rest := num % den
  if 2 * rest < den then low
  else if den < 2 * rest then low + 1
  else if low % 2 = 0 then low else low + 1

/-- The count of units of `10 ^ -places` nearest to a binary number. -/
def Binary.units (places : Nat) (x : Binary) : Nat :=
  roundHalfEven ((x.mantissa <<< x.exponent.toNat) * tenTo places) (1 <<< (-x.exponent).toNat)

/-- Writes a number with exactly `places` digits after the point. -/
def fixed (places : Nat) (x : Float) : String :=
  match x.toModel.unpack with
  | .notANumber => "NaN"
  | .infinity sign => signText sign ++ "inf"
  | .zero sign => signText sign ++ withPlaces places 0
  | .finite sign m q _ => signText sign ++ withPlaces places (Binary.units places ⟨m, q⟩)

end GraphPlacement.Decimal
