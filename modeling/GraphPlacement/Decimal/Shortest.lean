import GraphPlacement.Decimal.Positional

/-!
# The fewest digits that read back

**Rule.** A finite number `m * 2 ^ q` is the answer to every real closer to it than to its neighbours,
the two midpoints included exactly when `m` is even.  Among the decimal grids `10 ^ k`, from the one
that gives a single digit to the one that gives seventeen, the first with a point among those reals is
taken; of its two points around the number the nearer one is written, the upper one when both are
equally near.

**Exactness.** All comparisons are between natural numbers.  Lengths are counted in quarters of the
last binary place, so that both midpoints are whole also below a power of two, where the lower
neighbour is only half as far away.
-/

namespace GraphPlacement.Decimal

/-- A positive decimal number, `digits * 10 ^ exponent`. -/
structure Numeral where
  digits : Nat
  exponent : Int
deriving DecidableEq

/-- A positive binary number `mantissa * 2 ^ exponent`, in the canonical form of a 64-bit float. -/
structure Binary where
  mantissa : Nat
  exponent : Int
deriving DecidableEq

namespace Binary

/-- Quarters of the last binary place between the number and the midpoint below it: two, but one at a
power of two whose lower neighbour is on a finer grid. -/
def quartersBelow (x : Binary) : Nat :=
  if x.mantissa = 1 <<< 52 ∧ x.exponent ≠ -1074 then 1 else 2

/-- The number `quarters * 2 ^ (exponent - 2)` over `10 ^ k`, as the numerator of a fraction whose
denominator is `gridUnit`. -/
def onGrid (x : Binary) (k : Int) (quarters : Nat) : Nat :=
  (quarters <<< (x.exponent - 2).toNat) * tenTo (-k).toNat

/-- The denominator that goes with `onGrid`: one step of the grid `10 ^ k`. -/
def gridUnit (x : Binary) (k : Int) : Nat :=
  tenTo k.toNat <<< (2 - x.exponent).toNat

/-- Whether the positive decimal number `d * 10 ^ k` reads back as `x`. -/
def readsBack (x : Binary) (k : Int) (d : Nat) : Bool :=
  let point := d * x.gridUnit k
  let low := x.onGrid k (4 * x.mantissa - x.quartersBelow)
  let high := x.onGrid k (4 * x.mantissa + 2)
  d ≠ 0 && if x.mantissa % 2 = 0 then low ≤ point && point ≤ high else low < point && point < high

/-- The point of the grid `10 ^ k` to write for `x`, if one of its two neighbours there reads back. -/
def pointOn? (x : Binary) (k : Int) : Option Nat :=
  let exact := x.onGrid k (4 * x.mantissa)
  let unit := x.gridUnit k
  let d := exact / unit
  match x.readsBack k d, x.readsBack k (d + 1) with
  | true, true => if exact - d * unit < (d + 1) * unit - exact then some d else some (d + 1)
  | true, false => some d
  | false, true => some (d + 1)
  | false, false => none

/-- The exponent of ten of the first digit of `x`. -/
def leadingPlace (x : Binary) : Int :=
  let scaled := ((x.mantissa <<< x.exponent.toNat) * tenTo 400) >>> (-x.exponent).toNat
  ((Text.decimal scaled).length : Int) - 401

/-- The shortest decimal number that reads back as `x`. -/
def shortest (x : Binary) : Numeral :=
  let found := (List.range 17).findSome? fun (n : Nat) =>
    (x.pointOn? (x.leadingPlace - n)).map fun d => ⟨d, x.leadingPlace - n⟩
  found.getD ⟨x.mantissa, 0⟩

end Binary

/-- Writes a decimal number in positional notation. -/
def Numeral.positional (x : Numeral) : String :=
  withNeededPlaces (-x.exponent).toNat (x.digits * tenTo x.exponent.toNat)

/-- The sign in front of a number. -/
def signText : Float.Model.UnpackedFloat.Sign → String
  | .positive => ""
  | .negative => "-"

/-- Writes a number with the fewest digits that read back, never with an exponent; a whole number gets
no point and zero keeps its sign. -/
def shortest (x : Float) : String :=
  match x.toModel.unpack with
  | .notANumber => "NaN"
  | .infinity sign => signText sign ++ "inf"
  | .zero sign => signText sign ++ "0"
  | .finite sign m q _ => signText sign ++ (Binary.shortest ⟨m, q⟩).positional

end GraphPlacement.Decimal
