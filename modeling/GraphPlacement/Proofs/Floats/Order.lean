import GraphPlacement.Proofs.Floats.Counts
import Mathlib.Data.Prod.Lex

/-!
# The order of floats

**Height.** Floats are compared by their class first: from one infinity over the negative floats, zero, and
the positive floats to the other infinity.  Floats of one class are compared by their exponents and then by
their mantissas, the other way round below zero.  `height` puts these into one triple of integers, so that
"less" among numbers is the order of triples (`lt_iff_height`), which is linear.

**No number.** What is not a number is neither below nor above anything (`isNaN_of_lt`), so that "less" is
asymmetric among all floats.

**Zero.** A product with zero is zero or no number; it is never above zero: `not_pos_zero_mul`.
-/

namespace GraphPlacement.Rounding

open Float.Model (UnpackedFloat)

variable {a b c : Float} {x y : UnpackedFloat}

/-! ## Height -/

/-- Where a number stands among all others: its class, and within it exponent and mantissa. -/
def height : UnpackedFloat → ℤ ×ₗ ℤ ×ₗ ℤ
  | .infinity .negative => toLex (-2, toLex (0, 0))
  | .finite .negative m e _ => toLex (-1, toLex (-e, -m))
  | .zero _ | .notANumber => toLex (0, toLex (0, 0))
  | .finite .positive m e _ => toLex (1, toLex (e, m))
  | .infinity .positive => toLex (2, toLex (0, 0))

theorem isNaN_of_unpacked_lt (h : UnpackedFloat.lt x y = true) : x.isNaN = false ∧ y.isNaN = false := by
  cases x <;> cases y <;> simp_all [UnpackedFloat.lt, UnpackedFloat.compare, UnpackedFloat.isNaN]

theorem unpacked_lt_iff_height (hx : x.isNaN = false) (hy : y.isNaN = false) :
    UnpackedFloat.lt x y = true ↔ height x < height y := by
  have hsigns : compare UnpackedFloat.Sign.negative UnpackedFloat.Sign.positive = .lt := rfl
  rcases x with (_ | _) | _ | _ | ⟨_ | _, m, e, _⟩ <;> rcases y with (_ | _) | _ | _ | ⟨_ | _, m', e', _⟩ <;>
    simp_all [UnpackedFloat.lt, UnpackedFloat.compare, UnpackedFloat.isNaN, height,
      Prod.Lex.toLex_lt_toLex, Ordering.then_eq_lt, Ordering.then_eq_gt, Int.compare_eq_lt,
      Int.compare_eq_gt, Nat.compare_eq_lt, Nat.compare_eq_gt]

theorem isNaN_of_lt (h : a < b) : a.isNaN = false ∧ b.isNaN = false :=
  isNaN_of_unpacked_lt (lt_iff_unpack.mp h)

/-- **Numbers are ordered by their heights.** -/
theorem lt_iff_height (ha : a.isNaN = false) (hb : b.isNaN = false) :
    a < b ↔ height a.toModel.unpack < height b.toModel.unpack :=
  lt_iff_unpack.trans (unpacked_lt_iff_height ha hb)

theorem not_lt_of_lt (h : a < b) : ¬b < a := by
  obtain ⟨ha, hb⟩ := isNaN_of_lt h
  rw [lt_iff_height ha hb] at h
  rw [lt_iff_height hb ha]
  exact not_lt_of_gt h

/-- A number that is not below another one is above whatever that is above. -/
theorem lt_of_lt_of_not_lt (h : a < b) (hc : c.isNaN = false) (hle : ¬c < b) : a < c := by
  obtain ⟨ha, hb⟩ := isNaN_of_lt h
  rw [lt_iff_height ha hb] at h
  rw [lt_iff_height hc hb, not_lt] at hle
  exact (lt_iff_height ha hc).mpr (h.trans_le hle)

/-! ## Zero -/

theorem unpack_zero : (0 : Nat).toFloat.toModel.unpack = .zero .positive := rfl

/-- A product with zero is never above zero, whatever the other factor is. -/
theorem not_pos_zero_mul (c : Float) : ¬0.0 < (0 : Nat).toFloat * c := by
  have hproduct : ((0 : Nat).toFloat * c).toModel =
      .pack (.mul Float.Model.Format.binary64 (.zero .positive) c.toModel.unpack) := by
    rw [← unpack_zero]
    rfl
  rw [lt_iff_unpack, hproduct]
  rcases c.toModel.unpack with (_ | _) | _ | (_ | _) | ⟨_ | _, m, e, hm⟩ <;>
    simp only [UnpackedFloat.mul] <;> decide

end GraphPlacement.Rounding
