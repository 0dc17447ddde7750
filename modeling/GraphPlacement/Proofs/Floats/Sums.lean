import GraphPlacement.Proofs.Floats.Order

/-!
# Sums with zero

**Nothing added.** A product of a number with zero is zero, and a number to which zero is added is at no distance
from itself (`isZero_distance`).  This is so for floats as for any numbers, since neither sum is rounded.

**Signs.** A product of positive floats may be rounded to zero, but it is not below it: `not_mul_lt_zero`.
-/

namespace GraphPlacement.Rounding

open Float.Model (Format UnpackedFloat)
open Float.Model.UnpackedFloat (Sign)

variable {x y z : Float}

/-! ## Zero -/

/-- Whether a float is zero, with either sign. -/
def IsZero (x : Float) : Prop := ∃ sign, x.toModel.unpack = .zero sign

theorem unpack_pack_zero (sign : Sign) : (Float.Model.pack (.zero sign)).unpack = .zero sign :=
  UnpackedFloat.unpack_packedZero

theorem pack_unpack (x : Float.Model) : Float.Model.pack x.unpack = x := by
  obtain ⟨bits, hvalid⟩ := x
  have hbits : UnpackedFloat.pack Format.binary64 (UnpackedFloat.unpack Format.binary64 bits.toBitVec) =
      bits.toBitVec := UnpackedFloat.pack_unpack_of_valid hvalid
  simp only [Float.Model.pack, Float.Model.unpack, hbits]

theorem IsZero.mul (hz : IsZero z) (hx : x.isFinite = true) : IsZero (x * z) := by
  obtain ⟨sign, hz⟩ := hz
  have hproduct : (x * z).toModel = .pack (.mul Format.binary64 x.toModel.unpack z.toModel.unpack) := rfl
  have hx : x.toModel.unpack.isFinite = true := hx
  rw [IsZero, hproduct, hz]
  rcases hunpack : x.toModel.unpack with _ | _ | s | ⟨s, m, e, hm⟩
  · rw [hunpack] at hx
    cases hx
  · rw [hunpack] at hx
    cases hx
  · exact ⟨s * sign, unpack_pack_zero _⟩
  · exact ⟨s * sign, unpack_pack_zero _⟩

theorem IsZero.abs (hz : IsZero z) : IsZero z.abs := by
  obtain ⟨sign, hz⟩ := hz
  have habs : z.abs.toModel = .pack z.toModel.unpack.abs := rfl
  rw [IsZero, habs, hz]
  exact ⟨.positive, unpack_pack_zero _⟩

/-- A sum of zeros is zero, of one sign or the other. -/
theorem add_zeros (sign sign' : Sign) :
    ∃ s, UnpackedFloat.add Format.binary64 (.zero sign) (.zero sign') = .zero s := by
  cases sign <;> cases sign' <;> exact ⟨_, rfl⟩

theorem sub_zeros (sign sign' : Sign) :
    ∃ s, UnpackedFloat.sub Format.binary64 (.zero sign) (.zero sign') = .zero s := by
  cases sign <;> cases sign' <;> exact ⟨_, rfl⟩

/-- A number is at no distance from itself. -/
theorem isZero_distance_self (hx : x.isFinite = true) : IsZero (x - x).abs := by
  refine IsZero.abs ?_
  have hx : x.toModel.unpack.isFinite = true := hx
  have hdifference : (x - x).toModel = .pack (.sub Format.binary64 x.toModel.unpack x.toModel.unpack) := rfl
  rw [IsZero, hdifference]
  rcases hunpack : x.toModel.unpack with _ | _ | s | ⟨s, m, e, hm⟩
  · rw [hunpack] at hx
    cases hx
  · rw [hunpack] at hx
    cases hx
  · obtain ⟨sign, hsub⟩ := sub_zeros s s
    exact ⟨sign, by rw [hsub, unpack_pack_zero]⟩
  · refine ⟨.positive, ?_⟩
    simp only [UnpackedFloat.sub, Int.sub_self]
    exact unpack_pack_zero _

/-- What is no finite float has no distance from itself. -/
theorem isNaN_distance_self (hx : x.isFinite = false) : (x - x).abs.isNaN = true := by
  have hx : x.toModel.unpack.isFinite = false := hx
  have hdistance : (x - x).abs.toModel =
      .pack (Float.Model.pack (.sub Format.binary64 x.toModel.unpack x.toModel.unpack)).unpack.abs := rfl
  show (x - x).abs.toModel.unpack.isNaN = true
  rw [hdistance]
  rcases hunpack : x.toModel.unpack with (_ | _) | _ | s | ⟨s, m, e, hm⟩
  · rfl
  · rfl
  · rfl
  · rw [hunpack] at hx
    cases hx
  · rw [hunpack] at hx
    cases hx

/-- **A number is at no distance from itself with zero added.** -/
theorem isZero_distance (hx : x.isFinite = true) (hz : IsZero z) : IsZero (x - (x + z)).abs := by
  obtain ⟨sign, hz⟩ := hz
  have hfinite : x.toModel.unpack.isFinite = true := hx
  have hsum : (x + z).toModel = .pack (.add Format.binary64 x.toModel.unpack z.toModel.unpack) := rfl
  have hdifference : (x - (x + z)).toModel =
      .pack (.sub Format.binary64 x.toModel.unpack (x + z).toModel.unpack) := rfl
  rw [hz] at hsum
  rcases hunpack : x.toModel.unpack with _ | _ | s | ⟨s, m, e, hm⟩
  · rw [hunpack] at hfinite
    cases hfinite
  · rw [hunpack] at hfinite
    cases hfinite
  · obtain ⟨sumSign, hadd⟩ := add_zeros s sign
    obtain ⟨differenceSign, hsub⟩ := sub_zeros s sumSign
    rw [hunpack, hadd] at hsum
    refine IsZero.abs ⟨differenceSign, ?_⟩
    rw [hdifference, hunpack, hsum, unpack_pack_zero, hsub, unpack_pack_zero]
  · have hsame : (x + z).toModel = x.toModel := by
      rw [hsum, hunpack]
      show Float.Model.pack (.finite s m e hm) = _
      rw [← hunpack, pack_unpack]
    rw [show x + z = x from congrArg Float.ofModel hsame]
    exact isZero_distance_self hx

/-! ## Signs -/

/-- Whether an unpacked float is above zero. -/
def IsPositive (x : UnpackedFloat) : Prop := x = .infinity .positive ∨ ∃ m e hm, x = .finite .positive m e hm

theorem isPositive_of_lt {m : Nat} {e : Int} {hm : 0 < m} {x : UnpackedFloat}
    (h : UnpackedFloat.lt (.finite .positive m e hm) x = true) : IsPositive x := by
  rcases finite_lt_iff.mp h with rfl | ⟨m', e', hm', rfl, -⟩
  · exact Or.inl rfl
  · exact Or.inr ⟨m', e', hm', rfl⟩

/-- What is packed with a positive sign is not below zero. -/
theorem not_packComponents_lt_zero (exponent : BitVec 11) (mantissa : BitVec 52) (sign : Sign) :
    UnpackedFloat.lt (UnpackedFloat.unpack Format.binary64
      (UnpackedFloat.packComponents Format.binary64 .positive exponent mantissa)) (.zero sign) = false := by
  have hsign : UnpackedFloat.unpackSign
      (UnpackedFloat.packComponents Format.binary64 .positive exponent mantissa) = Sign.positive.toBitVec :=
    unpackSign_packComponents .positive exponent mantissa
  unfold UnpackedFloat.unpack
  simp only [hsign]
  split
  · split <;> rfl
  · split
    · split <;> rfl
    · rfl

theorem not_pack_lt_zero {x : UnpackedFloat} (hx : IsPositive x ∨ x = .zero .positive) (sign : Sign) :
    UnpackedFloat.lt (Float.Model.pack x).unpack (.zero sign) = false := by
  rcases hx with (rfl | ⟨m, e, hm, rfl⟩) | rfl
  · exact not_packComponents_lt_zero _ _ sign
  · show UnpackedFloat.lt (UnpackedFloat.unpack _ (UnpackedFloat.pack _ _)) _ = false
    unfold UnpackedFloat.pack
    dsimp only
    split
    · exact not_packComponents_lt_zero _ _ sign
    · split <;> exact not_packComponents_lt_zero _ _ sign
  · rw [unpack_pack_zero]
    rfl

/-- **A product of positive floats is not below zero.** -/
theorem not_mul_lt_zero (hx : IsPositive x.toModel.unpack) (hy : IsPositive y.toModel.unpack) (hz : IsZero z) :
    ¬x * y < z := by
  obtain ⟨sign, hz⟩ := hz
  have hproduct : (x * y).toModel = .pack (.mul Format.binary64 x.toModel.unpack y.toModel.unpack) := rfl
  rw [lt_iff_unpack, hproduct, hz, Bool.not_eq_true]
  refine not_pack_lt_zero ?_ sign
  rcases hx with hx | ⟨m, e, hm, hx⟩ <;> rcases hy with hy | ⟨m', e', hm', hy⟩ <;> rw [hx, hy]
  · exact Or.inl (Or.inl rfl)
  · exact Or.inl (Or.inl rfl)
  · exact Or.inl (Or.inl rfl)
  · show IsPositive (UnpackedFloat.roundWithAccuracy _ _ _ _ _) ∨ UnpackedFloat.roundWithAccuracy _ _ _ _ _ = _
    unfold UnpackedFloat.roundWithAccuracy
    dsimp only
    split
    · exact Or.inr rfl
    · exact Or.inl (Or.inr ⟨_, _, _, rfl⟩)

end GraphPlacement.Rounding
