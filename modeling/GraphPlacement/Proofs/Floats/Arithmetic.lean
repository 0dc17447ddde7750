import GraphPlacement.Proofs.Floats.Values

/-!
# Arithmetic of floats

**Operations.** Each operation reckons with as many bits as it takes, and rounds what comes out.  So the sum, the
product and the quotient of two floats are what the exact number is rounded to, and the difference is so up to its
sign.

**Packing.** A float whose exponent is too large becomes infinite when it is packed, which happens to large
numbers only (`RoundsTo`).  A float that is not above some other one has not become infinite:
`RoundsTo.isRounded_of_not_lt`.
-/

namespace GraphPlacement.Rounding

open Float.Model (Format totalExponent UnpackedFloat)
open Float.Model.UnpackedFloat

variable {m m' n unit : Nat} {e e' : Int} {x y : UnpackedFloat} {a b c : Float} {v : ℚ}

/-! ## Sums and differences -/

theorem isRounded_self (hx : Unsigned x) : IsRounded (magnitude x) x := by
  refine ⟨hx, ?_, fun y _ hle => hle⟩
  have hpos := magnitude_nonneg x
  rw [sub_self, abs_zero]
  positivity

/-- A float whose exponent is made smaller stands for the same number. -/
theorem decreaseExponent_eq (m : Nat) {e f : Int} (hle : f ≤ e) :
    ((decreaseExponent m e f).1 : ℚ) * 2 ^ f = m * 2 ^ e := by
  obtain ⟨k, rfl⟩ : ∃ k : Nat, e = f + k := ⟨(e - f).toNat, by omega⟩
  have hshift : (f + k - f).toNat = k := by omega
  rw [decreaseExponent, hshift, Nat.shiftLeft_eq, zpow_add₀ (by norm_num), zpow_natCast]
  push_cast
  ring

theorem isRounded_add (hx : Unsigned x) (hy : Unsigned y) :
    IsRounded (magnitude x + magnitude y) (UnpackedFloat.add Format.binary64 x y) := by
  rcases hx.cases with ⟨s, rfl⟩ | ⟨m, e, hm, rfl, h⟩
  · rcases hy.cases with ⟨s', rfl⟩ | ⟨m', e', hm', rfl, h'⟩
    · obtain ⟨sign, hadd⟩ := add_zeros s s'
      rw [hadd]
      exact zero_add (0 : ℚ) ▸ isRounded_self (x := .zero sign) trivial
    · exact (zero_add (m' * 2 ^ e' : ℚ)).symm ▸ isRounded_self hy
  · rcases hy.cases with ⟨s', rfl⟩ | ⟨m', e', hm', rfl, h'⟩
    · exact (add_zero (m * 2 ^ e : ℚ)).symm ▸ isRounded_self hx
    · have hsum : (((decreaseExponent m e (min e e')).1 + (decreaseExponent m' e' (min e e')).1 : Int) : ℚ) *
          2 ^ min e e' = m * 2 ^ e + m' * 2 ^ e' := by
        push_cast
        rw [add_mul, decreaseExponent_eq m (min_le_left e e'), decreaseExponent_eq m' (min_le_right e e')]
      have hpos : (0 : Int) < (decreaseExponent m e (min e e')).1 + (decreaseExponent m' e' (min e e')).1 := by
        have hsum_pos := add_pos (mul_two_pow_pos hm e) (mul_two_pow_pos hm' e')
        rw [← hsum] at hsum_pos
        exact_mod_cast pos_of_mul_pos_left hsum_pos (by positivity)
      obtain ⟨r, t, hround, -, hrounded⟩ := exists_normalize hpos.ne' (min e e') .positive
      rw [abs_of_pos (by exact_mod_cast hpos), hsum] at hrounded
      have hadd : UnpackedFloat.add Format.binary64 (.finite .positive m e hm) (.finite .positive m' e' hm') =
          settle .positive r t := hround.trans (by rw [if_pos hpos])
      rw [hadd]
      exact hrounded

theorem abs_settle (sign : Sign) (r : Nat) (t : Int) : (settle sign r t).abs = settle .positive r t := by
  unfold settle
  split
  · rfl
  · split <;> rfl

/-- Whichever of two floats is the larger one, their difference is what their distance is rounded to. -/
theorem isRounded_distance (hx : Unsigned x) (hy : Unsigned y) :
    IsRounded |magnitude x - magnitude y| (UnpackedFloat.sub Format.binary64 x y).abs := by
  rcases hx.cases with ⟨s, rfl⟩ | ⟨m, e, hm, rfl, h⟩
  · rw [magnitude, zero_sub, abs_neg, abs_of_nonneg (magnitude_nonneg y)]
    rcases hy.cases with ⟨s', rfl⟩ | ⟨m', e', hm', rfl, h'⟩
    · obtain ⟨sign, hsub⟩ := sub_zeros s s'
      rw [hsub]
      exact isRounded_self (x := .zero .positive) trivial
    · exact isRounded_self hy
  · rcases hy.cases with ⟨s', rfl⟩ | ⟨m', e', hm', rfl, h'⟩
    · rw [magnitude, magnitude, sub_zero, abs_of_pos (mul_two_pow_pos hm e)]
      exact isRounded_self hx
    · have hdifference :
          (((decreaseExponent m e (min e e')).1 - (decreaseExponent m' e' (min e e')).1 : Int) : ℚ) *
            2 ^ min e e' = m * 2 ^ e - m' * 2 ^ e' := by
        push_cast
        rw [sub_mul, decreaseExponent_eq m (min_le_left e e'), decreaseExponent_eq m' (min_le_right e e')]
      have hunit : (0 : ℚ) < 2 ^ min e e' := by positivity
      have hsub : UnpackedFloat.sub Format.binary64 (.finite .positive m e hm) (.finite .positive m' e' hm') =
        UnpackedFloat.normalize Format.binary64
          ((decreaseExponent m e (min e e')).1 - (decreaseExponent m' e' (min e e')).1) (min e e') .positive := rfl
      rw [hsub, magnitude, magnitude, ← hdifference, abs_mul, abs_of_pos hunit]
      generalize ((decreaseExponent m e (min e e')).1 - (decreaseExponent m' e' (min e e')).1 : Int) = z
      by_cases hz : z = 0
      · subst hz
        rw [Int.cast_zero, abs_zero, zero_mul]
        exact isRounded_self (x := .zero .positive) trivial
      · obtain ⟨r, t, hround, -, hrounded⟩ := exists_normalize hz (min e e') .positive
        rw [hround, abs_settle]
        exact hrounded

/-! ## Products and quotients -/

theorem isRounded_mul (hx : Unsigned x) (hy : Unsigned y) :
    IsRounded (magnitude x * magnitude y) (UnpackedFloat.mul Format.binary64 x y) := by
  rcases hx.cases with ⟨s, rfl⟩ | ⟨m, e, hm, rfl, h⟩
  · have hmul : ∃ sign, UnpackedFloat.mul Format.binary64 (.zero s) y = .zero sign := by
      rcases hy.cases with ⟨s', rfl⟩ | ⟨m', e', hm', rfl, h'⟩ <;> exact ⟨_, rfl⟩
    obtain ⟨sign, hmul⟩ := hmul
    rw [hmul, magnitude, zero_mul]
    exact isRounded_self (x := .zero sign) trivial
  · rcases hy.cases with ⟨s', rfl⟩ | ⟨m', e', hm', rfl, h'⟩
    · rw [magnitude, magnitude, mul_zero]
      exact isRounded_self (x := .zero _) trivial
    · have hfull : 2 ^ 52 ≤ m * m' ∨ e + e' ≤ -1074 := by
        rcases h.full with hm52 | he
        · exact Or.inl (hm52.trans (Nat.le_mul_of_pos_right m hm'))
        · rcases h'.full with hm52 | he'
          · exact Or.inl (hm52.trans (Nat.le_mul_of_pos_left m' hm))
          · exact Or.inr (by omega)
      obtain ⟨r, t, hround, -, hrounded⟩ := exists_settle_exact hfull
      rw [show ((m * m' : Nat) : ℚ) * 2 ^ (e + e') = m * 2 ^ e * (m' * 2 ^ e') by
        rw [zpow_add₀ (by norm_num)]
        push_cast
        ring] at hrounded
      have hmul : UnpackedFloat.mul Format.binary64 (.finite .positive m e hm) (.finite .positive m' e' hm') =
          settle .positive r t := hround .positive
      rw [hmul]
      exact hrounded

/-- How a quotient goes on is told by its remainder. -/
theorem approximates_div (n : Nat) (hunit : 0 < unit) :
    Approximates n unit
      (ExtendedMantissa.ofMantissaAndAccuracy (n / unit) (accuracyOfFraction (n % unit) unit)) := by
  have hsplit := Nat.div_add_mod' n unit
  have hlt := Nat.mod_lt n hunit
  unfold accuracyOfFraction
  generalize n / unit = q at *
  generalize n % unit = left at *
  split
  case isTrue hzero => exact (by omega : n = q * unit)
  case isFalse hsome =>
    rcases hcompare : compare (2 * left) unit with _ | _ | _
    · have hless := Nat.compare_eq_lt.mp hcompare
      simp only [ExtendedMantissa.ofMantissaAndAccuracy, Approximates, Nat.add_mul, Nat.mul_assoc]
      omega
    · have heq := Nat.compare_eq_eq.mp hcompare
      simp only [ExtendedMantissa.ofMantissaAndAccuracy, Approximates, Nat.add_mul, Nat.mul_assoc]
      omega
    · have hmore := Nat.compare_eq_gt.mp hcompare
      simp only [ExtendedMantissa.ofMantissaAndAccuracy, Approximates, Nat.add_mul, Nat.mul_assoc]
      omega

/-- A quotient is taken with all the bits that a mantissa has. -/
theorem exists_divCore (hm : 0 < m) (hm' : 0 < m') (e e' : Int) :
    ∃ (k : Nat) (t : Int), t + k = e - e' ∧ (2 ^ 52 ≤ m * 2 ^ k / m' ∨ t ≤ -1074) ∧
      divCore Format.binary64 m e m' e' =
        (m * 2 ^ k / m', t, accuracyOfFraction (m * 2 ^ k % m') m') := by
  have hlow := Nat.log2_self_le hm.ne'
  have hhigh : m' < 2 ^ (m'.log2 + 1) := Nat.lt_log2_self
  obtain ⟨t, ht⟩ : ∃ t, min (e - e') (max ((m.log2 : Int) + e - (m'.log2 + e') - 53) (-1074)) = t := ⟨_, rfl⟩
  obtain ⟨k, hk⟩ : ∃ k : Nat, e - e' - t = k := ⟨(e - e' - t).toNat, by omega⟩
  have htarget : Format.binary64.targetExponent (totalExponent m e - totalExponent m' e') =
      max ((m.log2 : Int) + e - (m'.log2 + e') - 53) (-1074) := by
    simp only [Format.targetExponent, totalExponent, Format.mantissaBits, Format.minExponent]
    omega
  refine ⟨k, t, by omega, (Classical.em (t ≤ -1074)).symm.imp_left fun hbits => ?_, ?_⟩
  · rw [Nat.le_div_iff_mul_le hm']
    calc 2 ^ 52 * m' ≤ 2 ^ 52 * 2 ^ (m'.log2 + 1) := Nat.mul_le_mul_left _ hhigh.le
      _ = 2 ^ (52 + (m'.log2 + 1)) := (Nat.pow_add ..).symm
      _ ≤ 2 ^ (m.log2 + k) := Nat.pow_le_pow_right (by decide) (by omega)
      _ = 2 ^ m.log2 * 2 ^ k := Nat.pow_add ..
      _ ≤ m * 2 ^ k := Nat.mul_le_mul_right _ hlow
  · simp only [divCore, htarget, ht, hk, Int.toNat_natCast, Nat.shiftLeft_eq]

theorem isRounded_div (hm : 0 < m) (hm' : 0 < m') (e e' : Int) :
    IsRounded (m * 2 ^ e / (m' * 2 ^ e'))
      (UnpackedFloat.div Format.binary64 (.finite .positive m e hm) (.finite .positive m' e' hm')) := by
  obtain ⟨k, t, ht, hfull, hcore⟩ := exists_divCore hm hm' e e'
  obtain ⟨r, f, hround, -, hrounded⟩ := exists_settle hm' (approximates_div (m * 2 ^ k) hm') hfull
  have hdiv : UnpackedFloat.div Format.binary64 (.finite .positive m e hm) (.finite .positive m' e' hm') =
      settle .positive r f := by
    rw [← hround .positive]
    simp only [UnpackedFloat.div, hcore]
    rfl
  have hquotient : ((m * 2 ^ k : Nat) : ℚ) / m' * 2 ^ t = m * 2 ^ e / (m' * 2 ^ e') := by
    have hm' : (0 : ℚ) < m' := by exact_mod_cast hm'
    have hpow : (2 : ℚ) ^ k * 2 ^ t * 2 ^ e' = 2 ^ e := by
      rw [← zpow_natCast, ← zpow_add₀ (by norm_num), ← zpow_add₀ (by norm_num)]
      congr 1
      omega
    rw [← hpow]
    push_cast
    field_simp
  rw [hdiv, ← hquotient]
  exact hrounded

/-! ## Numbers -/

/-- How large the number is that a float stands for. -/
def number (a : Float) : ℚ := magnitude a.toModel.unpack

/-- Whether a float is a number that is not negative. -/
def IsNumber (a : Float) : Prop := Unsigned a.toModel.unpack

theorem number_nonneg (a : Float) : 0 ≤ number a := magnitude_nonneg _

theorem lt_iff_number (ha : IsNumber a) (hb : IsNumber b) : a < b ↔ number a < number b :=
  lt_iff_unpack.trans (lt_iff_magnitude ha hb)

/-- What is read from the bits of a float has a mantissa and an exponent that a float can have. -/
theorem canonical_unpack {bits : BitVec 64} {sign : Sign} {hm : 0 < m}
    (h : UnpackedFloat.unpack Format.binary64 bits = .finite sign m e hm) : Canonical m e := by
  have hbias : (Format.binary64.exponentBias : Int) + Format.binary64.mantissaBitsWithoutImplicit = 1075 := rfl
  have hlt : (@unpackMantissa Format.binary64 bits).toNat < 2 ^ 52 := BitVec.isLt _
  unfold UnpackedFloat.unpack at h
  simp only [hbias] at h
  split at h
  case isTrue => split at h <;> cases h
  case isFalse =>
    split at h
    case isTrue hzero =>
      split at h
      case isTrue => cases h
      case isFalse =>
        cases h
        rw [hzero]
        exact ⟨by omega, by decide, Or.inr rfl⟩
    case isFalse hsome =>
      cases h
      have hfull : (1#1 ++ @unpackMantissa Format.binary64 bits).toNat =
          2 ^ 52 + (@unpackMantissa Format.binary64 bits).toNat := by
        rw [BitVec.toNat_append, ← Nat.shiftLeft_add_eq_or_of_lt (BitVec.isLt _)]
        rfl
      have hpos : (@unpackExponent Format.binary64 bits).toNat ≠ 0 := fun hzero =>
        hsome (BitVec.eq_of_toNat_eq hzero)
      rw [hfull]
      exact ⟨by omega, by omega, Or.inl (by omega)⟩

theorem isNumber_of_not_lt_zero (hfinite : a.isFinite = true) (h : ¬a < 0.0) : IsNumber a := by
  have hfinite : a.toModel.unpack.isFinite = true := hfinite
  rw [lt_iff_unpack] at h
  rw [IsNumber]
  rcases hunpack : a.toModel.unpack with _ | _ | s | ⟨_ | _, m, e, hm⟩ <;> rw [hunpack] at hfinite h
  · cases hfinite
  · cases hfinite
  · trivial
  · exact absurd rfl h
  · exact canonical_unpack hunpack

/-- What is not at zero or below it is a number above zero. -/
theorem number_pos_of_not_le_zero (hfinite : a.isFinite = true) (h : ¬a ≤ 0.0) : IsNumber a ∧ 0 < number a := by
  have hfinite : a.toModel.unpack.isFinite = true := hfinite
  have h : ¬UnpackedFloat.le a.toModel.unpack (.zero .positive) = true := fun hle => h (decide_eq_true hle)
  rw [IsNumber, number]
  rcases hunpack : a.toModel.unpack with _ | _ | s | ⟨_ | _, m, e, hm⟩ <;> rw [hunpack] at hfinite h
  · cases hfinite
  · cases hfinite
  · exact absurd rfl h
  · exact absurd rfl h
  · exact ⟨canonical_unpack hunpack, mul_two_pow_pos hm e⟩

/-- Whether a float is what a number is rounded to, or infinite if the number is large. -/
def RoundsTo (v : ℚ) (a : Float) : Prop :=
  IsRounded v a.toModel.unpack ∨ 2 ^ 200 < v ∧ a.toModel.unpack = .infinity .positive

/-- A number that is rounded is packed as a float, unless it is large. -/
theorem IsRounded.pack (h : IsRounded v x) :
    IsRounded v (Float.Model.pack x).unpack ∨ 2 ^ 200 < v ∧ (Float.Model.pack x).unpack = .infinity .positive := by
  rcases h.unsigned.cases with ⟨s, rfl⟩ | ⟨m, e, hm, rfl, hcanonical⟩
  · rw [unpack_pack_zero]
    exact Or.inl h
  · have hpack : (Float.Model.pack (.finite .positive m e hm)).unpack = _ :=
      hcanonical.unpack_pack .positive hm
    rw [hpack]
    split
    case isTrue => exact Or.inl h
    case isFalse hlarge =>
      refine Or.inr ⟨?_, rfl⟩
      have hle := hcanonical.le_exponent
      have hfull : (2 : ℚ) ^ 52 ≤ m := by exact_mod_cast hcanonical.full.resolve_right (by omega)
      have hmagnitude : (2 : ℚ) ^ 52 * 2 ^ (200 : Int) ≤ m * 2 ^ e := by
        gcongr
        · norm_num
        · omega
      have hnear := (abs_le.mp h.near).2
      rw [magnitude] at hnear
      norm_num at hmagnitude hnear ⊢
      linarith

theorem RoundsTo.isRounded_of_le (h : RoundsTo v a) (hv : v ≤ 2 ^ 200) : IsRounded v a.toModel.unpack :=
  h.resolve_right fun hlarge => absurd hlarge.1 (not_lt_of_ge hv)

theorem RoundsTo.isRounded_of_isFinite (h : RoundsTo v a) (hfinite : a.isFinite = true) :
    IsRounded v a.toModel.unpack := by
  refine h.resolve_right fun hlarge => ?_
  have hfinite : a.toModel.unpack.isFinite = true := hfinite
  rw [hlarge.2] at hfinite
  cases hfinite

/-- A float that some other one is not below is not infinite. -/
theorem RoundsTo.isRounded_of_not_lt (h : RoundsTo v a) (hb : IsNumber b) (hnot : ¬b < a) :
    IsRounded v a.toModel.unpack := by
  refine h.resolve_right fun hlarge => hnot ?_
  rw [lt_iff_unpack, hlarge.2]
  rcases Unsigned.cases hb with ⟨s, hzero⟩ | ⟨m, e, hm, hfinite, -⟩
  · rw [hzero]
    rfl
  · rw [hfinite]
    rfl

theorem roundsTo_add (ha : IsNumber a) (hb : IsNumber b) : RoundsTo (number a + number b) (a + b) :=
  (isRounded_add ha hb).pack

theorem roundsTo_mul (ha : IsNumber a) (hb : IsNumber b) : RoundsTo (number a * number b) (a * b) :=
  (isRounded_mul ha hb).pack

theorem roundsTo_div (ha : IsNumber a) (hb : IsNumber b) (hapos : 0 < number a) (hbpos : 0 < number b) :
    RoundsTo (number a / number b) (a / b) := by
  have hquotient : (a / b).toModel = .pack (.div Format.binary64 a.toModel.unpack b.toModel.unpack) := rfl
  obtain ⟨m, e, hm, hx, -⟩ := Unsigned.exists_of_pos ha hapos
  obtain ⟨m', e', hm', hy, -⟩ := Unsigned.exists_of_pos hb hbpos
  rw [RoundsTo, number, number, hquotient, hx, hy]
  exact (isRounded_div hm hm' e e').pack

/-- A float whose sign is dropped before it is packed is packed as it would be with its sign dropped after that. -/
theorem unpack_abs_pack (h : Unsigned x.abs) :
    (Float.Model.pack (Float.Model.pack x).unpack.abs).unpack = (Float.Model.pack x.abs).unpack := by
  rcases x with _ | _ | s | ⟨s, m, e, hm⟩
  · exact h.elim
  · exact h.elim
  · rw [unpack_pack_zero]
  · have hcanonical : Canonical m e := h
    have hpack (sign : Sign) : (Float.Model.pack (.finite sign m e hm)).unpack =
        if e ≤ 971 then .finite sign m e hm else .infinity sign := hcanonical.unpack_pack sign hm
    rw [hpack]
    split
    case isTrue => rfl
    case isFalse hlarge =>
      have hinfinite : (Float.Model.pack (.infinity .positive)).unpack = .infinity .positive := by rfl
      exact hinfinite.trans ((hpack .positive).trans (if_neg hlarge)).symm

theorem roundsTo_distance (ha : IsNumber a) (hb : IsNumber b) : RoundsTo |number a - number b| (a - b).abs := by
  have hrounded := isRounded_distance ha hb
  have hread := unpack_abs_pack hrounded.unsigned
  have hpack := hrounded.pack
  rw [← hread] at hpack
  exact hpack

/-- A count is off by very little as a float. -/
theorem roundsTo_toFloat (n : Nat) : RoundsTo n n.toFloat := by
  by_cases hzero : n = 0
  · rw [hzero, Nat.cast_zero]
    exact Or.inl (isRounded_self (x := .zero .positive) trivial)
  have hfull : 2 ^ 52 ≤ n * 2 ^ 53 := by omega
  obtain ⟨r, t, hround, -, hrounded⟩ := exists_settle_exact (e := -53) (Or.inl hfull)
  obtain ⟨x, hx, hpack⟩ := toFloat_toModel hzero
  have hvalue : ((n * 2 ^ 53 : Nat) : ℚ) * 2 ^ (-53 : Int) = n := by
    rw [Nat.cast_mul, mul_assoc]
    norm_num
  rw [hvalue, ← hround .positive, ← ofScientific_eq hzero, ← hx.unique (rounds_ofScientific hzero)] at hrounded
  rw [RoundsTo, hpack]
  exact hrounded.pack

/-- Multiplying by one changes nothing. -/
theorem mul_one_toFloat (ha : IsNumber a) : a * (1 : Nat).toFloat = a := by
  have hone : (1 : Nat).toFloat.toModel.unpack = .finite .positive (2 ^ 52) (-52) (by decide) := rfl
  have hmul : UnpackedFloat.mul Format.binary64 a.toModel.unpack (1 : Nat).toFloat.toModel.unpack =
      a.toModel.unpack := by
    rw [hone]
    rcases Unsigned.cases ha with ⟨s, hzero⟩ | ⟨m, e, hm, hx, hcanonical⟩
    · rw [hzero]
      cases s <;> rfl
    · rw [hx, hcanonical.mul_one]
  have hproduct : (a * (1 : Nat).toFloat).toModel = .pack (.mul Format.binary64 a.toModel.unpack _) := rfl
  rw [hmul, pack_unpack] at hproduct
  exact congrArg Float.ofModel hproduct

/-- There is one float only above zero for each number. -/
theorem eq_of_number_eq (ha : IsNumber a) (hb : IsNumber b) (hpos : 0 < number a) (h : number a = number b) :
    a = b := by
  obtain ⟨m, e, hm, hx, hcanonical⟩ := Unsigned.exists_of_pos ha hpos
  obtain ⟨m', e', hm', hy, hcanonical'⟩ := Unsigned.exists_of_pos hb (hpos.trans_eq h)
  rw [number, number, hx, hy, magnitude, magnitude] at h
  have hnot := (hcanonical.lt_iff hcanonical').not.mpr (not_lt_of_ge h.ge)
  have hnot' := (hcanonical'.lt_iff hcanonical).not.mpr (not_lt_of_ge h.le)
  obtain ⟨rfl, rfl⟩ : m = m' ∧ e = e' := by omega
  exact congrArg Float.ofModel (by rw [← pack_unpack a.toModel, ← pack_unpack b.toModel, hx, hy])

/-- A product with infinity is infinite, or no number. -/
theorem isFinite_mul_infinity (hb : b.toModel.unpack = .infinity .positive) (a : Float) :
    (a * b).isFinite = false := by
  show (Float.Model.pack (.mul Format.binary64 a.toModel.unpack b.toModel.unpack)).unpack.isFinite = false
  rw [hb]
  rcases a.toModel.unpack with (_ | _) | _ | _ | ⟨_ | _, m, e, hm⟩ <;> simp only [UnpackedFloat.mul] <;> rfl

end GraphPlacement.Rounding
