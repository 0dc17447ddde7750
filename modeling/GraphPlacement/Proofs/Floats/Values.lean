import GraphPlacement.Proofs.Floats.Sums

/-!
# Floats as numbers

**Magnitude.** A finite float stands for a rational number, which is its `magnitude` up to the sign.  Where there
is no negative float (`Unsigned`), floats are ordered like their magnitudes (`lt_iff_magnitude`), and two of them
that differ are at least a unit in the last place apart (`Canonical.succ_le`).

**Rounding.** Two things are said of the float that a number is rounded to (`IsRounded`): it is off by very
little, and it is not below any float that the number is not below.  A mantissa of any length is rounded in
this sense, whatever its exponent and whatever is known of it beyond its bits (`exists_settle`), and so is a
number that is made longer first (`exists_round`).
-/

namespace GraphPlacement.Rounding

open Float.Model (Format totalExponent UnpackedFloat)
open Float.Model.UnpackedFloat

variable {m m' n r q unit : Nat} {e e' t : Int} {x y : UnpackedFloat} {v w : ℚ}

/-! ## Magnitudes -/

/-- How large the number is that an unpacked float stands for; zero, if it stands for none. -/
def magnitude : UnpackedFloat → ℚ
  | .finite _ m e _ => m * 2 ^ e
  | .infinity _ | .notANumber | .zero _ => 0

/-- Whether an unpacked float is zero, or above it with a mantissa and an exponent that a float can have. -/
def Unsigned : UnpackedFloat → Prop
  | .finite .positive m e _ => Canonical m e
  | .zero _ => True
  | .finite .negative _ _ _ | .infinity _ | .notANumber => False

theorem mul_two_pow_pos (hm : 0 < m) (e : Int) : (0 : ℚ) < m * 2 ^ e := by
  have hm : (0 : ℚ) < m := by exact_mod_cast hm
  positivity

theorem magnitude_nonneg (x : UnpackedFloat) : 0 ≤ magnitude x := by
  cases x with
  | finite sign m e hm => exact (mul_two_pow_pos hm e).le
  | infinity _ | notANumber | zero _ => exact le_refl 0

/-- What is not negative is zero, or has a mantissa with an exponent. -/
theorem Unsigned.cases (hx : Unsigned x) :
    (∃ sign, x = .zero sign) ∨ ∃ m e hm, x = .finite .positive m e hm ∧ Canonical m e := by
  rcases x with _ | _ | s | ⟨_ | _, m, e, hm⟩
  · exact hx.elim
  · exact hx.elim
  · exact Or.inl ⟨s, rfl⟩
  · exact hx.elim
  · exact Or.inr ⟨m, e, hm, rfl, hx⟩

theorem Unsigned.exists_of_pos (hx : Unsigned x) (hpos : 0 < magnitude x) :
    ∃ m e hm, x = .finite .positive m e hm ∧ Canonical m e := by
  refine hx.cases.resolve_left ?_
  rintro ⟨sign, rfl⟩
  exact lt_irrefl _ hpos

/-- Mantissas whose exponents make them follow one another are a unit of the first one apart. -/
theorem Canonical.succ_le (h : Canonical m e) (h' : Canonical m' e') (hlt : e < e' ∨ e = e' ∧ m < m') :
    ((m : ℚ) + 1) * 2 ^ e ≤ m' * 2 ^ e' := by
  have hpos : (0 : ℚ) < 2 ^ e := by positivity
  rcases hlt with he | ⟨rfl, hm⟩
  · have hle := h.le_exponent
    have hfull : (2 : ℚ) ^ 52 ≤ m' := by exact_mod_cast h'.full.resolve_right (by omega)
    have hsmall : (m : ℚ) + 1 ≤ 2 ^ 53 := by exact_mod_cast h.mantissa_lt
    calc ((m : ℚ) + 1) * 2 ^ e ≤ 2 ^ 53 * 2 ^ e := mul_le_mul_of_nonneg_right hsmall hpos.le
      _ = 2 ^ 52 * 2 ^ (e + 1) := by rw [zpow_add_one₀ (by norm_num)]; ring
      _ ≤ m' * 2 ^ e' := by
          gcongr
          · norm_num
          · omega
  · have hsucc : (m : ℚ) + 1 ≤ m' := by exact_mod_cast hm
    exact mul_le_mul_of_nonneg_right hsucc hpos.le

theorem Canonical.lt_iff (h : Canonical m e) (h' : Canonical m' e') :
    e < e' ∨ e = e' ∧ m < m' ↔ (m : ℚ) * 2 ^ e < m' * 2 ^ e' := by
  have hpos : (0 : ℚ) < 2 ^ e := by positivity
  have hpos' : (0 : ℚ) < 2 ^ e' := by positivity
  constructor
  · intro hlt
    have hle := h.succ_le h' hlt
    linarith
  · intro hlt
    by_contra hnot
    rcases Classical.em (e' < e ∨ e' = e ∧ m' < m) with hgt | hngt
    · have hle := h'.succ_le h hgt
      linarith
    · obtain ⟨rfl, rfl⟩ : e = e' ∧ m = m' := by omega
      exact lt_irrefl _ hlt

/-- **Floats are ordered like their magnitudes**, as long as none is negative. -/
theorem lt_iff_magnitude (hx : Unsigned x) (hy : Unsigned y) :
    UnpackedFloat.lt x y = true ↔ magnitude x < magnitude y := by
  rcases hx.cases with ⟨s, rfl⟩ | ⟨m, e, hm, rfl, h⟩
  · rcases hy.cases with ⟨s', rfl⟩ | ⟨m', e', hm', rfl, -⟩
    · exact iff_of_false Bool.false_ne_true (lt_irrefl _)
    · exact iff_of_true rfl (mul_two_pow_pos hm' e')
  · rcases hy.cases with ⟨s', rfl⟩ | ⟨m', e', hm', rfl, h'⟩
    · exact iff_of_false Bool.false_ne_true (not_lt_of_gt (mul_two_pow_pos hm e))
    · rw [finite_lt_iff, magnitude, magnitude, ← h.lt_iff h']
      constructor
      · rintro (h | ⟨_, _, _, heq, h⟩)
        · cases h
        · cases heq
          exact h
      · exact fun h => Or.inr ⟨m', e', hm', rfl, h⟩

/-- A float that is above another one is so by a small part of it. -/
theorem succ_magnitude_le (hx : Unsigned x) (hy : Unsigned y) (hlt : magnitude x < magnitude y) :
    magnitude x + magnitude x / 2 ^ 53 ≤ magnitude y := by
  rcases hx.cases with ⟨s, rfl⟩ | ⟨m, e, hm, rfl, h⟩
  · simpa [magnitude] using hlt.le
  · obtain ⟨m', e', hm', rfl, h'⟩ := hy.exists_of_pos ((magnitude_nonneg _).trans_lt hlt)
    have hunit : (m : ℚ) * 2 ^ e / 2 ^ 53 ≤ 2 ^ e := by
      have hsmall : (m : ℚ) ≤ 2 ^ 53 := by exact_mod_cast h.mantissa_lt.le
      rw [div_le_iff₀ (by positivity), mul_comm]
      gcongr
    have hle := h.succ_le h' ((h.lt_iff h').mpr hlt)
    simp only [magnitude]
    linarith

/-! ## Rounding -/

/-- Whether an unpacked float is what a number is rounded to: it is off by very little, and above what the number
is above. -/
structure IsRounded (v : ℚ) (x : UnpackedFloat) : Prop where
  unsigned : Unsigned x
  near : |magnitude x - v| ≤ (v + 1) / 2 ^ 53
  le : ∀ y, Unsigned y → magnitude y ≤ v → magnitude y ≤ magnitude x

/-- What a number of some size is rounded to is off by a small part of it. -/
theorem IsRounded.within (h : IsRounded v x) (hv : 1 / 2 ≤ v) :
    v - v / 2 ^ 51 ≤ magnitude x ∧ magnitude x ≤ v + v / 2 ^ 51 := by
  obtain ⟨hbelow, habove⟩ := abs_le.mp h.near
  constructor <;> linarith

theorem magnitude_settle (sign : Sign) (hr : r ≤ 2 ^ 53) : magnitude (settle sign r t) = r * 2 ^ t := by
  unfold settle
  split
  case isTrue hzero => simp [magnitude, hzero]
  case isFalse =>
    split
    case isTrue => rfl
    case isFalse hlarge =>
      rw [magnitude, Nat.le_antisymm hr (Nat.not_lt.mp hlarge), zpow_add_one₀ (by norm_num)]
      push_cast
      ring

theorem unsigned_settle (ht : -1074 ≤ t) (hfull : 2 ^ 52 ≤ r ∨ t = -1074) :
    Unsigned (settle .positive r t) := by
  unfold settle
  split
  case isTrue => trivial
  case isFalse =>
    split
    case isTrue hlt => exact ⟨hlt, ht, hfull⟩
    case isFalse => exact ⟨by decide, by omega, Or.inl (Nat.le_refl _)⟩

/-- A mantissa that is off by half a unit at most is not below any float that the number is not below. -/
theorem magnitude_le_of_near (hnear : |r * 2 ^ t - v| ≤ 2 ^ t / 2) (hfull : 2 ^ 52 ≤ r ∨ t = -1074)
    (hy : Unsigned y) (hle : magnitude y ≤ v) : magnitude y ≤ r * 2 ^ t := by
  have hpos : (0 : ℚ) < 2 ^ t := by positivity
  obtain ⟨habove, -⟩ := abs_le.mp hnear
  rcases hy.cases with ⟨s, rfl⟩ | ⟨m, e, hm, rfl, h⟩
  · exact mul_nonneg (Nat.cast_nonneg r) hpos.le
  · rw [magnitude] at hle ⊢
    have hleast := h.le_exponent
    rcases Int.lt_or_le e t with hlt | hge
    · -- the unit is larger than that of the other float, so the mantissa is full
      have hr : (2 : ℚ) ^ 52 ≤ r := by exact_mod_cast hfull.resolve_right (by omega)
      have hsmall : (m : ℚ) ≤ 2 ^ 53 := by exact_mod_cast h.mantissa_lt.le
      calc (m : ℚ) * 2 ^ e ≤ 2 ^ 53 * 2 ^ e := by gcongr
        _ = 2 ^ 52 * 2 ^ (e + 1) := by rw [zpow_add_one₀ (by norm_num)]; ring
        _ ≤ r * 2 ^ t := by
            gcongr
            · norm_num
            · omega
    · -- the other float is a whole number of units, of which there is none between the mantissa and the number
      obtain ⟨k, rfl⟩ : ∃ k : Nat, e = t + k := ⟨(e - t).toNat, by omega⟩
      have hmultiple : (m : ℚ) * 2 ^ (t + k) = (m * 2 ^ k : Nat) * 2 ^ t := by
        rw [zpow_add₀ (by norm_num), zpow_natCast]
        push_cast
        ring
      rw [hmultiple] at hle ⊢
      have hlt : ((m * 2 ^ k : Nat) : ℚ) * 2 ^ t < (r + 1) * 2 ^ t := by linarith
      have hlt := lt_of_mul_lt_mul_right hlt hpos.le
      have hmantissa : m * 2 ^ k ≤ r := Nat.le_of_lt_succ (by exact_mod_cast hlt)
      gcongr

/-- Half a unit is very little. -/
theorem half_unit_le (hlow : 2 ^ 52 * 2 ^ t ≤ v ∨ t = -1074) (hv : 0 ≤ v) :
    (2 : ℚ) ^ t / 2 ≤ (v + 1) / 2 ^ 53 := by
  rcases hlow with hlow | rfl
  · rw [div_le_div_iff₀ (by norm_num) (by norm_num)]
    linarith
  · calc (2 : ℚ) ^ (-1074 : Int) / 2 ≤ 2 ^ (-52 : Int) / 2 := by
          gcongr
          · norm_num
          · norm_num
      _ = 1 / 2 ^ 53 := by norm_num
      _ ≤ (v + 1) / 2 ^ 53 := by
          gcongr
          linarith

/-- **A mantissa that is off by half a unit at most** settles to what the number is rounded to. -/
theorem isRounded_settle (hnear : |r * 2 ^ t - v| ≤ 2 ^ t / 2) (ht : -1074 ≤ t)
    (hlow : 2 ^ 52 * 2 ^ t ≤ v ∨ t = -1074) (hhigh : v ≤ 2 ^ 53 * 2 ^ t) (hv : 0 ≤ v) :
    r ≤ 2 ^ 53 ∧ IsRounded v (settle .positive r t) := by
  have hpos : (0 : ℚ) < 2 ^ t := by positivity
  obtain ⟨hbelow, habove⟩ := abs_le.mp hnear
  have hr : r ≤ 2 ^ 53 := by
    have hlt : (r : ℚ) * 2 ^ t < (2 ^ 53 + 1) * 2 ^ t := by linarith
    exact Nat.le_of_lt_succ (by exact_mod_cast lt_of_mul_lt_mul_right hlt hpos.le)
  have hfull : 2 ^ 52 ≤ r ∨ t = -1074 := by
    refine hlow.imp_left fun hlow => ?_
    have hlt : (2 ^ 52 : ℚ) * 2 ^ t < (r + 1) * 2 ^ t := by linarith
    exact Nat.le_of_lt_succ (by exact_mod_cast lt_of_mul_lt_mul_right hlt hpos.le)
  have hmagnitude := magnitude_settle (t := t) .positive hr
  refine ⟨hr, unsigned_settle ht hfull, ?_, fun y hy hle => ?_⟩
  · exact hmagnitude ▸ hnear.trans (half_unit_le hlow hv)
  · exact hmagnitude ▸ magnitude_le_of_near hnear hfull hy hle

theorem mantissa_ofMantissaAndAccuracy (q : Nat) (accuracy : Accuracy) :
    (ExtendedMantissa.ofMantissaAndAccuracy q accuracy).mantissa = q := by
  rcases accuracy with _ | _ | _ | _ <;> rfl

/-- A mantissa that has all its bits is shifted until it has 53 of them, or its exponent is no longer too small. -/
theorem exists_shift (accuracy : Accuracy) (hfull : 2 ^ 52 ≤ q ∨ e ≤ -1074) :
    ∃ k : Nat, shiftToTargetExponent Format.binary64 q e accuracy =
        (ExtendedMantissa.ofMantissaAndAccuracy q accuracy >>> k, e + k) ∧
      -1074 ≤ e + k ∧ q < 2 ^ (53 + k) ∧ (2 ^ (52 + k) ≤ q ∨ e + k = -1074) := by
  have hlog : 52 ≤ q.log2 ∨ e ≤ -1074 := hfull.imp_left fun h => (Nat.le_log2 (by omega)).mpr h
  obtain ⟨k, hk⟩ : ∃ k : Nat, max (q.log2 + e - 52) (-1074) = e + k :=
    ⟨(max (q.log2 + e - 52) (-1074) - e).toNat, by omega⟩
  have hshift : (e + k - e).toNat = k := by omega
  have hshifted : shiftToTargetExponent Format.binary64 q e accuracy =
      (ExtendedMantissa.ofMantissaAndAccuracy q accuracy >>> k, e + k) := by
    simp only [shiftToTargetExponent, targetExponent_eq, hk, shiftToExponent, hshift]
  refine ⟨k, hshifted, by omega, ?_, ?_⟩
  · exact Nat.lt_log2_self.trans_le (Nat.pow_le_pow_right (by decide) (by omega))
  · by_cases hleast : e + k = -1074
    · exact Or.inr hleast
    · have hq : q ≠ 0 := by
        rintro rfl
        rw [Nat.log2_zero] at hk
        omega
      exact Or.inl (le_trans (Nat.pow_le_pow_right (by decide) (by omega)) (Nat.log2_self_le hq))

/-- What is told of a number by a mantissa, in units of which there are `unit` to one. -/
theorem Approximates.abs_sub_le {em : ExtendedMantissa} {k : Nat} (hunit : 0 < unit)
    (h : Approximates n (2 ^ k * unit) em) (e : Int) :
    |em.roundedMantissa * 2 ^ (e + k) - (n : ℚ) / unit * 2 ^ e| ≤ 2 ^ (e + k) / 2 := by
  obtain ⟨hbelow, habove⟩ := h.roundedMantissa_near
  have hbelow : 2 * ((em.roundedMantissa : ℚ) * (2 ^ k * unit)) ≤ 2 * n + 2 ^ k * unit := by exact_mod_cast hbelow
  have habove : 2 * (n : ℚ) ≤ 2 * (em.roundedMantissa * (2 ^ k * unit)) + 2 ^ k * unit := by exact_mod_cast habove
  have hunit : (0 : ℚ) < unit := by exact_mod_cast hunit
  have hpow : (2 : ℚ) ^ (e + k) = 2 ^ k * unit * (2 ^ e / unit) := by
    rw [zpow_add₀ (by norm_num), zpow_natCast]
    field_simp
  have hpos : (0 : ℚ) < 2 ^ e / unit := by positivity
  rw [show (n : ℚ) / unit * 2 ^ e = n * (2 ^ e / unit) by ring, hpow, abs_le]
  constructor <;> nlinarith

/-- **Rounding** a mantissa that has all its bits settles to what the number that it tells of is rounded to. -/
theorem exists_settle {accuracy : Accuracy} (hunit : 0 < unit)
    (h : Approximates n unit (ExtendedMantissa.ofMantissaAndAccuracy q accuracy))
    (hfull : 2 ^ 52 ≤ q ∨ e ≤ -1074) :
    ∃ r t, (∀ sign, roundWithAccuracy Format.binary64 sign q e accuracy = settle sign r t) ∧
      r ≤ 2 ^ 53 ∧ IsRounded ((n : ℚ) / unit * 2 ^ e) (settle .positive r t) := by
  obtain ⟨k, hfirst, hleast, hhigh, hlow⟩ := exists_shift accuracy hfull
  obtain ⟨hbelow, habove⟩ := h.bounds hunit
  rw [mantissa_ofMantissaAndAccuracy] at hbelow habove
  have hunit' : (0 : ℚ) < unit := by exact_mod_cast hunit
  have hfrom : (q : ℚ) ≤ n / unit := (le_div_iff₀ hunit').mpr (by exact_mod_cast hbelow)
  have hto : (n : ℚ) / unit ≤ 2 ^ (53 + k) := by
    rw [div_le_iff₀ hunit']
    exact_mod_cast habove.le.trans (Nat.mul_le_mul_right unit hhigh)
  have hpow (bits : Nat) : (2 : ℚ) ^ bits * 2 ^ (e + k) = 2 ^ (bits + k) * 2 ^ e := by
    rw [zpow_add₀ (by norm_num), zpow_natCast, pow_add]
    ring
  have hlower : 2 ^ 52 * 2 ^ (e + k) ≤ (n : ℚ) / unit * 2 ^ e ∨ e + k = -1074 := by
    refine hlow.imp_left fun hlow => ?_
    rw [hpow]
    gcongr
    exact le_trans (by exact_mod_cast hlow) hfrom
  have hupper : (n : ℚ) / unit * 2 ^ e ≤ 2 ^ 53 * 2 ^ (e + k) := by
    rw [hpow]
    gcongr
  obtain ⟨hr, hrounded⟩ :=
    isRounded_settle ((h.shiftRight hunit k).abs_sub_le hunit e) hleast hlower hupper (by positivity)
  exact ⟨_, _, fun sign => roundWithAccuracy_eq_settle hfirst hleast hr, hr, hrounded⟩

/-- What a whole number of units is rounded to. -/
theorem exists_settle_exact (hfull : 2 ^ 52 ≤ q ∨ e ≤ -1074) :
    ∃ r t, (∀ sign, roundWithAccuracy Format.binary64 sign q e .exact = settle sign r t) ∧
      r ≤ 2 ^ 53 ∧ IsRounded (q * 2 ^ e) (settle .positive r t) := by
  have h := exists_settle Nat.one_pos (approximates_exact q) hfull
  rwa [Nat.cast_one, div_one] at h

/-- **A number of any length** is rounded once its exponent is small enough. -/
theorem exists_round (hm : m ≠ 0) (e : Int) :
    ∃ r t, (∀ sign, UnpackedFloat.round Format.binary64 sign m e = settle sign r t) ∧
      r ≤ 2 ^ 53 ∧ IsRounded (m * 2 ^ e) (settle .positive r t) := by
  obtain ⟨hlow, -⟩ := (Nat.log2_eq_iff hm).mp rfl
  obtain ⟨k, hk⟩ : ∃ k : Nat, (e - max (m.log2 + e - 52) (-1074)).toNat = k := ⟨_, rfl⟩
  have hfull : 2 ^ 52 ≤ m * 2 ^ k ∨ e - k ≤ -1074 := by
    refine (Classical.em _).symm.imp_left fun hsmall => ?_
    calc 2 ^ 52 ≤ 2 ^ (m.log2 + k) := Nat.pow_le_pow_right (by decide) (by omega)
      _ = 2 ^ m.log2 * 2 ^ k := Nat.pow_add ..
      _ ≤ m * 2 ^ k := Nat.mul_le_mul_right _ hlow
  obtain ⟨r, t, hround, hr, hrounded⟩ := exists_settle_exact hfull
  refine ⟨r, t, fun sign => ?_, hr, ?_⟩
  · rw [← hround sign]
    simp only [UnpackedFloat.round, targetExponent_eq, decreaseExponent, hk, Nat.shiftLeft_eq]
  · rwa [show ((m * 2 ^ k : Nat) : ℚ) * 2 ^ (e - k) = m * 2 ^ e by
      rw [zpow_sub₀ (by norm_num), zpow_natCast]
      push_cast
      field_simp] at hrounded

theorem exists_normalize {z : Int} (hz : z ≠ 0) (e : Int) (zero : Sign) :
    ∃ r t, UnpackedFloat.normalize Format.binary64 z e zero = settle (if 0 < z then .positive else .negative) r t ∧
      r ≤ 2 ^ 53 ∧ IsRounded (|(z : ℚ)| * 2 ^ e) (settle .positive r t) := by
  obtain ⟨r, t, hround, hr, hrounded⟩ := exists_round (Int.natAbs_ne_zero.mpr hz) e
  rw [Nat.cast_natAbs, Int.cast_abs] at hrounded
  refine ⟨r, t, ?_, hr, hrounded⟩
  unfold UnpackedFloat.normalize
  rcases Int.lt_or_gt_of_ne hz with hneg | hpos
  · have hside : (-z).toNat = z.natAbs := by omega
    simp only [Int.compare_eq_lt.mpr hneg, hside, hround, if_neg (show ¬0 < z by omega)]
  · have hside : z.toNat = z.natAbs := by omega
    simp only [Int.compare_eq_gt.mpr hpos, hside, hround, if_pos hpos]

end GraphPlacement.Rounding
