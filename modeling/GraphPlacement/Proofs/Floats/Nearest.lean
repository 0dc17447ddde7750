import Mathlib

/-!
# Rounding to a full mantissa

**Shifting.** A number with too many bits loses the low ones, and two bits are kept in their place.  They
tell whether the lost part was nothing, less than a half, a half or more (`Approximates`).

**Nearest.** `nearest n k` is what is kept of `n` after `k` shifts and a rounding.  It is off by half a
unit at most (`nearest_near`), from which everything else follows: it grows with `n` (`nearest_mono`) and
keeps what needs no rounding (`nearest_exact`).

**Settling.** Rounding shifts twice: for the bits that are too many, and for the one that it may have carried.
The second shift loses nothing, so what a rounding comes to is told by the first one alone (`settle`).

**Rank.** Mantissas of exactly 53 bits with their exponents are ordered like the numbers `rank`, in which
a mantissa that rounding has carried beyond 53 bits counts as the next exponent.  So rounding comes to the
float with the rank of what was kept, carried or not: `roundWithAccuracy_rank`.
-/

namespace GraphPlacement.Rounding

open Float.Model (Format totalExponent UnpackedFloat)
open Float.Model.UnpackedFloat

variable {n m k a b unit : Nat} {e : Int} {em : ExtendedMantissa}

/-! ## Shifting -/

/-- What a shifted mantissa and its two further bits tell of a number, in units of the last place. -/
def Approximates (n unit : Nat) : ExtendedMantissa → Prop
  | ⟨m, false, false⟩ => n = m * unit
  | ⟨m, false, true⟩ => m * unit < n ∧ 2 * n < (2 * m + 1) * unit
  | ⟨m, true, false⟩ => 2 * n = (2 * m + 1) * unit
  | ⟨m, true, true⟩ => (2 * m + 1) * unit < 2 * n ∧ n < (m + 1) * unit

theorem Approximates.shiftRightOne (hunit : 0 < unit) (h : Approximates n unit em) :
    Approximates n (2 * unit) em.shiftRightOne := by
  obtain ⟨m, roundBit, stickyBit⟩ := em
  obtain ⟨half, hm⟩ : ∃ half, m = 2 * half ∨ m = 2 * half + 1 := ⟨m / 2, by omega⟩
  rw [ExtendedMantissa.shiftRightOne]
  rcases hm with rfl | rfl
  · have hbit : (2 * half % 2 != 0) = false := by simp
    have hhalf : 2 * half / 2 = half := by omega
    simp only [hbit, hhalf]
    cases roundBit <;> cases stickyBit <;>
      simp only [Approximates, Bool.or_false, Bool.or_true, Nat.add_mul, Nat.mul_assoc,
        Nat.mul_left_comm half 2 unit, Nat.one_mul] at h ⊢ <;> omega
  · have hbit : ((2 * half + 1) % 2 != 0) = true := by
      rw [bne_iff_ne]
      omega
    have hhalf : (2 * half + 1) / 2 = half := by omega
    simp only [hbit, hhalf]
    cases roundBit <;> cases stickyBit <;>
      simp only [Approximates, Bool.or_false, Bool.or_true, Nat.add_mul, Nat.mul_assoc,
        Nat.mul_left_comm half 2 unit, Nat.one_mul] at h ⊢ <;> omega

theorem Approximates.shiftRight (hunit : 0 < unit) (h : Approximates n unit em) (k : Nat) :
    Approximates n (2 ^ k * unit) (em >>> k) := by
  induction k with
  | zero =>
      rw [Nat.pow_zero, Nat.one_mul]
      exact h
  | succ k ih =>
      rw [Nat.pow_succ', Nat.mul_assoc]
      exact ih.shiftRightOne (Nat.mul_pos (Nat.two_pow_pos k) hunit)

theorem approximates_exact (n : Nat) :
    Approximates n 1 (ExtendedMantissa.ofMantissaAndAccuracy n .exact) :=
  (Nat.mul_one n).symm

/-- What is kept of a number is all that there is of it in full units. -/
theorem Approximates.bounds (hunit : 0 < unit) (h : Approximates n unit em) :
    em.mantissa * unit ≤ n ∧ n < (em.mantissa + 1) * unit := by
  obtain ⟨m, roundBit, stickyBit⟩ := em
  cases roundBit <;> cases stickyBit <;>
    simp only [Approximates, Nat.add_mul, Nat.mul_assoc, Nat.one_mul] at h ⊢ <;> omega

/-- Rounding is off by half a unit at most. -/
theorem Approximates.roundedMantissa_near (h : Approximates n unit em) :
    2 * (em.roundedMantissa * unit) ≤ 2 * n + unit ∧
      2 * n ≤ 2 * (em.roundedMantissa * unit) + unit := by
  obtain ⟨m, roundBit, stickyBit⟩ := em
  rcases Nat.mod_two_eq_zero_or_one m with hm | hm <;> cases roundBit <;> cases stickyBit <;>
    simp only [Approximates, ExtendedMantissa.roundedMantissa, ExtendedMantissa.accuracy,
      Accuracy.roundToNearestEven, hm, Nat.add_mul, Nat.mul_assoc, Nat.one_mul, Nat.add_zero]
      at h ⊢ <;> omega

/-! ## The nearest mantissa -/

/-- What is kept of a number when its `k` lowest bits are rounded away. -/
def nearest (n k : Nat) : Nat :=
  (ExtendedMantissa.ofMantissaAndAccuracy n .exact >>> k).roundedMantissa

theorem nearest_near (n k : Nat) :
    2 * (nearest n k * 2 ^ k) ≤ 2 * n + 2 ^ k ∧ 2 * n ≤ 2 * (nearest n k * 2 ^ k) + 2 ^ k := by
  have h := ((approximates_exact n).shiftRight Nat.one_pos k).roundedMantissa_near
  rwa [Nat.mul_one] at h

theorem nearest_mono (hab : a ≤ b) (k : Nat) : nearest a k ≤ nearest b k := by
  by_contra hlt
  have ha := (nearest_near a k).1
  have hb := (nearest_near b k).2
  have hstep : (nearest b k + 1) * 2 ^ k ≤ nearest a k * 2 ^ k := Nat.mul_le_mul_right _ (by omega)
  rw [Nat.add_mul, Nat.one_mul] at hstep
  -- a whole unit between them leaves no room between two errors of half a unit
  have heq : a = b := by omega
  rw [heq] at hlt
  exact hlt (Nat.le_refl _)

theorem nearest_exact (m k : Nat) : nearest (m * 2 ^ k) k = m := by
  have hpos := Nat.two_pow_pos k
  obtain ⟨hup, hdown⟩ := nearest_near (m * 2 ^ k) k
  refine Nat.le_antisymm (Nat.le_of_not_lt fun hlt => ?_) (Nat.le_of_not_lt fun hlt => ?_)
  · have hstep : (m + 1) * 2 ^ k ≤ nearest (m * 2 ^ k) k * 2 ^ k := Nat.mul_le_mul_right _ hlt
    rw [Nat.add_mul] at hstep
    omega
  · have hstep : (nearest (m * 2 ^ k) k + 1) * 2 ^ k ≤ m * 2 ^ k := Nat.mul_le_mul_right _ hlt
    rw [Nat.add_mul] at hstep
    omega

theorem nearest_bounds (hlow : 2 ^ 52 * 2 ^ k ≤ n) (hhigh : n < 2 ^ 53 * 2 ^ k) :
    2 ^ 52 ≤ nearest n k ∧ nearest n k ≤ 2 ^ 53 := by
  have hlower := nearest_mono hlow k
  have hupper := nearest_mono (Nat.le_of_lt hhigh) k
  rw [nearest_exact] at hlower hupper
  exact ⟨hlower, hupper⟩

/-! ## Rounding -/

/-- Whether a mantissa has 53 bits and its exponent is none of the subnormal numbers. -/
structure Normal (m : Nat) (e : Int) : Prop where
  le_mantissa : 2 ^ 52 ≤ m
  mantissa_lt : m < 2 ^ 53
  le_exponent : -1074 ≤ e

theorem Normal.pos (h : Normal m e) : 0 < m := by
  have hlow := h.le_mantissa
  omega

/-- Whether a mantissa and its exponent are those of a float, which may be subnormal or too large. -/
structure Canonical (m : Nat) (e : Int) : Prop where
  mantissa_lt : m < 2 ^ 53
  le_exponent : -1074 ≤ e
  full : 2 ^ 52 ≤ m ∨ e = -1074

theorem Normal.canonical (h : Normal m e) : Canonical m e := ⟨h.mantissa_lt, h.le_exponent, Or.inl h.le_mantissa⟩

/-- Where a mantissa and an exponent stand among all floats. -/
def rank (m : Nat) (e : Int) : Int := e * 2 ^ 52 + m

theorem log2_eq_of_bounds (hlow : 2 ^ k ≤ n) (hhigh : n < 2 ^ (k + 1)) : n.log2 = k := by
  have hpos := Nat.two_pow_pos k
  exact (Nat.log2_eq_iff (by omega)).mpr ⟨hlow, hhigh⟩

theorem log2_mul_two_pow (hn : n ≠ 0) (k : Nat) : (n * 2 ^ k).log2 = n.log2 + k := by
  obtain ⟨hlow, hhigh⟩ := (Nat.log2_eq_iff hn).mp rfl
  refine log2_eq_of_bounds ?_ ?_
  · rw [Nat.pow_add]
    exact Nat.mul_le_mul_right _ hlow
  · rw [Nat.add_right_comm, Nat.pow_add _ _ k]
    exact Nat.mul_lt_mul_of_pos_right hhigh (Nat.two_pow_pos k)

theorem targetExponent_eq (n : Nat) (e : Int) :
    Format.binary64.targetExponent (totalExponent n e) = max (n.log2 + e - 52) (-1074) := by
  simp only [Format.targetExponent, totalExponent, Format.mantissaBits, Format.minExponent]
  omega

theorem shiftToTargetExponent_exact (hlog : n.log2 = 52 + k) (he : -1074 ≤ e + k) :
    shiftToTargetExponent Format.binary64 n e .exact =
      (ExtendedMantissa.ofMantissaAndAccuracy n .exact >>> k, e + k) := by
  have htarget : max (n.log2 + e - 52 : Int) (-1074) = e + k := by omega
  have hshift : (e + k - e).toNat = k := by omega
  simp only [shiftToTargetExponent, targetExponent_eq, htarget, shiftToExponent, hshift]

/-- What a rounded mantissa and an exponent come to: one that has been carried beyond 53 bits is shifted. -/
def settle (sign : Sign) (m : Nat) (e : Int) : UnpackedFloat :=
  if hzero : m = 0 then .zero sign
  else if m < 2 ^ 53 then .finite sign m e (Nat.pos_of_ne_zero hzero)
  else .finite sign (2 ^ 52) (e + 1) (by decide)

/-- A mantissa that is not too long is left as it is by the second shift. -/
theorem shiftToTargetExponent_small (hm : m < 2 ^ 53) (he : -1074 ≤ e) :
    shiftToTargetExponent Format.binary64 m e .exact = (ExtendedMantissa.ofMantissaAndAccuracy m .exact, e) := by
  have hlog : m.log2 ≤ 52 := by
    by_cases hzero : m = 0
    · rw [hzero, Nat.log2_zero]
      omega
    · exact Nat.le_of_lt_succ ((Nat.log2_lt hzero).mpr hm)
  have hshift : (max (m.log2 + e - 52 : Int) (-1074) - e).toNat = 0 := by omega
  simp only [shiftToTargetExponent, targetExponent_eq, shiftToExponent, hshift]
  exact congrArg _ (by omega)

/-- **Rounding** comes to what the mantissa that is rounded first settles to. -/
theorem roundWithAccuracy_eq_settle {sign : Sign} {accuracy : Accuracy} {f : Int}
    (hfirst : shiftToTargetExponent Format.binary64 n e accuracy = (em, f)) (hf : -1074 ≤ f)
    (hcarried : em.roundedMantissa ≤ 2 ^ 53) :
    roundWithAccuracy Format.binary64 sign n e accuracy = settle sign em.roundedMantissa f := by
  rw [roundWithAccuracy, hfirst]
  rcases Nat.lt_or_eq_of_le hcarried with hlt | heq
  · simp only [shiftToTargetExponent_small hlt hf, settle, if_pos hlt]
    rfl
  · have hlog : (2 ^ 53 : Nat).log2 = 52 + 1 := Nat.log2_two_pow
    simp only [heq, shiftToTargetExponent_exact hlog (show -1074 ≤ f + (1 : Nat) by omega)]
    rfl

/-- **Rounding** a number that has `k` bits too many comes to the float with the rank of its nearest
mantissa. -/
theorem roundWithAccuracy_rank (hlog : n.log2 = 52 + k) (he : -1074 ≤ e + k) :
    ∃ m f, ∃ h : Normal m f, rank m f = rank (nearest n k) (e + k) ∧
      roundWithAccuracy Format.binary64 .positive n e .exact = .finite .positive m f h.pos := by
  have hne : n ≠ 0 := by
    rintro rfl
    rw [Nat.log2_zero] at hlog
    omega
  obtain ⟨hlow, hhigh⟩ := (Nat.log2_eq_iff hne).mp hlog
  rw [Nat.pow_add] at hlow
  rw [Nat.add_right_comm, Nat.pow_add] at hhigh
  obtain ⟨hlower, hupper⟩ := nearest_bounds hlow hhigh
  rw [roundWithAccuracy_eq_settle (shiftToTargetExponent_exact hlog he) he hupper]
  show ∃ m f, ∃ h : Normal m f, _ ∧ settle .positive (nearest n k) (e + k) = _
  rcases Nat.lt_or_eq_of_le hupper with hlt | heq
  · have hnormal : Normal (nearest n k) (e + k) := ⟨hlower, hlt, he⟩
    exact ⟨_, _, hnormal, rfl, by rw [settle, dif_neg (Nat.ne_of_gt hnormal.pos), if_pos hlt]⟩
  · have hnormal : Normal (2 ^ 52) (e + k + 1) := ⟨by decide, by decide, by omega⟩
    refine ⟨_, _, hnormal, ?_, by rw [heq]; rfl⟩
    rw [heq, rank, rank]
    push_cast
    ring

end GraphPlacement.Rounding
