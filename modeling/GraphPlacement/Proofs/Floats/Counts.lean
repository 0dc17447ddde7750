import GraphPlacement.Proofs.Floats.Nearest

/-!
# Counts as floats

**Conversion.** A count that is not zero is rounded to the float whose rank is `countRank`, or to infinity
if the exponent of that is too large (`unpack_toFloat`).  There are two ways there: a small count is
converted as a word and multiplied by one, a large one is rounded at once.

**Order.** Ranks of counts grow with the counts (`countRank_mono`), and floats are compared by their
ranks.  So what is above a count as a float is above all smaller ones too: `toFloat_lt_of_le`.

**Limit.** The counts below a float are therefore those below some limit, whatever the float is:
`exists_limit`.
-/

namespace GraphPlacement.Rounding

open Float.Model (Format totalExponent UnpackedFloat)
open Float.Model.UnpackedFloat

variable {n m a b : Nat} {e : Int} {x y : UnpackedFloat}

/-! ## Packing -/

/-- What is read back when a normal float is packed: infinity, if its exponent is too large. -/
def Normal.packed (h : Normal m e) : UnpackedFloat :=
  if e ≤ 971 then .finite .positive m e h.pos else .infinity .positive

theorem unpackSign_packComponents (sign : Sign) (exponent : BitVec 11) (mantissa : BitVec 52) :
    unpackSign (packComponents Format.binary64 sign exponent mantissa) = sign.toBitVec := by
  show (sign.toBitVec ++ exponent ++ mantissa).extractLsb' 63 1 = sign.toBitVec
  rw [BitVec.extractLsb'_append_eq_of_le (by decide), BitVec.extractLsb'_append_eq_of_le (by decide)]
  exact BitVec.extractLsb'_eq_self

theorem ofBitVec_toBitVec (sign : Sign) : Sign.ofBitVec sign.toBitVec = sign := by
  cases sign <;> rfl

theorem unpack_packComponents {exponent : BitVec 11} {mantissa : BitVec 52} (sign : Sign)
    (hlow : exponent ≠ 0#11) (hhigh : exponent ≠ -1#11) (hmantissa : (1#1 ++ mantissa).toNat = m) (hpos : 0 < m) :
    unpack Format.binary64 (packComponents Format.binary64 sign exponent mantissa) =
      .finite sign m ((exponent.toNat : Int) - 1075) hpos := by
  subst hmantissa
  unfold unpack
  simp only [unpackMantissa_packComponents, unpackExponent_packComponents,
    unpackSign_packComponents, ofBitVec_toBitVec, if_neg hlow, if_neg hhigh]
  rfl

theorem unpack_packComponents_subnormal {mantissa : BitVec 52} (sign : Sign) (hmantissa : mantissa.toNat = m)
    (hpos : 0 < m) : unpack Format.binary64 (packComponents Format.binary64 sign 0#11 mantissa) =
      .finite sign m (-1074) hpos := by
  subst hmantissa
  have hsome : mantissa ≠ 0#52 := by
    rintro rfl
    exact Nat.lt_irrefl 0 hpos
  have hones : (0#11 : BitVec 11) ≠ -1#11 := by decide
  unfold unpack
  simp only [unpackMantissa_packComponents, unpackExponent_packComponents,
    unpackSign_packComponents, ofBitVec_toBitVec, if_neg hones, dif_neg hsome]
  rfl

/-- The leading bit of a full mantissa is not stored, and is put back when it is read. -/
theorem toNat_one_append (hlow : 2 ^ 52 ≤ m) (hhigh : m < 2 ^ 53) :
    (1#1 ++ BitVec.ofNat 52 m).toNat = m := by
  rw [BitVec.toNat_append, ← Nat.shiftLeft_add_eq_or_of_lt (BitVec.isLt _), BitVec.toNat_ofNat,
    Nat.shiftLeft_eq]
  show 1 * 2 ^ 52 + m % 2 ^ 52 = m
  omega

/-- **A float that is packed** is read back as it was, or as infinity if its exponent is too large. -/
theorem Canonical.unpack_pack (h : Canonical m e) (sign : Sign) (hm : 0 < m) :
    unpack Format.binary64 (pack Format.binary64 (.finite sign m e hm)) =
      if e ≤ 971 then .finite sign m e hm else .infinity sign := by
  have hbiased : (e + Format.binary64.exponentBias + Format.binary64.mantissaBitsWithoutImplicit).toNat =
      (e + 1075).toNat := by
    show (e + 1023 + 52).toNat = _
    omega
  have hle := h.le_exponent
  unfold pack
  simp only [hbiased]
  by_cases hfits : e ≤ 971
  · rw [if_pos hfits, if_neg (show ¬2 ^ 11 ≤ (e + 1075).toNat + 1 by omega)]
    rcases Nat.lt_or_ge m (2 ^ 52) with hlow | hfull
    · have hlog : m.log2 < 52 := (Nat.log2_lt (Nat.ne_of_gt hm)).mpr hlow
      obtain rfl : e = -1074 := h.full.resolve_left (Nat.not_le.mpr hlow)
      rw [if_neg (show ¬m.log2 + 1 = Format.binary64.mantissaBits from Nat.ne_of_lt (Nat.succ_lt_succ hlog))]
      exact unpack_packComponents_subnormal sign (by rw [BitVec.toNat_ofNat, Nat.mod_eq_of_lt hlow]) hm
    · have hlog : m.log2 = 52 := log2_eq_of_bounds hfull h.mantissa_lt
      have hexponent : (BitVec.ofNat 11 (e + 1075).toNat).toNat = (e + 1075).toNat := by
        rw [BitVec.toNat_ofNat]
        omega
      have hlow : BitVec.ofNat 11 (e + 1075).toNat ≠ 0#11 := by
        intro hzero
        have hval : (BitVec.ofNat 11 (e + 1075).toNat).toNat = 0 := congrArg BitVec.toNat hzero
        omega
      have hhigh : BitVec.ofNat 11 (e + 1075).toNat ≠ -1#11 := by
        intro hones
        have hval : (BitVec.ofNat 11 (e + 1075).toNat).toNat = 2047 := congrArg BitVec.toNat hones
        omega
      rw [hlog, if_pos (by rfl),
        unpack_packComponents sign hlow hhigh (toNat_one_append hfull h.mantissa_lt) hm, hexponent]
      congr 1
      omega
  · rw [if_neg hfits, if_pos (show 2 ^ 11 ≤ (e + 1075).toNat + 1 by omega)]
    cases sign <;> rfl

theorem unpack_pack (h : Normal m e) :
    unpack Format.binary64 (pack Format.binary64 (.finite .positive m e h.pos)) = h.packed :=
  h.canonical.unpack_pack .positive h.pos

/-! ## Conversion -/

/-- The rank of the float that a count is rounded to. -/
def countRank (n : Nat) : Int := rank (nearest (n * 2 ^ 53) (n.log2 + 1)) (n.log2 - 52)

/-- Whether a float is the one that a count is rounded to. -/
def Rounds (n : Nat) (x : UnpackedFloat) : Prop :=
  ∃ m e, ∃ h : Normal m e, rank m e = countRank n ∧ x = .finite .positive m e h.pos

/-- A count of 53 bits or fewer is not rounded. -/
theorem countRank_exact (hlog : n.log2 ≤ 52) :
    countRank n = rank (n * 2 ^ (52 - n.log2)) (n.log2 - 52) := by
  have hmul : n * 2 ^ 53 = n * 2 ^ (52 - n.log2) * 2 ^ (n.log2 + 1) := by
    rw [Nat.mul_assoc, ← Nat.pow_add, show 52 - n.log2 + (n.log2 + 1) = 53 by omega]
  rw [countRank, hmul, nearest_exact]

theorem ofScientific_eq (hn : n ≠ 0) : UnpackedFloat.ofScientific Format.binary64 n 0 =
    roundWithAccuracy Format.binary64 .positive (n * 2 ^ 53) (-53) .exact := by
  have hsmall : ¬(0 : Int) > 2 ^ Format.binary64.exponentBits := by decide
  have hlarge : ¬(0 : Int) < -((2 ^ Format.binary64.exponentBits : Int) + n.log2) := by
    show ¬(0 : Int) < -((2048 : Int) + n.log2)
    omega
  rw [UnpackedFloat.ofScientific, dif_neg hn, if_neg hsmall, if_neg hlarge, if_pos (by decide)]
  show roundWithAccuracy Format.binary64 .positive ((n <<< 53) * 1) (-53) .exact = _
  rw [Nat.mul_one, Nat.shiftLeft_eq]

theorem rounds_ofScientific (hn : n ≠ 0) :
    Rounds n (UnpackedFloat.ofScientific Format.binary64 n 0) := by
  have hlog : (n * 2 ^ 53).log2 = 52 + (n.log2 + 1) := by
    rw [log2_mul_two_pow hn]
    omega
  obtain ⟨m, e, h, hrank, hround⟩ := roundWithAccuracy_rank (e := -53) hlog (by omega)
  refine ⟨m, e, h, ?_, (ofScientific_eq hn).trans hround⟩
  rw [hrank, countRank]
  congr 1
  omega

/-- There is one float only with the rank that a count is rounded to. -/
theorem Rounds.unique (hx : Rounds n x) (hy : Rounds n y) : x = y := by
  obtain ⟨m, e, h, hrank, rfl⟩ := hx
  obtain ⟨m', e', h', hrank', rfl⟩ := hy
  have hbounds := And.intro h.le_mantissa h.mantissa_lt
  have hbounds' := And.intro h'.le_mantissa h'.mantissa_lt
  rw [← hrank', rank, rank] at hrank
  obtain ⟨rfl, rfl⟩ : m = m' ∧ e = e' := by omega
  rfl

theorem rounds_ofNat (hn : n ≠ 0) (hlog : n.log2 ≤ 52) :
    Rounds n (UnpackedFloat.ofNat Format.binary64 n) := by
  have hpos : compare (n : Int) 0 = .gt := Int.compare_eq_gt.mpr (by omega)
  have htarget : max ((n.log2 : Int) + 0 - 52) (-1074) = n.log2 - 52 := by omega
  have hshift : (0 - ((n.log2 : Int) - 52)).toNat = 52 - n.log2 := by omega
  have hfull : (n * 2 ^ (52 - n.log2)).log2 = 52 + 0 := by
    rw [log2_mul_two_pow hn]
    omega
  obtain ⟨m, e, h, hrank, hround⟩ :=
    roundWithAccuracy_rank (e := 0 - (52 - n.log2 : Nat)) hfull (by omega)
  refine ⟨m, e, h, ?_, ?_⟩
  · have hexact := nearest_exact (n * 2 ^ (52 - n.log2)) 0
    rw [Nat.pow_zero, Nat.mul_one] at hexact
    rw [hrank, hexact, countRank_exact hlog]
    congr 1
    omega
  · simp only [UnpackedFloat.ofNat, UnpackedFloat.ofInt, UnpackedFloat.normalize, hpos,
      Int.toNat_natCast, UnpackedFloat.round, targetExponent_eq, htarget, decreaseExponent, hshift,
      Nat.shiftLeft_eq, hround]

/-- Multiplying by one shifts a mantissa up and down again. -/
theorem Canonical.mul_one (h : Canonical m e) (sign : Sign) (hm : 0 < m) :
    UnpackedFloat.mul Format.binary64 (.finite sign m e hm) (.finite .positive (2 ^ 52) (-52) (by decide)) =
      .finite sign m e hm := by
  have hle := h.le_exponent
  have htarget : max ((m * 2 ^ 52).log2 + (e + -52) - 52 : Int) (-1074) = e := by
    have hlow : 2 ^ 52 ≤ m → 52 ≤ m.log2 := (Nat.le_log2 hm.ne').mpr
    have hhigh : m.log2 < 53 := (Nat.log2_lt hm.ne').mpr h.mantissa_lt
    rw [log2_mul_two_pow hm.ne']
    rcases h.full with hfull | rfl <;> omega
  have hshift : (e - (e + -52)).toNat = 52 := by omega
  have hfirst : shiftToTargetExponent Format.binary64 (m * 2 ^ 52) (e + -52) .exact =
      (ExtendedMantissa.ofMantissaAndAccuracy (m * 2 ^ 52) .exact >>> 52, e) := by
    simp only [shiftToTargetExponent, targetExponent_eq, htarget, shiftToExponent, hshift]
    exact congrArg _ (by omega)
  have hmantissa : (ExtendedMantissa.ofMantissaAndAccuracy (m * 2 ^ 52) .exact >>> 52).roundedMantissa = m :=
    nearest_exact m 52
  have hlt := h.mantissa_lt
  have hsign : sign * .positive = sign := by cases sign <;> rfl
  rw [UnpackedFloat.mul, hsign, roundWithAccuracy_eq_settle hfirst hle (by omega), hmantissa, settle,
    dif_neg hm.ne', if_pos hlt]

/-- A small count that is packed is read back as it was. -/
theorem Rounds.unpack_pack (h : Rounds n x) (hn : n ≠ 0) (hlog : n.log2 ≤ 52) :
    (Float.Model.pack x).unpack = x := by
  obtain ⟨m, e, h, hrank, rfl⟩ := h
  have hmantissa : n * 2 ^ (52 - n.log2) < 2 ^ 53 := by
    rw [← Nat.log2_lt (by simp [hn]), log2_mul_two_pow hn]
    omega
  have hfits : e ≤ 971 := by
    rw [countRank_exact hlog, rank, rank] at hrank
    omega
  have hread : (Float.Model.pack (.finite .positive m e h.pos)).unpack = h.packed :=
    Rounding.unpack_pack h
  rw [hread, Normal.packed, if_pos hfits]

theorem toFloat_toModel (hn : n ≠ 0) : ∃ x, Rounds n x ∧ n.toFloat.toModel = .pack x := by
  show ∃ x, Rounds n x ∧ (Float.ofScientific n false 0).toModel = .pack x
  by_cases hsmall : n < 2 ^ 53
  · have hlog : n.log2 ≤ 52 := Nat.le_of_lt_succ ((Nat.log2_lt hn).mpr hsmall)
    have hword : n.toUInt64.toNat = n := Nat.mod_eq_of_lt (by omega)
    have hone : (Float.Model.ofBits 0x3FF0000000000000).unpack =
        .finite .positive (2 ^ 52) (-52) (by decide) := rfl
    have hrounds := rounds_ofNat hn hlog
    have hread := hrounds.unpack_pack hn hlog
    refine ⟨_, hrounds, ?_⟩
    obtain ⟨m, e, h, -, hfloat⟩ := hrounds
    rw [Float.ofScientific, dif_pos ⟨hsmall, by omega⟩]
    show Float.Model.mul (.ofUInt64 n.toUInt64) (.ofBits 0x3FF0000000000000) = _
    rw [Float.Model.mul, hone, Float.Model.ofUInt64, UnpackedFloat.ofUInt64, hword,
      hread, hfloat, h.canonical.mul_one]
  · rw [Float.ofScientific, dif_neg (by omega)]
    exact ⟨_, rounds_ofScientific hn, rfl⟩

/-- **A count as a float** is the one with its rank, or infinity. -/
theorem unpack_toFloat (hn : n ≠ 0) : ∃ m e, ∃ h : Normal m e, rank m e = countRank n ∧
    n.toFloat.toModel.unpack = h.packed := by
  obtain ⟨_, ⟨m, e, h, hrank, rfl⟩, hpack⟩ := toFloat_toModel hn
  refine ⟨m, e, h, hrank, ?_⟩
  rw [hpack]
  exact unpack_pack h

/-! ## Order -/

theorem nearest_count_bounds (hn : n ≠ 0) : 2 ^ 52 ≤ nearest (n * 2 ^ 53) (n.log2 + 1) ∧
    nearest (n * 2 ^ 53) (n.log2 + 1) ≤ 2 ^ 53 := by
  obtain ⟨hlow, hhigh⟩ := (Nat.log2_eq_iff hn).mp rfl
  refine nearest_bounds ?_ ?_
  · calc 2 ^ 52 * 2 ^ (n.log2 + 1) = 2 ^ n.log2 * 2 ^ 53 := by ring
      _ ≤ n * 2 ^ 53 := Nat.mul_le_mul_right _ hlow
  · calc n * 2 ^ 53 < 2 ^ (n.log2 + 1) * 2 ^ 53 := Nat.mul_lt_mul_of_pos_right hhigh (Nat.two_pow_pos 53)
      _ = 2 ^ 53 * 2 ^ (n.log2 + 1) := Nat.mul_comm _ _

theorem countRank_mono (ha : a ≠ 0) (hab : a ≤ b) : countRank a ≤ countRank b := by
  have hb : b ≠ 0 := by omega
  have hlog : a.log2 ≤ b.log2 := (Nat.le_log2 hb).mpr (Nat.le_trans (Nat.log2_self_le ha) hab)
  rcases Nat.lt_or_eq_of_le hlog with hlt | heq
  · have hupper := (nearest_count_bounds ha).2
    have hlower := (nearest_count_bounds hb).1
    rw [countRank, countRank, rank, rank]
    omega
  · have hmono := nearest_mono (Nat.mul_le_mul_right (2 ^ 53) hab) (b.log2 + 1)
    rw [countRank, countRank, rank, rank, heq]
    omega

/-- What is above a positive float is infinity, or a float with more in its exponent or mantissa. -/
theorem finite_lt_iff {z : UnpackedFloat} {hm : 0 < m} :
    UnpackedFloat.lt (.finite .positive m e hm) z = true ↔ z = .infinity .positive ∨
      ∃ m' e' hm', z = .finite .positive m' e' hm' ∧ (e < e' ∨ e = e' ∧ m < m') := by
  cases z with
  | notANumber => simp [UnpackedFloat.lt, UnpackedFloat.compare]
  | infinity sign => cases sign <;> simp [UnpackedFloat.lt, UnpackedFloat.compare]
  | zero sign => simp [UnpackedFloat.lt, UnpackedFloat.compare]
  | finite sign m' e' hm' =>
      cases sign <;>
        simp [UnpackedFloat.lt, UnpackedFloat.compare, Ordering.then_eq_lt, Int.compare_eq_lt,
          Nat.compare_eq_lt, hm']

/-- Nothing is above infinity. -/
theorem infinity_lt (z : UnpackedFloat) : UnpackedFloat.lt (.infinity .positive) z = false := by
  cases z with
  | infinity sign => cases sign <;> rfl
  | notANumber | zero _ | finite _ _ _ _ => rfl

/-- Zero is below whatever a positive float is below. -/
theorem zero_lt_of_finite_lt {z : UnpackedFloat} {hm : 0 < m}
    (h : UnpackedFloat.lt (.finite .positive m e hm) z = true) :
    UnpackedFloat.lt (.zero .positive) z = true := by
  rcases finite_lt_iff.mp h with rfl | ⟨m', e', hm', rfl, -⟩ <;> rfl

theorem lt_of_rank_le {m' : Nat} {e' : Int} (h : Normal m e) (h' : Normal m' e')
    (hle : rank m e ≤ rank m' e') {z : UnpackedFloat} (hlt : UnpackedFloat.lt h'.packed z = true) :
    UnpackedFloat.lt h.packed z = true := by
  have hlex : e < e' ∨ e = e' ∧ m ≤ m' := by
    have hbounds := And.intro h.le_mantissa h'.mantissa_lt
    rw [rank, rank] at hle
    omega
  by_cases hfits : e' ≤ 971
  · rw [Normal.packed, if_pos hfits, finite_lt_iff] at hlt
    rw [Normal.packed, if_pos (by omega), finite_lt_iff]
    refine hlt.imp id ?_
    rintro ⟨m₀, e₀, hm₀, rfl, hbelow⟩
    exact ⟨m₀, e₀, hm₀, rfl, by omega⟩
  · rw [Normal.packed, if_neg hfits, infinity_lt] at hlt
    cases hlt

theorem lt_iff_unpack {c d : Float} :
    c < d ↔ UnpackedFloat.lt c.toModel.unpack d.toModel.unpack = true := by
  show decide (UnpackedFloat.lt _ _ = true) = true ↔ _
  rw [decide_eq_true_iff]

/-- **Counts keep their order** as floats: what is above a count is above every smaller one. -/
theorem toFloat_lt_of_le {c : Float} (hab : a ≤ b) (hb : b.toFloat < c) : a.toFloat < c := by
  by_cases hzero : a = 0
  · subst hzero
    by_cases hb0 : b = 0
    · rwa [hb0] at hb
    · obtain ⟨m, e, h, -, hunpack⟩ := unpack_toFloat hb0
      rw [lt_iff_unpack, hunpack, Normal.packed] at hb
      rw [lt_iff_unpack]
      split at hb
      · exact zero_lt_of_finite_lt hb
      · rw [infinity_lt] at hb
        cases hb
  · obtain ⟨m, e, h, hrank, hunpack⟩ := unpack_toFloat hzero
    obtain ⟨m', e', h', hrank', hunpack'⟩ := unpack_toFloat (n := b) (by omega)
    rw [lt_iff_unpack, hunpack'] at hb
    rw [lt_iff_unpack, hunpack]
    refine lt_of_rank_le h h' ?_ hb
    rw [hrank, hrank']
    exact countRank_mono hzero hab

/-! ## The limit -/

/-- If the first `limit` counts are below a float and the next one is not, then no other one is. -/
theorem toFloat_lt_iff {c : Float} {limit : Nat} (hlast : limit ≠ 0 → (limit - 1).toFloat < c)
    (hfirst : ¬limit.toFloat < c) (count : Nat) : count.toFloat < c ↔ count < limit := by
  constructor
  · intro hcount
    refine Nat.lt_of_not_le fun hle => hfirst (toFloat_lt_of_le hle hcount)
  · intro hcount
    exact toFloat_lt_of_le (by omega) (hlast (by omega))

/-- A count of more than 1024 bits is infinity as a float. -/
theorem unpack_toFloat_huge (hn : n ≠ 0) (hlog : 1024 ≤ n.log2) :
    n.toFloat.toModel.unpack = .infinity .positive := by
  obtain ⟨m, e, h, hrank, hunpack⟩ := unpack_toFloat hn
  have hlow := (nearest_count_bounds hn).1
  have hupper := h.mantissa_lt
  rw [countRank, rank, rank] at hrank
  rw [hunpack, Normal.packed, if_neg (by omega)]

/-- **The counts below a float** are those below some limit. -/
theorem exists_limit (c : Float) : ∃ limit, ∀ count : Nat, count.toFloat < c ↔ count < limit := by
  obtain ⟨huge, hne, hlog⟩ : ∃ huge : Nat, huge ≠ 0 ∧ 1024 ≤ huge.log2 :=
    ⟨2 ^ 1024, Nat.ne_of_gt (Nat.two_pow_pos _), Nat.le_of_eq (Nat.log2_two_pow).symm⟩
  have hinfinite : ∃ count : Nat, ¬count.toFloat < c := by
    refine ⟨huge, ?_⟩
    rw [lt_iff_unpack, unpack_toFloat_huge hne hlog, infinity_lt]
    exact Bool.false_ne_true
  refine ⟨Nat.find hinfinite, toFloat_lt_iff (fun hne => ?_) (Nat.find_spec hinfinite)⟩
  exact Decidable.not_not.mp (Nat.find_min hinfinite (by omega))

end GraphPlacement.Rounding
