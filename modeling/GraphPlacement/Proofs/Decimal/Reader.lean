import GraphPlacement.Decimal.Reader
import GraphPlacement.Proofs.Text.Fields

/-!
# Decimal numbers are words

What is read as a decimal number has no blank in it: names are compared in lower case, which leaves blanks as
they are, and everything else is signs, digits, a point and the letter of the exponent.  So decimal numbers can
be fields of a record: `isWord_of_read?`.
-/

namespace GraphPlacement.Decimal

open GraphPlacement.Text

variable {c : Char} {cs : List Char} {text : String}

/-- Blanks have no lower case of their own. -/
theorem toLower_of_isBlank (h : isBlank c = true) : c.toLower = c := by
  have hletter : ¬(c.val ≥ 'A'.val ∧ c.val ≤ 'Z'.val) := by
    rintro ⟨hle, hge⟩
    have hlow : 65 ≤ c.toNat := UInt32.le_iff_toNat_le.mp hle
    have hhigh : c.toNat ≤ 90 := UInt32.le_iff_toNat_le.mp hge
    simp only [isBlank, blankRanges, List.any_cons, List.any_nil, Bool.or_false, Bool.or_eq_true,
      Bool.and_eq_true, decide_eq_true_eq] at h
    omega
  exact dif_neg hletter

/-- A text that is a name in lower case has no blank if the name has none. -/
theorem solid_of_toLower {name : List Char} (hname : name.any isBlank = false)
    (h : cs.map Char.toLower = name) : ∀ c ∈ cs, isBlank c = false := by
  intro c hc
  refine Bool.eq_false_iff.mpr fun hblank => ?_
  have hmem : c ∈ name := by
    rw [← h, ← toLower_of_isBlank hblank]
    exact List.mem_map_of_mem hc
  exact List.any_eq_false.mp hname c hmem hblank

theorem solid_of_all_isDigit (h : cs.all Char.isDigit = true) : ∀ c ∈ cs, isBlank c = false :=
  fun c hc => isBlank_eq_false_of_isDigit (List.all_eq_true.mp h c hc)

theorem solid_of_digits? {n : Nat} (h : digits? cs = some n) : ∀ c ∈ cs, isBlank c = false := by
  unfold digits? at h
  split at h
  case isTrue hdigits => exact solid_of_all_isDigit hdigits.2
  case isFalse => cases h

/-- A sign is no blank. -/
theorem solid_of_splitSign (h : ∀ c ∈ (splitSign cs).2, isBlank c = false) :
    ∀ c ∈ cs, isBlank c = false := by
  unfold splitSign at h
  split at h
  case h_1 => exact List.forall_mem_cons.mpr ⟨by decide, h⟩
  case h_2 => exact List.forall_mem_cons.mpr ⟨by decide, h⟩
  case h_3 => exact h

theorem solid_of_exponent? {e : Int} (h : exponent? cs = some e) : ∀ c ∈ cs, isBlank c = false := by
  unfold exponent? at h
  split at h
  case h_1 => simp
  case h_2 c cs =>
    split at h
    case isTrue hletter =>
      obtain ⟨e, he, -⟩ := Option.map_eq_some_iff.mp h
      obtain ⟨n, hn, -⟩ := Option.bind_eq_some_iff.mp he
      refine List.forall_mem_cons.mpr ⟨?_, solid_of_splitSign (solid_of_digits? hn)⟩
      rcases hletter with rfl | rfl <;> decide
    case isFalse => cases h

theorem solid_of_splitDigits (h : ∀ c ∈ (splitDigits cs).2, isBlank c = false) :
    ∀ c ∈ cs, isBlank c = false := by
  have hfront := solid_of_all_isDigit (List.all_takeWhile (l := cs) (p := Char.isDigit))
  rw [← List.takeWhile_append_dropWhile (p := Char.isDigit) (l := cs)]
  exact fun c hc => (List.mem_append.mp hc).elim (hfront c) (h c)

/-- A point is no blank either. -/
theorem solid_of_splitPoint (h : ∀ c ∈ (splitPoint cs).2.2, isBlank c = false) :
    ∀ c ∈ cs, isBlank c = false := by
  refine solid_of_splitDigits ?_
  unfold splitPoint at h
  split at h
  case h_1 front rest hsplit =>
    rw [hsplit]
    exact List.forall_mem_cons.mpr ⟨by decide, solid_of_splitDigits h⟩
  case h_2 front rest _ hsplit =>
    rw [hsplit]
    exact h

theorem solid_of_magnitude? {x : Float} (h : magnitude? cs = some x) :
    ∀ c ∈ cs, isBlank c = false := by
  have hname : ∀ {name : String}, String.ofList (cs.map Char.toLower) = name →
      cs.map Char.toLower = name.toList := by
    rintro _ rfl
    rw [String.toList_ofList]
  simp only [magnitude?] at h
  by_cases hinf : String.ofList (cs.map Char.toLower) = "inf" ∨
      String.ofList (cs.map Char.toLower) = "infinity"
  · rcases hinf with hinf | hinf
    · exact solid_of_toLower (by decide) (hname hinf)
    · exact solid_of_toLower (by decide) (hname hinf)
  · rw [if_neg hinf] at h
    by_cases hnan : String.ofList (cs.map Char.toLower) = "nan"
    · exact solid_of_toLower (by decide) (hname hnan)
    · rw [if_neg hnan] at h
      by_cases hnone : (splitPoint cs).1 ++ (splitPoint cs).2.1 = []
      · rw [if_pos hnone] at h
        cases h
      · rw [if_neg hnone] at h
        obtain ⟨e, he, -⟩ := Option.map_eq_some_iff.mp h
        exact solid_of_splitPoint (solid_of_exponent? he)

/-- **What is read as a decimal number** is a word. -/
theorem isWord_of_read? {x : Float} (h : read? text = some x) : IsWord text := by
  obtain ⟨m, hm, -⟩ := Option.map_eq_some_iff.mp h
  refine ⟨fun hnil => ?_, solid_of_splitSign (solid_of_magnitude? hm)⟩
  have hnone : magnitude? [] = none := rfl
  rw [hnil] at hm
  exact absurd (hnone.symm.trans hm) (by simp)

end GraphPlacement.Decimal
