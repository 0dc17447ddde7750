import GraphPlacement.Proofs.Text.Lines
import GraphPlacement.Text.Fields
import GraphPlacement.Text.Numeral

/-!
# Fields that are written and read back

**Words.** A word is a text of one or more characters that are not blank.  Words that are written with
a blank between them are the fields of what is written: `fields_word_blank` takes the first one off, and
`fields_word` the last.

**Numbers.** A written number is a word (`isWord_decimal`), and it is read back if it fits
(`natural?_decimal`), which for an integer means in a signed word (`integer?_decimal`).

**Endings.** A carriage return is blank, so a line has the same fields with it and without it
(`fields_chomp`).
-/

namespace GraphPlacement.Text

variable {separates : Char → Bool} {c : Char} {w : String} {n : Nat}

/-! ## The scan -/

/-- Characters that separate nothing go on with the field that is being read. -/
theorem fieldsFrom_append_solid {word : List Char} (h : ∀ c ∈ word, separates c = false)
    (reading cs : List Char) :
    fieldsFrom separates reading (word ++ cs) = fieldsFrom separates (word.reverse ++ reading) cs := by
  induction word generalizing reading with
  | nil => rfl
  | cons c word ih =>
      rw [List.cons_append, fieldsFrom_solid (h c List.mem_cons_self),
        ih fun d hd => h d (List.mem_cons_of_mem _ hd)]
      simp

/-- A separator at the very end parts nothing. -/
theorem fieldsFrom_concat_separator (h : separates c = true) (reading cs : List Char) :
    fieldsFrom separates reading (cs ++ [c]) = fieldsFrom separates reading cs := by
  induction cs generalizing reading with
  | nil =>
      rw [List.nil_append, fieldsFrom_separator h, fieldsFrom_nil, closeField_nil, fieldsFrom_nil]
  | cons d cs ih =>
      cases hd : separates d with
      | true => rw [List.cons_append, fieldsFrom_separator hd, fieldsFrom_separator hd, ih]
      | false => rw [List.cons_append, fieldsFrom_solid hd, fieldsFrom_solid hd, ih]

theorem closeField_of_ne_nil {reading : List Char} (h : reading ≠ []) (later : List (List Char)) :
    closeField reading later = reading.reverse :: later := by
  cases reading with
  | nil => exact absurd rfl h
  | cons c cs => rfl

/-! ## Words -/

/-- Whether a text is a field of its own. -/
structure IsWord (w : String) : Prop where
  ne_nil : w.toList ≠ []
  solid : ∀ c ∈ w.toList, isBlank c = false

theorem fields_word (h : IsWord w) : fields w = [w] := by
  have hne : w.toList.reverse ++ [] ≠ [] := by simpa using h.ne_nil
  rw [fields, fieldsBetween, ← List.append_nil w.toList, fieldsFrom_append_solid h.solid,
    fieldsFrom_nil, closeField_of_ne_nil hne]
  simp

theorem fields_word_blank (h : IsWord w) (rest : String) :
    fields (w ++ (" " ++ rest)) = w :: fields rest := by
  have hne : w.toList.reverse ++ [] ≠ [] := by simpa using h.ne_nil
  have hblank : (" " : String).toList = [' '] := by decide
  rw [fields, fieldsBetween, String.toList_append, String.toList_append, hblank, List.singleton_append,
    fieldsFrom_append_solid h.solid, fieldsFrom_separator (by decide), closeField_of_ne_nil hne]
  simp [fields, fieldsBetween]

/-- A line has the same fields with a carriage return at its end and without it. -/
theorem fields_chomp (t : String) : fields (chomp t) = fields t := by
  unfold chomp
  split
  case isFalse => rfl
  case isTrue h =>
    obtain ⟨cs, hcs⟩ := List.getLast?_eq_some_iff.mp h
    rw [fields, fieldsBetween, fields, fieldsBetween, String.toList_ofList, hcs,
      List.dropLast_concat, fieldsFrom_concat_separator (by decide)]

/-! ## Numbers -/

theorem signedBound_le_wordBound : signedBound ≤ wordBound := Nat.div_le_self _ _

theorem lt_of_natural? (h : natural? w = some n) : n < wordBound := by
  simpa using (Option.filter_eq_some_iff.mp h).2

theorem isWord_decimal (n : Nat) : IsWord (decimal n) where
  ne_nil := by
    rw [toList_decimal]
    exact Nat.toDigits_ne_nil
  solid c hc := by
    rw [toList_decimal] at hc
    exact isBlank_eq_false_of_isDigit (Nat.isDigit_of_mem_toDigits (by decide) (by decide) hc)

theorem isDigit_of_mem_decimal (hc : c ∈ (decimal n).toList) : c.isDigit = true := by
  rw [toList_decimal] at hc
  exact Nat.isDigit_of_mem_toDigits (by decide) (by decide) hc

theorem digits?_decimal (n : Nat) : digits? (decimal n).toList = some n := by
  have hdigits : (decimal n).toList.all Char.isDigit = true :=
    List.all_eq_true.mpr fun c hc => isDigit_of_mem_decimal hc
  rw [digits?, if_pos ⟨(isWord_decimal n).ne_nil, hdigits⟩, toList_decimal,
    Nat.ofDigitChars_ten_toDigits]

theorem decimal_ne_sign (h : c.isDigit = false) (cs : List Char) : (decimal n).toList ≠ c :: cs := by
  intro heq
  have hc : c ∈ (decimal n).toList := by simp [heq]
  rw [isDigit_of_mem_decimal hc] at h
  cases h

theorem dropPlus_decimal (n : Nat) : dropPlus (decimal n).toList = (decimal n).toList := by
  unfold dropPlus
  split
  case h_1 cs heq => exact absurd heq (decimal_ne_sign (by decide) cs)
  case h_2 => rfl

theorem natural?_decimal (h : n < wordBound) : natural? (decimal n) = some n := by
  rw [natural?, dropPlus_decimal, digits?_decimal, Option.filter_some_pos (by simpa using h)]

theorem integer?_decimal (n : Nat) :
    integer? (decimal n) = if n < signedBound then some (n : Int) else none := by
  unfold integer?
  split
  case h_1 cs heq => exact absurd heq (decimal_ne_sign (by decide) cs)
  case h_2 =>
    rw [dropPlus_decimal, digits?_decimal, Option.filter_some]
    by_cases h : n < signedBound <;> simp [h]

end GraphPlacement.Text
