import GraphPlacement.Proofs.Text.Fields

/-!
# Fields and the blanks between them

**Grammar.** A text consists of its fields and of blanks: at least one between two fields, and any number before
the first and after the last (`Spaced`).  The scan for fields finds just the words of which a text consists in
this way (`fields_eq_iff`), so what a line says does not depend on how its fields are parted.

**Blank lines.** A text has no field exactly when it is blank from end to end (`fields_eq_nil_iff`).
-/

namespace GraphPlacement.Text

variable {c : Char} {gap reading rest cs : List Char} {w text : String} {ws : List String}

/-- Whether there is nothing but blanks. -/
def AllBlank (cs : List Char) : Prop := ∀ c ∈ cs, isBlank c = true

instance : Decidable (AllBlank cs) := List.decidableBAll (fun c => isBlank c = true) cs

/-- Whether a text is made up of some fields in their order, with blanks between them and around them. -/
inductive Spaced : List String → List Char → Prop
  /-- Blanks alone. -/
  | blank {gap : List Char} (hgap : AllBlank gap) : Spaced [] gap
  /-- A field after some blanks; what comes next is at its end or goes on with a blank. -/
  | field {gap rest : List Char} {w : String} {ws : List String} (hgap : AllBlank gap)
      (hparted : ∀ c ∈ rest.head?, isBlank c = true) (hrest : Spaced ws rest) :
      Spaced (w :: ws) (gap ++ (w.toList ++ rest))

theorem allBlank_nil : AllBlank [] := by
  intro c hc
  cases hc

theorem AllBlank.cons (h : isBlank c = true) (hgap : AllBlank gap) : AllBlank (c :: gap) :=
  List.forall_mem_cons.mpr ⟨h, hgap⟩

theorem spaced_nil_iff : Spaced [] cs ↔ AllBlank cs := by
  constructor
  · intro h
    cases h with
    | blank hgap => exact hgap
  · exact .blank

/-- Blanks more at the front make no difference. -/
theorem Spaced.cons (hc : isBlank c = true) (h : Spaced ws cs) : Spaced ws (c :: cs) := by
  cases h with
  | blank hgap => exact .blank (hgap.cons hc)
  | field hgap hparted hrest => exact .field (hgap.cons hc) hparted hrest

/-! ## What the scan finds -/

/-- Blanks at the front are passed over. -/
theorem fieldsFrom_gap (hgap : AllBlank gap) (cs : List Char) :
    fieldsFrom isBlank [] (gap ++ cs) = fieldsFrom isBlank [] cs := by
  induction gap with
  | nil => rfl
  | cons c gap ih =>
      obtain ⟨hc, hgap⟩ := List.forall_mem_cons.mp hgap
      rw [List.cons_append, fieldsFrom_separator hc, closeField_nil, ih hgap]

/-- A word is the first field of what it stands in front of, if that goes on with a blank. -/
theorem fieldsFrom_word (hw : IsWord w) (hparted : ∀ c ∈ rest.head?, isBlank c = true) :
    fieldsFrom isBlank [] (w.toList ++ rest) = w.toList :: fieldsFrom isBlank [] rest := by
  have hne : w.toList.reverse ≠ [] := by simpa using hw.ne_nil
  rw [fieldsFrom_append_solid hw.solid, List.append_nil]
  cases rest with
  | nil => rw [fieldsFrom_nil, closeField_of_ne_nil hne, List.reverse_reverse, fieldsFrom_nil, closeField_nil]
  | cons c rest =>
      have hc : isBlank c = true := hparted c rfl
      rw [fieldsFrom_separator hc, fieldsFrom_separator hc, closeField_of_ne_nil hne, closeField_nil,
        List.reverse_reverse]

/-- The scan finds the words of which a text consists. -/
theorem Spaced.fieldsFrom_eq (h : Spaced ws cs) (hwords : ∀ w ∈ ws, IsWord w) :
    fieldsFrom isBlank [] cs = ws.map String.toList := by
  induction h with
  | @blank gap hgap =>
      have hscan := fieldsFrom_gap hgap []
      rw [List.append_nil] at hscan
      exact hscan
  | field hgap hparted _ ih =>
      obtain ⟨hw, hwords⟩ := List.forall_mem_cons.mp hwords
      rw [fieldsFrom_gap hgap, fieldsFrom_word hw hparted, ih hwords, List.map_cons]

/-- A field that is closed stands in front of what goes on with a blank. -/
theorem spaced_closeField {later : List (List Char)} (hrest : Spaced (later.map String.ofList) rest)
    (hparted : ∀ c ∈ rest.head?, isBlank c = true) (reading : List Char) :
    Spaced ((closeField reading later).map String.ofList) (reading.reverse ++ rest) := by
  cases reading with
  | nil => exact hrest
  | cons c reading =>
      have hfield := Spaced.field (w := String.ofList (c :: reading).reverse) allBlank_nil hparted hrest
      rw [String.toList_ofList] at hfield
      exact hfield

/-- A text consists of what the scan finds, of which a part may have been read before. -/
theorem spaced_fieldsFrom (reading cs : List Char) :
    Spaced ((fieldsFrom isBlank reading cs).map String.ofList) (reading.reverse ++ cs) := by
  induction cs generalizing reading with
  | nil =>
      have hnone : Spaced (([] : List (List Char)).map String.ofList) [] := .blank allBlank_nil
      exact spaced_closeField hnone (by simp) reading
  | cons c cs ih =>
      cases hc : isBlank c with
      | true =>
          rw [fieldsFrom_separator hc]
          exact spaced_closeField ((ih []).cons hc) (by simpa using hc) reading
      | false =>
          have hlonger := ih (c :: reading)
          rw [List.reverse_cons, List.append_assoc, List.singleton_append] at hlonger
          rw [fieldsFrom_solid hc]
          exact hlonger

theorem isWord_ofList {word : List Char} (hne : word ≠ []) (hsolid : ∀ c ∈ word, isBlank c = false) :
    IsWord (String.ofList word) :=
  ⟨by rwa [String.toList_ofList], by rwa [String.toList_ofList]⟩

/-- A field that is closed is a word, or it is none. -/
theorem isWord_of_mem_closeField {word : List Char} {later : List (List Char)}
    (hreading : ∀ c ∈ reading, isBlank c = false) (h : word ∈ closeField reading later) :
    IsWord (String.ofList word) ∨ word ∈ later := by
  cases reading with
  | nil => exact Or.inr h
  | cons c reading =>
      rcases List.mem_cons.mp h with rfl | hlater
      · exact Or.inl (isWord_ofList (by simp) fun d hd => hreading d (List.mem_reverse.mp hd))
      · exact Or.inr hlater

theorem isWord_of_mem_fieldsFrom {word : List Char} (hreading : ∀ c ∈ reading, isBlank c = false)
    (h : word ∈ fieldsFrom isBlank reading cs) : IsWord (String.ofList word) := by
  induction cs generalizing reading with
  | nil => exact (isWord_of_mem_closeField hreading h).resolve_right List.not_mem_nil
  | cons c cs ih =>
      cases hc : isBlank c with
      | true =>
          rw [fieldsFrom_separator hc] at h
          exact (isWord_of_mem_closeField hreading h).elim id (ih (by simp))
      | false =>
          rw [fieldsFrom_solid hc] at h
          exact ih (List.forall_mem_cons.mpr ⟨hc, hreading⟩) h

theorem isWord_of_mem_fields (h : w ∈ fields text) : IsWord w := by
  obtain ⟨word, hword, rfl⟩ := List.mem_map.mp h
  exact isWord_of_mem_fieldsFrom (by simp) hword

/-- **The fields of a text** are the words of which it consists, with blanks between them. -/
theorem fields_eq_iff : fields text = ws ↔ Spaced ws text.toList ∧ ∀ w ∈ ws, IsWord w := by
  constructor
  · rintro rfl
    exact ⟨spaced_fieldsFrom [] text.toList, fun w hw => isWord_of_mem_fields hw⟩
  · rintro ⟨hspaced, hwords⟩
    rw [fields, fieldsBetween, hspaced.fieldsFrom_eq hwords, List.map_map]
    simp [Function.comp_def]

theorem fields_eq_nil_iff : fields text = [] ↔ AllBlank text.toList := by
  rw [fields_eq_iff, spaced_nil_iff]
  simp

end GraphPlacement.Text
