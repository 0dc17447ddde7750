import GraphPlacement.Proofs.Listing.Records

/-!
# What a listing says

**Saying.** What a line says is a matter of its fields and not of its number, which goes into faults only
(`Reads`).  A listing without faults says what its lines say, one after the other, and blank lines say nothing
(`Said`).  So all records of a listing are those that it says (`records_eq_ok_iff_said`).

**Order.** What is said by lines one after the other is said by each part of them on its own
(`said_append_iff`), and which records are said at all does not depend on the order (`Said.mem_iff`).
-/

namespace GraphPlacement.Listing

variable {α : Type} {reader : LineReader α} {meaning : String → α → Prop}
variable {lines xs ys : List (Option String)} {as : List α} {read : Nat} {text : String} {a : α}

/-- Whether a reader gets out of a line just what the line says, whatever its number. -/
structure Reads (reader : LineReader α) (meaning : String → α → Prop) : Prop where
  blank : ∀ line text, reader line text = .ok none ↔ Text.fields text = []
  record : ∀ line text a, reader line text = .ok (some a) ↔ meaning text a

/-- What some lines say, one after the other. -/
inductive Said (meaning : String → α → Prop) : List (Option String) → List α → Prop
  /-- No line says nothing. -/
  | nil : Said meaning [] []
  /-- Neither does a blank one. -/
  | blank {text : String} {lines : List (Option String)} {as : List α} (hblank : Text.fields text = [])
      (hlater : Said meaning lines as) : Said meaning (some text :: lines) as
  /-- Any other line says a record. -/
  | record {text : String} {a : α} {lines : List (Option String)} {as : List α} (hmeans : meaning text a)
      (hlater : Said meaning lines as) : Said meaning (some text :: lines) (a :: as)

namespace Reads

variable (h : Reads reader meaning)

include h

theorem not_meaning_of_blank (hblank : Text.fields text = []) : ¬meaning text a := by
  intro hmeans
  have hnone := (h.blank 0 text).mpr hblank
  rw [(h.record 0 text a).mpr hmeans] at hnone
  cases hnone

/-- A line says one record at most. -/
theorem meaning_unique {b : α} (ha : meaning text a) (hb : meaning text b) : a = b := by
  have hread := (h.record 0 text a).mpr ha
  rw [(h.record 0 text b).mpr hb] at hread
  cases hread
  rfl

/-! ## Reading what is said -/

theorem said_of_records (hread : records (itemsFrom reader read lines) = .ok as) : Said meaning lines as := by
  induction lines generalizing read as with
  | nil =>
      cases hread
      exact .nil
  | cons line lines ih =>
      rw [records_eq_ok_iff] at hread
      cases line with
      | none =>
          obtain ⟨_, _, _, hfault, -⟩ := List.map_eq_cons_iff.mp hread.symm
          cases hfault
      | some text =>
          cases hline : reader (read + 1) text with
          | error fault =>
              rw [itemsFrom, hline] at hread
              obtain ⟨_, _, _, hfault, -⟩ := List.map_eq_cons_iff.mp hread.symm
              cases hfault
          | ok answer =>
              rw [itemsFrom, hline] at hread
              cases answer with
              | none => exact .blank ((h.blank _ text).mp hline) (ih (records_eq_ok_iff.mpr hread))
              | some a =>
                  obtain ⟨_, later, rfl, hvalue, hlater⟩ := List.map_eq_cons_iff.mp hread.symm
                  cases hvalue
                  exact .record ((h.record _ text a).mp hline) (ih (records_eq_ok_iff.mpr hlater.symm))

theorem records_of_said (hsaid : Said meaning lines as) (read : Nat) :
    records (itemsFrom reader read lines) = .ok as := by
  induction hsaid generalizing read with
  | nil => rfl
  | blank hblank _ ih =>
      rw [itemsFrom, (h.blank _ _).mpr hblank]
      exact ih (read + 1)
  | record hmeans _ ih =>
      have hlater := records_eq_ok_iff.mp (ih (read + 1))
      rw [itemsFrom, (h.record _ _ _).mpr hmeans, records_eq_ok_iff]
      rw [List.map_cons, List.map_cons, hlater]

/-- **All records of a listing** are what its lines say. -/
theorem records_eq_ok_iff_said {content : ByteArray} :
    records (items reader content) = .ok as ↔ Said meaning (Text.lines content) as :=
  ⟨h.said_of_records, fun hsaid => h.records_of_said hsaid 0⟩

/-! ## What is said -/

/-- A record is said exactly if some line says it. -/
theorem mem_iff (hsaid : Said meaning lines as) :
    a ∈ as ↔ ∃ text, some text ∈ lines ∧ meaning text a := by
  induction hsaid with
  | nil => simp
  | @blank text lines as hblank _ ih =>
      have hnot : ¬meaning text a := h.not_meaning_of_blank hblank
      rw [ih]
      simp [or_and_right, exists_or, hnot]
  | @record text b lines as hmeans _ ih =>
      have hfirst : a = b ↔ meaning text a :=
        ⟨fun heq => heq ▸ hmeans, fun ha => h.meaning_unique ha hmeans⟩
      rw [List.mem_cons, ih, hfirst]
      simp [or_and_right, exists_or]

end Reads

/-- Lines say something altogether if each of them is blank or says a record. -/
theorem exists_said_iff : (∃ as, Said meaning lines as) ↔
    ∀ line ∈ lines, ∃ text, line = some text ∧ (Text.fields text = [] ∨ ∃ a, meaning text a) := by
  induction lines with
  | nil => exact ⟨fun _ => by simp, fun _ => ⟨[], .nil⟩⟩
  | cons line lines ih =>
      rw [List.forall_mem_cons, ← ih]
      constructor
      · rintro ⟨as, hsaid⟩
        cases hsaid with
        | @blank text _ _ hblank hlater => exact ⟨⟨text, rfl, Or.inl hblank⟩, as, hlater⟩
        | @record text a _ as hmeans hlater => exact ⟨⟨text, rfl, Or.inr ⟨a, hmeans⟩⟩, as, hlater⟩
      · rintro ⟨⟨text, rfl, hblank | ⟨a, hmeans⟩⟩, as, hlater⟩
        · exact ⟨as, .blank hblank hlater⟩
        · exact ⟨a :: as, .record hmeans hlater⟩

/-- **Lines one after the other** say what the first of them say and then what the others say. -/
theorem said_append_iff : Said meaning (xs ++ ys) as ↔
    ∃ before later, as = before ++ later ∧ Said meaning xs before ∧ Said meaning ys later := by
  constructor
  · intro hsaid
    induction xs generalizing as with
    | nil => exact ⟨[], as, rfl, .nil, hsaid⟩
    | cons line xs ih =>
        cases hsaid with
        | blank hblank hsaid =>
            obtain ⟨before, later, rfl, hbefore, hlater⟩ := ih hsaid
            exact ⟨before, later, rfl, .blank hblank hbefore, hlater⟩
        | record hmeans hsaid =>
            obtain ⟨before, later, rfl, hbefore, hlater⟩ := ih hsaid
            exact ⟨_ :: before, later, rfl, .record hmeans hbefore, hlater⟩
  · rintro ⟨before, later, rfl, hbefore, hlater⟩
    induction hbefore with
    | nil => exact hlater
    | blank hblank _ ih => exact .blank hblank ih
    | record hmeans _ ih => exact .record hmeans ih

end GraphPlacement.Listing
