import GraphPlacement.Listing.Records
import GraphPlacement.Proofs.Steps
import GraphPlacement.Proofs.Text.Fields

/-!
# Records and the lines they are on

**Reading all.** `records` gives all records of some items exactly when no item is a fault
(`records_eq_ok_iff`).

**Reading what was written.** Texts that are written one on a line are read each on its own, under the
number of its line (`items_texts`).  So if a reader gets a record out of the text that was written for it,
then it gets all records back (`items_join`).  Readers look at the fields of a line only, so what
`Text.chomp` takes off does not matter to them.

**Lines.** Each item stands on a line of its own, behind the lines of the items before it
(`itemsFrom_eq_append_cons`), and its number counts the lines up to there.  So a listing has all its records
exactly when each line is a text that can be read under its number (`exists_records_iff`), and then the
number of a record is that of its line (`exists_line_of_records`).

**Faults.** A reader can fail in one way only, which is to find its line malformed (`FailsOn`).  That is said of
a field and goes over to whatever is read field by field.
-/

namespace GraphPlacement.Listing

variable {α β : Type} {reader : LineReader α}

theorem records_eq_ok_iff {items : List (Item α)} {as : List α} :
    records items = .ok as ↔ items.map Item.value = as.map Except.ok := by
  induction items generalizing as with
  | nil =>
      rw [records, List.mapM_nil, List.map_nil]
      constructor
      · intro h
        cases h
        rfl
      · intro h
        rw [List.map_eq_nil_iff.mp h.symm]
        rfl
  | cons item items ih =>
      rw [records, List.mapM_cons, ← records, Step.except_bind_eq_ok, List.map_cons]
      constructor
      · rintro ⟨a, ha, h⟩
        obtain ⟨later, hlater, h⟩ := Step.except_bind_eq_ok.mp h
        cases h
        rw [ha, ih.mp hlater, List.map_cons]
      · intro h
        obtain ⟨a, later, rfl, ha, hlater⟩ := List.map_eq_cons_iff.mp h.symm
        refine ⟨a, ha.symm, ?_⟩
        rw [ih.mpr hlater.symm]
        rfl

/-- Reading some texts comes to what is read of each, with the number of its line. -/
theorem itemsFrom_texts {text : β → String} (result : Nat → β → Except Fault α) {xs : List β}
    (hread : ∀ x ∈ xs, ∀ line, reader line (text x) = (result line x).map some) (read : Nat) :
    itemsFrom reader read (xs.map fun x => some (text x)) =
      xs.mapIdx fun i x => ⟨read + 1 + i, result (read + 1 + i) x⟩ := by
  induction xs generalizing read with
  | nil => rfl
  | cons x xs ih =>
      have hlater := ih (fun y hy => hread y (List.mem_cons_of_mem _ hy)) (read + 1)
      rw [List.map_cons, itemsFrom, hread x List.mem_cons_self (read + 1), hlater, List.mapIdx_cons]
      simp only [Nat.add_zero, Nat.add_right_comm (read + 1) 1, ← Nat.add_assoc]
      cases result (read + 1) x <;> rfl

/-- Texts that are written one on a line are read one after the other, each under the number of its line. -/
theorem items_texts {text : β → String} (result : Nat → β → Except Fault α) {xs : List β}
    (hline : ∀ x ∈ xs, '\n' ∉ (text x).toList)
    (hread : ∀ x ∈ xs, ∀ line, reader line (Text.chomp (text x)) = (result line x).map some) :
    items reader (String.join (xs.map fun x => text x ++ "\n")).toUTF8 =
      xs.mapIdx fun i x => ⟨i + 1, result (i + 1) x⟩ := by
  have hlines : Text.lines (String.join ((xs.map text).map fun t => t ++ "\n")).toUTF8 =
      (xs.map text).map fun t => some (Text.chomp t) :=
    Text.lines_join (by simpa using hline)
  rw [List.map_map, List.map_map] at hlines
  rw [items, show (fun x => text x ++ "\n") = (fun t => t ++ "\n") ∘ text from rfl, hlines]
  have hall := itemsFrom_texts result hread 0
  simp only [Nat.zero_add, Nat.add_comm 1] at hall
  exact hall

/-- Texts that are written one on a line are read back, if each of them is. -/
theorem items_join {text : β → String} {result : β → α} {xs : List β}
    (hline : ∀ x ∈ xs, '\n' ∉ (text x).toList)
    (hread : ∀ x ∈ xs, ∀ line, reader line (Text.chomp (text x)) = .ok (some (result x))) :
    (items reader (String.join (xs.map fun x => text x ++ "\n")).toUTF8).map Item.value =
      (xs.map result).map Except.ok := by
  rw [items_texts (fun _ x => .ok (result x)) hline hread]
  exact List.ext_getElem? fun i => by simp [Function.comp_def]

/-! ## Lines -/

theorem itemsFrom_cons (reader : LineReader α) (read : Nat) (line : Option String)
    (lines : List (Option String)) :
    itemsFrom reader read (line :: lines) =
      itemsFrom reader read [line] ++ itemsFrom reader (read + [line].countP Option.isSome) lines := by
  cases line with
  | none => simp [itemsFrom]
  | some text =>
      cases h : reader (read + 1) text with
      | error fault => simp [itemsFrom, h]
      | ok answer => cases answer <;> simp [itemsFrom, h]

/-- A line gives one item at most. -/
theorem length_itemsFrom_singleton (reader : LineReader α) (read : Nat) (line : Option String) :
    (itemsFrom reader read [line]).length ≤ 1 := by
  cases line with
  | none => simp [itemsFrom]
  | some text =>
      cases h : reader (read + 1) text with
      | error fault => simp [itemsFrom, h]
      | ok answer => cases answer <;> simp [itemsFrom, h]

/-- Where an item stands: on a line of its own, and the items before it are those of the lines before. -/
theorem itemsFrom_eq_append_cons {read : Nat} {lines : List (Option String)} {item : Item α}
    {before later : List (Item α)} (h : itemsFrom reader read lines = before ++ item :: later) :
    ∃ above line below, lines = above ++ line :: below ∧ itemsFrom reader read above = before ∧
      itemsFrom reader (read + above.countP Option.isSome) [line] = [item] := by
  induction lines generalizing read before with
  | nil => simp [itemsFrom] at h
  | cons line lines ih =>
      rw [itemsFrom_cons] at h
      have hfirst := length_itemsFrom_singleton reader read line
      cases hline : itemsFrom reader read [line] with
      | nil =>
          rw [hline, List.nil_append] at h
          obtain ⟨above, other, below, rfl, hbefore, hitem⟩ := ih h
          refine ⟨line :: above, other, below, rfl, ?_, ?_⟩
          · rw [itemsFrom_cons, hline, List.nil_append, hbefore]
          · rw [List.countP_cons, Nat.add_comm (above.countP _), ← Nat.add_assoc]
            simpa using hitem
      | cons first more =>
          rw [hline, List.length_cons] at hfirst
          obtain rfl : more = [] := List.length_eq_zero_iff.mp (by omega)
          rw [hline, List.singleton_append] at h
          cases before with
          | nil =>
              obtain ⟨rfl, -⟩ := List.cons.inj h
              exact ⟨[], line, lines, rfl, rfl, hline⟩
          | cons other before =>
              obtain ⟨rfl, hrest⟩ := List.cons.inj h
              obtain ⟨above, at', below, rfl, hbefore, hitem⟩ := ih hrest
              refine ⟨line :: above, at', below, rfl, ?_, ?_⟩
              · rw [itemsFrom_cons, hline, List.singleton_append, hbefore]
              · rw [List.countP_cons, Nat.add_comm (above.countP _), ← Nat.add_assoc]
                simpa using hitem

/-- Whether each line of a content is a text on which a reader finds a record or none. -/
def Readable (reader : LineReader α) (content : ByteArray) : Prop :=
  ∀ k line, (Text.lines content)[k]? = some line →
    ∃ text answer, line = some text ∧ reader (k + 1) text = .ok answer

theorem exists_records_cons {item : Item α} {later : List (Item α)} :
    (∃ as, records (item :: later) = .ok as) ↔
      (∃ a, item.value = .ok a) ∧ ∃ as, records later = .ok as := by
  simp only [records_eq_ok_iff, List.map_cons]
  constructor
  · rintro ⟨as, h⟩
    obtain ⟨a, rest, rfl, hitem, hlater⟩ := List.map_eq_cons_iff.mp h.symm
    exact ⟨⟨a, hitem.symm⟩, rest, hlater.symm⟩
  · rintro ⟨⟨a, hitem⟩, rest, hlater⟩
    exact ⟨a :: rest, by rw [hitem, hlater, List.map_cons]⟩

theorem exists_records_itemsFrom_iff {read : Nat} {lines : List (Option String)} :
    (∃ as, records (itemsFrom reader read lines) = .ok as) ↔ ∀ k line, lines[k]? = some line →
      ∃ text answer, line = some text ∧ reader (read + k + 1) text = .ok answer := by
  induction lines generalizing read with
  | nil => simp [itemsFrom, records_eq_ok_iff]
  | cons line lines ih =>
      rw [← Nat.and_forall_add_one]
      cases line with
      | none => simp [itemsFrom, exists_records_cons]
      | some text =>
          have hlater : (∃ as, records (itemsFrom reader (read + 1) lines) = .ok as) ↔
              ∀ k line, lines[k]? = some line →
                ∃ text answer, line = some text ∧ reader (read + (k + 1) + 1) text = .ok answer := by
            simp only [ih, Nat.add_right_comm read 1, Nat.add_assoc read]
          simp only [List.getElem?_cons_succ, ← hlater]
          cases hread : reader (read + 1) text with
          | error fault => simp [itemsFrom, hread, exists_records_cons]
          | ok answer => cases answer <;> simp [itemsFrom, hread, exists_records_cons]

/-- **A listing has all its records** exactly when each of its lines can be read. -/
theorem exists_records_iff {content : ByteArray} :
    (∃ as, records (items reader content) = .ok as) ↔ Readable reader content := by
  rw [items, exists_records_itemsFrom_iff]
  simp only [Readable, Nat.zero_add]

/-- Each line of a readable listing is counted. -/
theorem Readable.countP_isSome {content : ByteArray} {above below : List (Option String)}
    (h : Readable reader content) (hlines : Text.lines content = above ++ below) :
    above.countP Option.isSome = above.length := by
  refine List.countP_eq_length.mpr fun line hline => ?_
  obtain ⟨k, hk⟩ := List.mem_iff_getElem?.mp hline
  have hlt := (List.getElem?_eq_some_iff.mp hk).1
  obtain ⟨text, -, rfl, -⟩ := h k line (by rw [hlines, List.getElem?_append_left hlt, hk])
  rfl

/-- **Where a record stands**: its line comes after the lines of the records before it, and its number is
one more than there are lines above. -/
theorem exists_line_of_records {content : ByteArray} {as : List α} {before later : List (Item α)}
    {item : Item α} (h : records (items reader content) = .ok as)
    (hitems : items reader content = before ++ item :: later) :
    ∃ passed a rest above text below, as = passed ++ a :: rest ∧
      before.map Item.value = passed.map Except.ok ∧ item = ⟨above.length + 1, .ok a⟩ ∧
      Text.lines content = above ++ some text :: below ∧ itemsFrom reader 0 above = before ∧
      reader (above.length + 1) text = .ok (some a) := by
  have hreadable : Readable reader content := exists_records_iff.mp ⟨as, h⟩
  have hvalues := records_eq_ok_iff.mp h
  rw [hitems, List.map_append, List.map_cons] at hvalues
  obtain ⟨passed, values, rfl, hpassed, hvalues⟩ := List.append_eq_map_iff.mp hvalues
  obtain ⟨a, rest, rfl, ha, -⟩ := List.map_eq_cons_iff.mp hvalues
  obtain ⟨above, line, below, hlines, habove, hitem⟩ := itemsFrom_eq_append_cons hitems
  rw [hreadable.countP_isSome hlines, Nat.zero_add] at hitem
  obtain ⟨text, answer, rfl, hanswer⟩ := hreadable above.length line (by simp [hlines])
  cases answer with
  | none => simp [itemsFrom, hanswer] at hitem
  | some b =>
      simp only [itemsFrom, hanswer, List.cons.injEq, and_true] at hitem
      subst hitem
      cases ha
      exact ⟨passed, a, rest, above, text, below, rfl, hpassed.symm, rfl, hlines, habove, hanswer⟩

/-! ## Fields -/

theorem readField_eq_ok {line : Nat} {reason : String → Reason} {parse : String → Option β}
    {raw : String} {b : β} : readField line reason parse raw = .ok b ↔ parse raw = some b := by
  unfold readField
  cases parse raw <;> simp

theorem readNode_eq_ok {line n : Nat} {raw : String} :
    readNode line raw = .ok n ↔ Text.natural? raw = some n :=
  readField_eq_ok

theorem lt_of_readNode {line n : Nat} {raw : String} (h : readNode line raw = .ok n) :
    n < Text.wordBound :=
  Text.lt_of_natural? (readNode_eq_ok.mp h)

theorem readNode_decimal {n : Nat} (h : n < Text.wordBound) (line : Nat) :
    readNode line (Text.decimal n) = .ok n :=
  readNode_eq_ok.mpr (Text.natural?_decimal h)

/-! ## Lines without a record -/

/-- Fields can be read or they fail, but a line that has some does not come out as blank. -/
theorem bind_ne_none {first : Except Fault α} {next : α → Except Fault (Option β)}
    (hnext : ∀ a, next a ≠ .ok none) : first >>= next ≠ .ok none := by
  intro hnone
  obtain ⟨a, -, ha⟩ := Step.except_bind_eq_ok.mp hnone
  exact hnext a ha

/-! ## Faults of a line -/

/-- Whether reading on a line fails only for what is malformed on this line. -/
def FailsOn (line : Nat) (result : Except Fault β) : Prop :=
  ∀ fault, result = .error fault → ∃ reason, fault = .malformed line reason

theorem failsOn_ok {line : Nat} (b : β) : FailsOn line (.ok b) := by
  intro fault h
  cases h

theorem failsOn_malformed (line : Nat) (reason : Reason) :
    FailsOn (β := β) line (.error (.malformed line reason)) := by
  intro fault h
  cases h
  exact ⟨reason, rfl⟩

theorem FailsOn.bind {line : Nat} {first : Except Fault α} {next : α → Except Fault β}
    (h : FailsOn line first) (hnext : ∀ a, FailsOn line (next a)) : FailsOn line (first >>= next) := by
  cases first with
  | ok a => exact hnext a
  | error cause =>
      intro fault hfault
      cases hfault
      exact h cause rfl

theorem failsOn_readField {line : Nat} {reason : String → Reason} {parse : String → Option β}
    {raw : String} : FailsOn line (readField line reason parse raw) := by
  unfold readField
  split
  · exact failsOn_ok _
  · exact failsOn_malformed line _

end GraphPlacement.Listing
