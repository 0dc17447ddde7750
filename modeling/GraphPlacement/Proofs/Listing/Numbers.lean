import GraphPlacement.Proofs.Listing.Edges
import GraphPlacement.Proofs.Listing.Groups
import GraphPlacement.Proofs.Text.Gaps

/-!
# The numbers of items

**One line, one item.** When reading goes on past faults to the end of a listing, then each line that is no text
and each line that is not blank gives one item, in the order of the lines (`forall₂_itemsFrom`).

**Numbers.** The number of an item counts the lines up to its own that are texts.  So it is the number of its line
as long as there is no line before or at it that is not text, and falls behind by one for each that is not:
`items_count_lines_that_are_text`.
-/

namespace GraphPlacement.Listing

variable {α : Type} {reader : LineReader α} {content : ByteArray}

/-- Whether a line gives an item. -/
def givesItem : Option String → Bool
  | none => true
  | some text => !decide (Text.AllBlank text.toList)

/-- The lines that give an item, with their numbers: the first line has the number that is given. -/
def numberedFrom (number : Nat) (lines : List (Option String)) : List (Option String × Nat) :=
  (lines.zipIdx number).filter fun numbered => givesItem numbered.1

/-- The lines of a content that give an item, numbered from one. -/
def numberedLines (content : ByteArray) : List (Option String × Nat) := numberedFrom 1 (Text.lines content)

theorem numberedFrom_cons (number : Nat) (line : Option String) (lines : List (Option String)) :
    numberedFrom number (line :: lines) =
      if givesItem line then (line, number) :: numberedFrom (number + 1) lines
      else numberedFrom (number + 1) lines := by
  rw [numberedFrom, List.zipIdx_cons, List.filter_cons]
  rfl

/-- What the item of a line is. -/
inductive ItemOf (reader : LineReader α) : Option String → Item α → Prop
  /-- A line that is no text cannot be read. -/
  | notText {number : Nat} : ItemOf reader none ⟨number, .error (.unreadable .notText)⟩
  /-- A text is a record. -/
  | record {text : String} {number : Nat} {a : α} (h : reader number text = .ok (some a)) :
      ItemOf reader (some text) ⟨number, .ok a⟩
  /-- Or it is malformed, and then says so under the number of the item. -/
  | malformed {text : String} {number : Nat} {reason : Reason}
      (h : reader number text = .error (.malformed number reason)) :
      ItemOf reader (some text) ⟨number, .error (.malformed number reason)⟩

/-- How an item is told from the line that it comes from. -/
structure ComesFrom (reader : LineReader α) (content : ByteArray) (numbered : Option String × Nat)
    (item : Item α) : Prop where
  item_of : ItemOf reader numbered.1 item
  /-- The number of the item falls behind by one for each line up to there that is no text. -/
  line_add : item.line + ((Text.lines content).take numbered.2).count none = numbered.2

/-- So it is right exactly if there is none. -/
theorem ComesFrom.line_eq_iff {numbered : Option String × Nat} {item : Item α}
    (h : ComesFrom reader content numbered item) :
    item.line = numbered.2 ↔ none ∉ (Text.lines content).take numbered.2 := by
  have hline := h.line_add
  rw [← List.count_eq_zero]
  omega

theorem givesItem_some_iff {text : String} : givesItem (some text) = true ↔ Text.fields text ≠ [] := by
  rw [ne_eq, Text.fields_eq_nil_iff, givesItem, Bool.not_eq_true', decide_eq_false_iff_not]

/-- A line is a text or it is none. -/
theorem countP_isSome_add_count_none (lines : List (Option String)) :
    lines.countP Option.isSome + lines.count none = lines.length := by
  rw [List.length_eq_countP_add_countP Option.isSome, List.count_eq_countP]
  refine congrArg _ (List.countP_congr fun line _ => ?_)
  cases line <;> simp

section Reader

variable (hblank : ∀ number text, reader number text = .ok none ↔ Text.fields text = [])
variable (hfails : ∀ number text, FailsOn number (reader number text))

include hblank hfails

/-- What is read of a text that is not blank. -/
theorem exists_itemOf {text : String}
    (hfields : Text.fields text ≠ []) (read : Nat) (lines : List (Option String)) :
    ∃ item, ItemOf reader (some text) item ∧ item.line = read + 1 ∧
      itemsFrom reader read (some text :: lines) = item :: itemsFrom reader (read + 1) lines := by
  cases hread : reader (read + 1) text with
  | error fault =>
      obtain ⟨reason, rfl⟩ := hfails _ _ _ hread
      exact ⟨_, .malformed hread, rfl, by rw [itemsFrom, hread]⟩
  | ok answer =>
      cases answer with
      | none => exact absurd ((hblank _ _).mp hread) hfields
      | some a => exact ⟨_, .record hread, rfl, by rw [itemsFrom, hread]⟩

/-- Lines give one item each, if they give any.  Above them stand lines of which the texts have been counted. -/
theorem forall₂_itemsFrom (above lines : List (Option String)) :
    List.Forall₂ (fun numbered item => ItemOf reader numbered.1 item ∧
        item.line = ((above ++ lines).take numbered.2).countP Option.isSome)
      (numberedFrom (above.length + 1) lines) (itemsFrom reader (above.countP Option.isSome) lines) := by
  induction lines generalizing above with
  | nil => exact .nil
  | cons line lines ih =>
      -- For the later lines the first one stands above as well, and is counted there if it is a text.
      have hlater := ih (above ++ [line])
      rw [List.append_assoc, List.singleton_append, List.length_append, List.length_singleton,
        List.countP_append] at hlater
      have htake : (above ++ line :: lines).take (above.length + 1) = above ++ [line] := by
        rw [List.take_append, List.take_of_length_le (Nat.le_succ _), Nat.add_sub_cancel_left]
        rfl
      rw [numberedFrom_cons]
      cases line with
      | none =>
          refine .cons ⟨.notText, ?_⟩ hlater
          rw [htake, List.countP_append]
          rfl
      | some text =>
          by_cases hfields : Text.fields text = []
          · rw [if_neg fun h => givesItem_some_iff.mp h hfields, itemsFrom, (hblank _ _).mpr hfields]
            exact hlater
          · obtain ⟨item, hitem, hline, hitems⟩ :=
              exists_itemOf hblank hfails hfields (above.countP Option.isSome) lines
            rw [if_pos (givesItem_some_iff.mpr hfields), hitems]
            refine .cons ⟨hitem, ?_⟩ hlater
            rw [hline, htake, List.countP_append]
            rfl

/-- **Each line that gives an item** gives it in its turn, with a number that counts the texts up to there. -/
theorem forall₂_items (content : ByteArray) :
    List.Forall₂ (ComesFrom reader content) (numberedLines content) (items reader content) := by
  have hitems := forall₂_itemsFrom hblank hfails [] (Text.lines content)
  refine List.forall₂_iff_zip.mpr ⟨hitems.length_eq, fun {numbered item} hmem => ?_⟩
  obtain ⟨hitem, hline⟩ := (List.forall₂_iff_zip.mp hitems).2 hmem
  refine ⟨hitem, ?_⟩
  have hnumber : numbered.2 ≤ (Text.lines content).length := by
    have hzip : numbered ∈ (Text.lines content).zipIdx 1 := List.mem_of_mem_filter (List.of_mem_zip hmem).1
    have hlt := List.snd_lt_add_of_mem_zipIdx hzip
    omega
  have hsplit := countP_isSome_add_count_none ((Text.lines content).take numbered.2)
  rw [List.length_take, Nat.min_eq_left hnumber] at hsplit
  rw [hline]
  exact hsplit

end Reader

/-- **Items come from lines, with numbers that count texts.**  When an edge listing or a group listing is read to
its end past faults, then the lines that are no text or not blank give one item each, in their order: a line that
is no text cannot be read, and any other is a record or malformed under the number of its item.  That number is
the number of the line less one for each line up to there that is no text, so it is that of the line exactly if
all lines up to there are texts. -/
theorem items_count_lines_that_are_text (content : ByteArray) :
    List.Forall₂ (fun numbered item => ComesFrom readEdge content numbered item ∧
        (item.line = numbered.2 ↔ none ∉ (Text.lines content).take numbered.2))
      (numberedLines content) (edges content) ∧
    List.Forall₂ (fun numbered item => ComesFrom readGroup content numbered item ∧
        (item.line = numbered.2 ↔ none ∉ (Text.lines content).take numbered.2))
      (numberedLines content) (groups content) := by
  have hedges := forall₂_items (fun _ _ => readEdge_eq_none) failsOn_readEdge content
  have hgroups := forall₂_items (fun _ _ => readGroup_eq_none) failsOn_readGroup content
  exact ⟨hedges.imp fun _ _ h => ⟨h, h.line_eq_iff⟩, hgroups.imp fun _ _ h => ⟨h, h.line_eq_iff⟩⟩

/-- The second line of this content is no text.  Its item has the number of the first line, and what is malformed
on the third is said to be on the second; and it is so in both formats. -/
theorem item_numbers_fall_behind :
    let content : ByteArray := "0 1\n".toUTF8 ++ ⟨#[0xFF, Text.lineFeed]⟩ ++ "1 x\n".toUTF8
    numberedLines content = [(some "0 1", 1), (none, 2), (some "1 x", 3)] ∧
      edges content = [⟨1, .ok ⟨0, 1, 1.0⟩⟩, ⟨1, .error (.unreadable .notText)⟩,
        ⟨2, .error (.malformed 2 (.nodeId "x"))⟩] ∧
      groups content = [⟨1, .error (.malformed 1 (.groupFields 1 0))⟩, ⟨1, .error (.unreadable .notText)⟩,
        ⟨2, .error (.malformed 2 (.edgeCount "x"))⟩] :=
  ⟨by decide +kernel, rfl, rfl⟩

end GraphPlacement.Listing
