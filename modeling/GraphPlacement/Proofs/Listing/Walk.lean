import GraphPlacement.Proofs.Listing.Edges
import GraphPlacement.Proofs.Listing.Groups
import Mathlib.Data.List.Basic

/-!
# A walk over a listing

**Walk.** A listing is gone through line by line, and on a line edge by edge.  What is met on the way is an
edge or the fault of a line that has no record to read (`walk`).  Lines are numbered as they stand in the
listing, and a line that is refused is refused under its own number: `fault_of_met`.

**First problem.** Faults of lines and edges with an endpoint that is no node are problems of one walk, though
they are found by the reader and by the count.  Counting stops at the first problem there is, of either kind,
and without one it comes to what the edges are among themselves: `tally_eq`.
-/

namespace GraphPlacement.Listing

variable {α : Type} {reader : LineReader α} {ends : α → List (Nat × Nat)} {content : ByteArray}
variable {a : Assignment}

/-! ## Walks -/

/-- What is met on a line, given its number: the edges of its record, or its fault. -/
def metOn (reader : LineReader α) (ends : α → List (Nat × Nat)) (number : Nat) :
    Option String → List (Except Fault (Nat × Nat))
  | none => [.error (.unreadable .notText)]
  | some text =>
    match reader number text with
    | .ok none => []
    | .ok (some record) => (ends record).map .ok
    | .error fault => [.error fault]

theorem metOn_blank {number : Nat} {text : String} (h : reader number text = .ok none) :
    metOn reader ends number (some text) = [] := by simp [metOn, h]

theorem metOn_record {number : Nat} {text : String} {x : α} (h : reader number text = .ok (some x)) :
    metOn reader ends number (some text) = (ends x).map .ok := by simp [metOn, h]

theorem metOn_fault {number : Nat} {text : String} {fault : Fault} (h : reader number text = .error fault) :
    metOn reader ends number (some text) = [.error fault] := by simp [metOn, h]

/-- What is met on a line of a listing in either format. -/
def Format.met : Format → Nat → Option String → List (Except Fault (Nat × Nat))
  | .groups => metOn readGroup GroupLine.ends
  | .edges => metOn readEdge fun e => [e.ends]

/-- What is met in a listing, one after the other. -/
def walk (content : ByteArray) (format : Format) : List (Except Fault (Nat × Nat)) :=
  ((Text.lines content).mapIdx fun k line => format.met (k + 1) line).flatten

theorem fault_of_metOn {number : Nat} {line : Option String} {fault : Fault}
    (hfails : ∀ text, FailsOn number (reader number text)) (h : .error fault ∈ metOn reader ends number line) :
    line = none ∧ fault = .unreadable .notText ∨
      ∃ text reason, line = some text ∧ fault = .malformed number reason := by
  cases line with
  | none => exact Or.inl ⟨rfl, by simpa [metOn] using h⟩
  | some text =>
      cases hread : reader number text with
      | ok record =>
          cases record with
          | none => simp [metOn_blank hread] at h
          | some x => simp [metOn_record hread] at h
      | error cause =>
          obtain rfl : fault = cause := by simpa [metOn_fault hread] using h
          obtain ⟨reason, rfl⟩ := hfails text fault hread
          exact Or.inr ⟨text, reason, rfl, rfl⟩

/-- A line that is refused is no text, or malformed under its own number. -/
theorem fault_of_met {format : Format} {number : Nat} {line : Option String} {fault : Fault}
    (h : .error fault ∈ format.met number line) :
    line = none ∧ fault = .unreadable .notText ∨
      ∃ text reason, line = some text ∧ fault = .malformed number reason := by
  cases format with
  | groups => exact fault_of_metOn (failsOn_readGroup number) h
  | edges => exact fault_of_metOn (failsOn_readEdge number) h

/-! ## Problems -/

/-- What is wrong with what is met in the listing of a graph with so many nodes. -/
def problem? (nodes : Nat) : Except Fault (Nat × Nat) → Option Fault
  | .error fault => some fault
  | .ok e => (Assignment.pastEnd? nodes e).map (.nodeOutOfRange · nodes)

/-- Counts what is met. -/
def tallyMet (a : Assignment) (t : Tally) (met : Except Fault (Nat × Nat)) : Except Fault Tally :=
  met >>= a.tallyEdge t

/-- Counting what is met stops at the first problem. -/
theorem foldlM_tallyMet (a : Assignment) (t : Tally) (met : List (Except Fault (Nat × Nat))) :
    met.foldlM (tallyMet a) t =
      match met.findSome? (problem? a.size) with
      | some fault => .error fault
      | none => .ok (t.merge (a.cutsAmong (met.filterMap Except.toOption))) := by
  induction met generalizing t with
  | nil => rfl
  | cons x met ih =>
      rw [List.foldlM_cons, List.findSome?_cons]
      cases x with
      | error fault => rfl
      | ok e =>
          have hstep : tallyMet a t (.ok e) = a.tallyEdge t e := rfl
          rw [hstep, Assignment.tallyEdge_apply, problem?]
          cases hpast : Assignment.pastEnd? a.size e with
          | some v => rfl
          | none =>
              show met.foldlM (tallyMet a) (t.merge (a.cutsAmong [e])) = _
              rw [ih, Tally.merge_assoc, ← a.cutsAmong_cons e]
              rfl

/-- Counting over the items of some lines is counting what is met on them: the numbers of lines agree up to
the first fault. -/
theorem foldlM_itemsFrom (reader : LineReader α) (ends : α → List (Nat × Nat)) (a : Assignment)
    (lines : List (Option String)) (read : Nat) (t : Tally) :
    (itemsFrom reader read lines).foldlM (tallyItem a ends) t =
      (lines.mapIdx fun k line => metOn reader ends (read + k + 1) line).flatten.foldlM (tallyMet a) t := by
  induction lines generalizing read t with
  | nil => rfl
  | cons line lines ih =>
      rw [List.mapIdx_cons, List.flatten_cons, List.foldlM_append]
      cases line with
      | none => rfl
      | some text =>
          have hlater := ih (read + 1)
          simp only [Nat.add_right_comm read 1] at hlater
          cases hread : reader (read + 1) text with
          | error fault =>
              rw [itemsFrom, hread, metOn_fault hread]
              rfl
          | ok record =>
              cases record with
              | none =>
                  rw [itemsFrom, hread, metOn_blank hread]
                  exact hlater t
              | some x =>
                  rw [itemsFrom, hread, metOn_record hread, List.foldlM_map]
                  exact bind_congr fun u => hlater u

theorem tallyItems_items (reader : LineReader α) (ends : α → List (Nat × Nat)) (a : Assignment)
    (content : ByteArray) :
    tallyItems a ends (items reader content) =
      ((Text.lines content).mapIdx fun k line => metOn reader ends (k + 1) line).flatten.foldlM
        (tallyMet a) {} := by
  rw [tallyItems, items, foldlM_itemsFrom]
  simp only [Nat.zero_add]

/-- **Counting over a listing** comes to the first problem of the walk, or to the cut edges among all. -/
theorem tally_eq (a : Assignment) (content : ByteArray) (format : Format) :
    tally a content format =
      match (walk content format).findSome? (problem? a.size) with
      | some fault => .error fault
      | none => .ok (a.cutsAmong ((walk content format).filterMap Except.toOption)) := by
  have hfold : tally a content format = (walk content format).foldlM (tallyMet a) {} := by
    cases format with
    | groups => exact tallyItems_items readGroup GroupLine.ends a content
    | edges => exact tallyItems_items readEdge (fun e => [e.ends]) a content
  rw [hfold, foldlM_tallyMet, Tally.empty_merge]

/-! ## Both formats -/

theorem ends_of_mem_allGroups {lines : List GroupLine} {g : GroupLine} (h : allGroups content = .ok lines)
    (hg : g ∈ lines) : g.ends = g.edges.map fun e => (g.node, e.dst) := by
  obtain ⟨-, line, hread⟩ := readGroup_of_mem_allGroups h hg
  refine List.map_congr_left fun e he => ?_
  rw [Edge.ends, src_of_readGroup hread e he]

/-- Groups count as an edge listing of their nodes and targets does. -/
theorem tally_groups {lines : List GroupLine} {es : List Edge} {other : ByteArray}
    (hlines : allGroups content = .ok lines) (hes : records (edges other) = .ok es)
    (hsame : es.map Edge.ends = lines.flatMap fun g => g.edges.map fun e => (g.node, e.dst)) :
    tally a content .groups = tally a other .edges := by
  have hends : lines.flatMap GroupLine.ends = es.map Edge.ends := by
    rw [hsame]
    exact List.flatMap_congr fun g hg => ends_of_mem_allGroups hlines hg
  rw [tally_edges (records_eq_ok_iff.mp hes), ← hends, tally,
    tallyItems_eq (records_eq_ok_iff.mp hlines)]

end GraphPlacement.Listing
