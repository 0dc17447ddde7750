import GraphPlacement.Proofs.Capacity
import GraphPlacement.Proofs.Edges.Stops
import GraphPlacement.Proofs.Jobs.Edges

/-!
# What a job on an edge listing leaves when it fails

**Where a job fails.** A job that does not come to its second pass leaves the store as it was.  One that
does has put a file for the placements, and the node map comes last: if it fails, then nothing else has
changed (`placeEdges_eq_error`).

**Faults of the input.** A second pass over a listing that has been counted meets no fault of the input in
any edge (`Stops.stopsRun`).  What is left is the pool, which is opened when the file for the placements
has been emptied and looks at two numbers that were not looked at before: a ceiling that is not finite,
and a rise that is not finite or not above zero (`placeEdges_fault_of_input`).
-/

namespace GraphPlacement

/-- Whether a fault lies in the configuration, or in a line of a listing. -/
def Fault.ofInput : Fault → Bool
  | .noHosts | .emptyGraph | .badParameter .. | .malformed .. | .unreadable .notText => true
  | _ => false

theorem Fault.ofInput_eq_false_of_stopsRun {fault : Fault} (h : fault.stopsRun = true) :
    fault.ofInput = false := by
  cases fault <;> first | rfl | cases h

namespace Job

variable {cfg : Config} {listing parts nodeMap : String} {desk after : Desk} {fault : Fault}

/-- A job on an edge listing fails before any file is created, in its second pass, or for want of a file
for the node map. -/
theorem placeEdges_eq_error (hapart : desk.store.Apart [listing, parts, nodeMap])
    (h : placeEdges cfg listing parts nodeMap desk = .error fault after) :
    after.store = desk.store ∨
    ∃ content counts capacity partsAt,
      Begins cfg listing parts desk.store content counts capacity partsAt ∧
      after.store = desk.store.put partsAt (placedText cfg content counts).toUTF8 ∧
      ((secondPass cfg content counts).result = .error fault ∨
        ∃ cause, after.store.destination nodeMap = .error cause ∧ fault = .unreadable cause) := by
  by_cases hbegins : ∃ content counts capacity partsAt,
      Begins cfg listing parts desk.store content counts capacity partsAt
  · obtain ⟨content, counts, capacity, partsAt, hbegins⟩ := hbegins
    refine Or.inr ⟨content, counts, capacity, partsAt, hbegins, ?_⟩
    obtain ⟨journal, hdone⟩ := placeEdges_of_begins hapart hbegins
    rw [h, eq_comm] at hdone
    rcases Step.bind_eq_error.mp hdone with hdo | ⟨outcome, _, hdo, hsaved⟩
    · obtain ⟨hresult, rfl⟩ := Step.ofExcept_eq_error.mp hdo
      exact ⟨rfl, Or.inl hresult⟩
    obtain ⟨-, rfl⟩ := Step.ofExcept_eq_ok.mp hdo
    rcases Step.bind_eq_error.mp hsaved with hdo | ⟨_, _, -, htold⟩
    · obtain ⟨hcause, rfl⟩ := saveNodeMap_eq_error.mp hdo
      exact ⟨rfl, Or.inr hcause⟩
    · rcases Step.bind_eq_error.mp htold with hdo | ⟨_, _, -, hdo⟩ <;> cases hdo
  · obtain ⟨_, journal, hfault⟩ := placeEdges_of_not_begins hbegins
    cases h.symm.trans hfault
    exact Or.inl rfl

/-- **A job on an edge listing that fails over its input** leaves the store as it was, but for one case:
the capacity has been found, and then the ceiling is not finite, or the rise is not finite or not above
zero.  In that case the file for the placements has been emptied, and nothing else has changed. -/
theorem placeEdges_fault_of_input (hapart : desk.store.Apart [listing, parts, nodeMap])
    (h : placeEdges cfg listing parts nodeMap desk = .error fault after) (hinput : fault.ofInput = true) :
    after.store = desk.store ∨
    ∃ content counts capacity rise partsAt,
      Begins cfg listing parts desk.store content counts capacity partsAt ∧
      cfg.rise counts.nodes = .ok rise ∧
      ((fault = .badParameter .ceiling capacity ∧ ¬Pool.CeilingInRange capacity) ∨
        (fault = .badParameter .rise rise ∧ ¬Pool.RiseInRange rise)) ∧
      after.store = desk.store.put partsAt .empty := by
  rcases placeEdges_eq_error hapart h with hkept | ⟨content, counts, capacity, partsAt, hbegins, hafter,
    hfault⟩
  · exact Or.inl hkept
  obtain ⟨es, hes, -, rfl⟩ := Listing.countEdges_eq_ok hbegins.count
  rw [placedText, secondPass, hes] at hafter
  rw [secondPass, hes] at hfault
  rcases hfault with hresult | ⟨cause, hcause, rfl⟩
  · rcases EdgePlacer.placeStream_eq_error takes_keepAll hresult with ⟨hpool, hreceived⟩ |
      ⟨start, placed, -, hstops, -⟩
    · obtain ⟨rise, hrise, hrange⟩ := Pool.ofConfig_eq_error hbegins.capacity hpool
      rw [hreceived] at hafter
      exact Or.inr ⟨content, _, capacity, rise, partsAt, hbegins, hrise, hrange, hafter⟩
    · -- the edges fit in the graph that they were counted for, so no fault of the input can stop them
      have hstopped := hstops.stopsRun (EdgePlacer.hostsExist_ofPool _ start) fun e he => by
        rw [EdgePlacer.size_ofPool]
        exact Listing.lt_nodesOf he
      rw [Fault.ofInput_eq_false_of_stopsRun hstopped] at hinput
      cases hinput
  · obtain rfl : cause = .notText := by
      cases cause <;> first | rfl | cases hinput
    exact absurd hcause Store.destination_ne_notText

/-- A listing with a record that cannot be read, and placements from before. -/
theorem placeEdges_fault_of_input_on_bad_record :
    let desk : Desk := ⟨.ofFiles [("edges", "0 1\n1 two\n".toUTF8), ("parts", "kept\n".toUTF8)], #[]⟩
    ∃ after, placeEdges {} "edges" "parts" "map" desk = .error (.malformed 2 (.nodeId "two")) after ∧
      after.store = desk.store := by
  intro desk
  have hfault : (match placeEdges {} "edges" "parts" "map" desk with
      | .ok _ _ => none
      | .error fault _ => some fault) = some (.malformed 2 (.nodeId "two")) := by
    decide +kernel
  cases hrun : placeEdges {} "edges" "parts" "map" desk with
  | ok report after =>
      rw [hrun] at hfault
      cases hfault
  | error fault after =>
      rw [hrun] at hfault
      cases hfault
      refine ⟨after, rfl, ?_⟩
      rcases placeEdges_fault_of_input (by decide +kernel) hrun rfl with hkept |
        ⟨_, _, _, _, _, -, -, ⟨hceiling, -⟩ | ⟨hrise, -⟩, -⟩
      · exact hkept
      · cases hceiling
      · cases hrise

/-- With a slack near the largest float the capacity of two hosts is past it, and the placements from
before are lost. -/
theorem placeEdges_empties_parts_of_endless_ceiling :
    let desk : Desk := ⟨.ofFiles [("edges", "0 1\n2 3\n".toUTF8), ("parts", "kept\n".toUTF8)], #[]⟩
    let done := placeEdges { slack := 1.7976931348623157e308 } "edges" "parts" "map" desk
    desk.store.Apart ["edges", "parts", "map"] ∧
      (∃ fault, fault.ofInput = true ∧ (Step.outcome done).map (fun _ => ()) = .error fault) ∧
      desk.store.read "parts" = .ok "kept\n".toUTF8 ∧ (Step.after done).store.read "parts" = .ok .empty := by
  refine ⟨by decide +kernel, ⟨.badParameter .ceiling (1.0 / 0.0), rfl, ?_⟩, ?_, ?_⟩
  · decide +kernel
  · decide +kernel
  · decide +kernel

end Job

end GraphPlacement
