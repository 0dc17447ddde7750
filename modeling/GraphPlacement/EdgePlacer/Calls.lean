import GraphPlacement.EdgePlacer

/-!
# Calls one after the other

**Calls.** A placer takes any edges in any order, and a call that is refused does not end its use: the
next call goes on from the state that the refusal has left.  Each call has an answer, which is the
placement it made or the fault it met.

**Checking.** The check that a pool makes on itself after each edge may be left out of the calls.  That
changes no placement, and it is one thing less that can stop a run.

**Returning.** A call that meets a fault which stops a run from inside has no answer to give back.  The
calls that all come back are the ones that a user of the placer can look back on.
-/

namespace GraphPlacement

/-- What some calls have come to. -/
structure Calls where
  /-- The answer of each call, in order. -/
  answers : List (Except Fault Placement)
  /-- The placer after the last call. -/
  placer : EdgePlacer

namespace Calls

/-- The placements that were made, in order. -/
def placed (c : Calls) : List Placement := c.answers.filterMap Except.toOption

/-- Whether each call has come back, be it with a placement or with a refusal. -/
def AllReturn (c : Calls) : Prop := ∀ fault, .error fault ∈ c.answers → fault.stopsRun = false

/-- Whether each call has made a placement. -/
def AllMade (c : Calls) : Prop := ∀ fault, .error fault ∉ c.answers

theorem AllMade.allReturn {c : Calls} (h : c.AllMade) : c.AllReturn :=
  fun fault hfault => absurd hfault (h fault)

theorem allReturn_iff {c : Calls} :
    c.AllReturn ↔ c.answers.all (fun answer =>
      match answer with
      | .ok _ => true
      | .error fault => !fault.stopsRun) = true := by
  rw [List.all_eq_true]
  constructor
  · intro h answer hanswer
    cases answer with
    | ok _ => rfl
    | error fault => simp [h fault hanswer]
  · intro h fault hfault
    simpa using h _ hfault

instance (c : Calls) : Decidable c.AllReturn := decidable_of_iff _ allReturn_iff.symm

end Calls

namespace EdgePlacer

/-- Places an edge, and checks the pool if asked to. -/
def call (checked : Bool) (src dst : Nat) : Step EdgePlacer Placement :=
  if checked then place src dst else accept src dst

/-- Calls a placer with some edges, given by their endpoints. -/
def callAll (checked : Bool) (p : EdgePlacer) : List (Nat × Nat) → Calls
  | [] => ⟨[], p⟩
  | (src, dst) :: edges =>
    let result := call checked src dst p
    let later := callAll checked (Step.after result) edges
    ⟨Step.outcome result :: later.answers, later.placer⟩

end EdgePlacer

end GraphPlacement
