import GraphPlacement.EdgePlacer
import GraphPlacement.Edge

/-!
# Placing a stream of edges

**Stream.** A stream is a list of items, each an edge or the fault met in its place.  Its edges are
placed in order and every placement is handed to a receiver as soon as it is made.  The receiver has a
state of its own and may refuse a placement.

**First problem.** The run stops at the first item that is a fault, cannot be placed, or has its
placement refused.  What the receiver has taken up to then stays with it.
-/

namespace GraphPlacement

/-- Takes placements one after the other into a state of type `ρ`, or refuses one. -/
abbrev Receiver (ρ : Type) := Placement → Step ρ Unit

/-- The receiver that keeps every placement. -/
def keepAll : Receiver (Array Placement) := fun placement => modify (·.push placement)

/-- A run over a stream of edges. -/
structure StreamRun (ρ : Type) where
  /-- The placement in progress. -/
  placer : EdgePlacer
  /-- The state of the receiver. -/
  received : ρ
  /-- What has been told. -/
  journal : Journal := #[]

namespace StreamRun

variable {ρ : Type}

def tell (events : List Event) : Step (StreamRun ρ) Unit :=
  modify fun r => { r with journal := r.journal ++ events }

def placeEdge (e : Edge) : Step (StreamRun ρ) Placement := do
  tell ((← get).placer.placeEvents e.src e.dst)
  Step.onPart (fun ⟨placer, received, journal⟩ => (placer, (⟨·, received, journal⟩)))
    (EdgePlacer.place e.src e.dst)

def handOver (receiver : Receiver ρ) (placement : Placement) : Step (StreamRun ρ) Unit :=
  Step.onPart (fun ⟨placer, received, journal⟩ => (received, (⟨placer, ·, journal⟩)))
    (receiver placement)

/-- Goes through one item of the stream. -/
def item (receiver : Receiver ρ) (entry : Except Fault Edge) : Step (StreamRun ρ) Unit := do
  let edge ← Step.ofExcept entry
  handOver receiver (← placeEdge edge)

/-- Finishes the placement and tells what each host holds. -/
def close : Step (StreamRun ρ) EdgeOutcome := do
  let outcome ← Step.ofExcept (← get).placer.finish
  tell outcome.events
  return outcome

/-- Goes through all items of the stream and finishes. -/
def all (receiver : Receiver ρ) (stream : List (Except Fault Edge)) :
    Step (StreamRun ρ) EdgeOutcome := do
  stream.forM (item receiver)
  close

end StreamRun

/-- What a placement of a stream comes to: its result, the receiver's state, what was told. -/
structure StreamReport (ρ : Type) where
  result : Except Fault EdgeOutcome
  received : ρ
  journal : Journal := #[]

/-- Places a stream of edges on empty hosts, with a receiver that starts from `initial`. -/
def EdgePlacer.placeStream {ρ : Type} (cfg : Config) (nodes : Nat)
    (stream : List (Except Fault Edge)) (receiver : Receiver ρ) (initial : ρ) : StreamReport ρ :=
  match ofConfig cfg nodes with
  | .error fault => { result := .error fault, received := initial }
  | .ok placer =>
    let run : StreamRun ρ :=
      { placer, received := initial, journal := #[placer.startEvent nodes] }
    let done := StreamRun.all receiver stream run
    { result := Step.outcome done
      received := (Step.after done).received
      journal := (Step.after done).journal }

end GraphPlacement
