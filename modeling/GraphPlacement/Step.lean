import GraphPlacement.Fault

/-!
# Steps on a state

**Steps.** A `Step σ α` changes a state and gives either a result or a fault.  The state after a fault
is the state at the point where it arose, so "a step that fails changes nothing" is a statement about
each step and not a matter of the type.

**Parts.** `Step.onPart` runs a step of a part inside the whole, and `Step.ofExcept` embeds a computation
that needs no state.
-/

namespace GraphPlacement

/-- A computation on a state that gives a result or a fault, and in both cases a new state. -/
abbrev Step (σ : Type) : Type → Type := EStateM Fault σ

namespace Step

variable {σ τ α : Type}

/-- A result or a fault that does not depend on the state. -/
def ofExcept : Except Fault α → Step σ α
  | .ok a => pure a
  | .error fault => throw fault

/-- The result of an optional computation, with the fault that its absence stands for. -/
def ofOption (fault : Fault) : Option α → Step σ α
  | some a => pure a
  | none => throw fault

/-- A step of a part, made within the whole: `split` takes the part out and says how any part is put
back in its place. -/
def onPart (split : σ → τ × (τ → σ)) (step : Step τ α) : Step σ α := fun s =>
  let (t, back) := split s
  match step t with
  | .ok a t => .ok a (back t)
  | .error fault t => .error fault (back t)

def outcome : EStateM.Result Fault σ α → Except Fault α
  | .ok a _ => .ok a
  | .error fault _ => .error fault

/-- The state after a step, whatever its outcome. -/
def after : EStateM.Result Fault σ α → σ
  | .ok _ s => s
  | .error _ s => s

@[simp] theorem ofExcept_ok (a : α) : (ofExcept (.ok a) : Step σ α) = pure a := rfl
@[simp] theorem ofExcept_error (fault : Fault) :
    (ofExcept (.error fault) : Step σ α) = throw fault := rfl
@[simp] theorem ofOption_some (fault : Fault) (a : α) :
    (ofOption fault (some a) : Step σ α) = pure a := rfl
@[simp] theorem ofOption_none (fault : Fault) :
    (ofOption fault none : Step σ α) = throw fault := rfl
@[simp] theorem outcome_ok (a : α) (s : σ) : outcome (.ok a s) = .ok a := rfl
@[simp] theorem outcome_error (fault : Fault) (s : σ) :
    outcome (.error fault s : EStateM.Result Fault σ α) = .error fault := rfl
@[simp] theorem after_ok (a : α) (s : σ) : after (.ok a s) = s := rfl
@[simp] theorem after_error (fault : Fault) (s : σ) :
    after (.error fault s : EStateM.Result Fault σ α) = s := rfl

end Step

end GraphPlacement
