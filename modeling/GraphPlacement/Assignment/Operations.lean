import GraphPlacement.Assignment

/-!
# Nodes given hosts one after the other

**Operations.** An assignment is built up by giving hosts to nodes, with slots added for a node past the end
or without.  An operation that fails does not end the building: the next one goes on from the state that the
failure has left.

**Answers.** Each operation is answered, by success or by the fault that it has met.
-/

namespace GraphPlacement.Assignment

/-- What can be done to an assignment. -/
inductive Operation where
  | assign (node host : Nat)
  | assignGrowing (node host : Nat)
deriving DecidableEq, Repr

namespace Operation

/-- The node that is given a host. -/
def node : Operation → Nat
  | .assign node _ | .assignGrowing node _ => node

/-- The host that it is given. -/
def host : Operation → Nat
  | .assign _ host | .assignGrowing _ host => host

/-- What is done to the assignment. -/
def step : Operation → Step Assignment Unit
  | .assign node host => Assignment.assign node host
  | .assignGrowing node host => Assignment.assignGrowing node host

end Operation

/-- The assignment after an operation, whether it has succeeded or failed. -/
def Operation.after (a : Assignment) (op : Operation) : Assignment := Step.after (op.step a)

/-- The assignment after some operations. -/
def afterAll (a : Assignment) (operations : List Operation) : Assignment := operations.foldl Operation.after a

/-- The answers to some operations, in order. -/
def answers (a : Assignment) : List Operation → List (Except Fault Unit)
  | [] => []
  | op :: operations => Step.outcome (op.step a) :: (op.after a).answers operations

/-- Whether an operation with this answer has found a slot for its node. -/
def foundSlot : Except Fault Unit → Bool
  | .error (.nodeOutOfRange ..) | .error .overflow => false
  | _ => true

end GraphPlacement.Assignment
