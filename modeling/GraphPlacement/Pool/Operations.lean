import GraphPlacement.Pool

/-!
# Operations one after the other

**Operations.** A pool can be used on its own: nodes and edges are counted on its hosts, the ceiling is
raised if no host has room, and a host with room is asked for.  An operation that fails does not end the
use of the pool: the next one goes on from the state that the failure has left.

**Overflow.** A counter that is at its last word may stop the operation or wrap, and a history of operations can
be followed either way.

**Answers.** Only the pool is followed here: an operation is answered by success or by the fault that it has met,
and what it gives besides is dropped.
-/

namespace GraphPlacement.Pool

/-- What can be asked of a pool. -/
inductive Operation where
  | addNodes (host count : Nat)
  | addEdge (host : Nat)
  | raiseIfFull
  | makeRoom
deriving DecidableEq, Repr

namespace Operation

/-- What is done to the pool. -/
def step (overflow : Overflow) : Operation → Step Pool Unit
  | .addNodes host count => update host (Load.addNodes overflow count)
  | .addEdge host => update host (Load.addEdge overflow)
  | .raiseIfFull => discard Pool.raiseIfFull
  | .makeRoom => discard Pool.makeRoom

/-- The pool after an operation, whether it has succeeded or failed. -/
def after (overflow : Overflow) (p : Pool) (op : Operation) : Pool := Step.after (op.step overflow p)

end Operation

/-- The pool after some operations. -/
def afterAll (overflow : Overflow) (p : Pool) (operations : List Operation) : Pool :=
  operations.foldl (Operation.after overflow) p

/-- The answers to some operations, in order. -/
def answers (overflow : Overflow) (p : Pool) : List Operation → List (Except Fault Unit)
  | [] => []
  | op :: operations => Step.outcome (op.step overflow p) :: (op.after overflow p).answers overflow operations

end GraphPlacement.Pool
