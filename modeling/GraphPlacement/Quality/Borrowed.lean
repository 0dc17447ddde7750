import GraphPlacement.Assignment
import GraphPlacement.Placement

/-!
# Borrowed endpoints

**Borrowing.** An edge that is counted on a host needs its endpoints there.  An endpoint whose own host
is another one has to be borrowed, so an edge borrows none, one or two; an endpoint without a host
counts for nothing.

**Faults.** The host of a placed edge is checked before its endpoints are looked up, the source first.
-/

namespace GraphPlacement

namespace Assignment

/-- One if an endpoint with this host is borrowed by an edge on `host`, else zero. -/
def borrows (host : Nat) : Option Nat → Nat
  | some own => if own = host then 0 else 1
  | none => 0

/-- The endpoints that a placed edge borrows. -/
def borrowedBy (a : Assignment) (hosts : Nat) (p : Placed) : Except Fault Nat := do
  if hosts ≤ p.host then throw (.hostOutOfRange p.host hosts)
  let hostSrc ← a.lookup p.src
  let hostDst ← a.lookup p.dst
  return borrows p.host hostSrc + borrows p.host hostDst

/-- The endpoints that placed edges borrow in all. -/
def borrowed (a : Assignment) (hosts : Nat) (placed : List Placed) : Except Fault Nat :=
  placed.foldlM (fun total p => return total + (← a.borrowedBy hosts p)) 0

end Assignment

end GraphPlacement
