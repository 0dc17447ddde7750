import GraphPlacement.Step
import GraphPlacement.Word

/-!
# Which node is on which host

**Slots.** An assignment has a slot for every node below its size.  A slot is empty until its node is
given a host; from then on it keeps that host.  Giving a node the host it already has changes nothing,
and giving it another one is a fault.

**Count.** The number of filled slots is kept beside them, so that it need not be counted.

**Growing.** Slots can be added up to a node past the end.  The number of slots is a word, so there is none
for the last word itself: growing up to that node stops the run.
-/

namespace GraphPlacement

/-- The hosts of the nodes of a graph. -/
structure Assignment where
  /-- The host of each node, if it has one. -/
  slots : Array (Option Nat) := #[]
  /-- How many nodes have a host. -/
  assigned : Nat := 0
deriving DecidableEq, Repr

namespace Assignment

/-- An assignment of `nodes` nodes, none of them on a host. -/
def ofSize (nodes : Nat) : Assignment := ⟨Array.replicate nodes none, 0⟩

def size (a : Assignment) : Nat := a.slots.size

/-- The host of a node; none too for a node without a slot. -/
def host? (a : Assignment) (node : Nat) : Option Nat := a.slots[node]?.join

/-- The host of a node that has a slot. -/
def lookup (a : Assignment) (node : Nat) : Except Fault (Option Nat) :=
  if node < a.size then .ok (a.host? node) else .error (.nodeOutOfRange node a.size)

def assign (node host : Nat) : Step Assignment Unit := fun a =>
  match a.slots[node]? with
  | none => .error (.nodeOutOfRange node a.size) a
  | some none => .ok () ⟨a.slots.setIfInBounds node (some host), a.assigned + 1⟩
  | some (some current) =>
    if current = host then .ok () a else .error (.reassigned node current host) a

/-- The assignment with empty slots added until it has `nodes` of them. -/
def growTo (nodes : Nat) (a : Assignment) : Assignment :=
  { a with slots := a.slots ++ Array.replicate (nodes - a.size) none }

/-- Gives a node a host, adding slots up to the node's own if it has none. -/
def assignGrowing (node host : Nat) : Step Assignment Unit := do
  if (← get).size ≤ node then
    let slots ← Step.ofExcept (Overflow.stops.word (node + 1))
    modify (growTo slots)
  assign node host

/-- The nodes that have a host, in ascending order, with their hosts. -/
def pairs (a : Assignment) : List (Nat × Nat) :=
  a.slots.toList.zipIdx.filterMap fun (slot, node) => slot.map fun host => (node, host)

/-- How many nodes each of the hosts below `hosts` has. -/
def sizes (a : Assignment) (hosts : Nat) : List Nat :=
  let counts := a.pairs.foldl (fun counts p => counts.modify p.2 (· + 1)) (Array.replicate hosts 0)
  counts.toList

/-- Refuses a host that is not below `hosts`, the one of the lowest node first. -/
def checkHosts (a : Assignment) (hosts : Nat) : Except Fault Unit :=
  match a.pairs.find? fun p => hosts ≤ p.2 with
  | some (_, host) => .error (.hostOutOfRange host hosts)
  | none => .ok ()

@[simp] theorem size_ofSize (n : Nat) : (ofSize n).size = n := by simp [ofSize, size]

@[simp] theorem host?_ofSize (n v : Nat) : (ofSize n).host? v = none := by
  simp only [host?, ofSize, Array.getElem?_replicate]
  split <;> rfl

@[simp] theorem size_growTo (n : Nat) (a : Assignment) : (a.growTo n).size = max a.size n := by
  simp [growTo, size]
  omega

theorem host?_eq_none_of_size_le {a : Assignment} {v : Nat} (h : a.size ≤ v) : a.host? v = none := by
  simp only [host?, size] at *
  rw [Array.getElem?_eq_none h]
  rfl

@[simp] theorem host?_growTo (n v : Nat) (a : Assignment) : (a.growTo n).host? v = a.host? v := by
  by_cases h : v < a.slots.size
  · simp [host?, growTo, Array.getElem?_append_left h]
  · rw [host?_eq_none_of_size_le (show a.size ≤ v from Nat.le_of_not_lt h)]
    simp only [host?, growTo, Array.getElem?_append_right (Nat.le_of_not_lt h),
      Array.getElem?_replicate]
    split <;> rfl

end Assignment

end GraphPlacement
