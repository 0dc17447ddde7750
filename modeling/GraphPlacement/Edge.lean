import Std.Data.ExtTreeSet.Lemmas

/-!
# Edges and neighbour groups

**Edges** are directed as listed and carry a weight that no placement looks at.  **Groups** are a node
with the set of its neighbours; listing a neighbour twice, or in another order, gives the same group.
-/

namespace GraphPlacement

/-- A finite set of nodes; two sets with the same members are equal. -/
abbrev NodeSet := Std.ExtTreeSet Nat

theorem NodeSet.nodup_toList (nodes : NodeSet) : nodes.toList.Nodup := by
  refine nodes.distinct_toList.imp ?_
  rintro v _ hne rfl
  exact hne Std.ReflCmp.compare_self

/-- An edge as a listing gives it. -/
structure Edge where
  src : Nat
  dst : Nat
  weight : Float := 1.0
deriving DecidableEq

def Edge.isSelfLoop (e : Edge) : Bool := e.src == e.dst

def Edge.ends (e : Edge) : Nat × Nat := (e.src, e.dst)

/-- A node together with its neighbours. -/
structure Group where
  node : Nat
  neighbours : NodeSet

/-- The group of a node and the neighbours in a list. -/
def Group.ofList (node : Nat) (neighbours : List Nat) : Group :=
  ⟨node, Std.ExtTreeSet.ofList neighbours⟩

@[simp] theorem Group.mem_ofList {node v : Nat} {neighbours : List Nat} :
    v ∈ (Group.ofList node neighbours).neighbours ↔ v ∈ neighbours := by
  simp [Group.ofList, Std.ExtTreeSet.mem_ofList]

end GraphPlacement
