import GraphPlacement.Edge
import GraphPlacement.Random.Source
import GraphPlacement.Strategy

/-!
# Scores of hosts

**Free share.** A host that holds none of its capacity scores one, a full host zero, and one that holds
more scores below zero.

**Overlap.** The neighbours of the arriving node that the host already holds.  The affinity of a host
is its overlap weighed by its free share, so a host without a neighbour scores zero.

Only the strategy that goes by chance draws from the source.
-/

namespace GraphPlacement

/-- The share of a capacity that is left when `held` nodes are taken off it. -/
def freeShare (held : Nat) (capacity : Float) : Float := 1.0 - held.toFloat / capacity

/-- How many of the neighbours are among the nodes that are held.  The smaller of the two sets is the one
that is gone through. -/
def overlap (held neighbours : NodeSet) : Nat :=
  if held.size ≤ neighbours.size then held.toList.countP neighbours.contains
  else neighbours.toList.countP held.contains

namespace Strategy

variable {σ : Type} [Random.Source σ]

/-- The score of a host that holds `held`, and the source after it. -/
def score (strategy : Strategy) (held neighbours : NodeSet) (capacity : Float) (s : σ) : Float × σ :=
  match strategy with
  | .affinity => ((overlap held neighbours).toFloat * freeShare held.size capacity, s)
  | .balance => (freeShare held.size capacity, s)
  | .random => Random.unit s

end Strategy

@[simp] theorem overlap_empty (neighbours : NodeSet) : overlap ∅ neighbours = 0 := by
  simp [overlap, List.countP_eq_zero]

end GraphPlacement
