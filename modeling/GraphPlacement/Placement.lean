/-!
# Placements of edges

**Rules.** An edge that arrives is placed by what is known of its endpoints; the rule that applied is
kept with the placement.  The host of a placement is where the edge is counted.
-/

namespace GraphPlacement

/-- Why an edge is placed where it is. -/
inductive Rule where
  /-- Neither endpoint had a host: both go to the lightest host. -/
  | freshPair
  /-- One endpoint had a host with room: the other joins it. -/
  | joinKnown
  /-- One endpoint had a host without room: the other goes to the lightest host. -/
  | overflow
  /-- Both endpoints were on the same host. -/
  | sameHost
  /-- The endpoints were on two hosts: the edge is counted on one of them. -/
  | crossHost
deriving DecidableEq, Repr

def Rule.name : Rule → String
  | .freshPair => "FreshPair"
  | .joinKnown => "JoinKnown"
  | .overflow => "Overflow"
  | .sameHost => "Local"
  | .crossHost => "CrossHost"

/-- An edge with the host it is counted on. -/
structure Placement where
  src : Nat
  dst : Nat
  host : Nat
  rule : Rule
deriving DecidableEq, Repr

/-- A placement as it is written to a file: without its rule. -/
structure Placed where
  src : Nat
  dst : Nat
  host : Nat
deriving DecidableEq, Repr

/-- What is written of a placement. -/
def Placement.placed (p : Placement) : Placed := ⟨p.src, p.dst, p.host⟩

def Placed.ends (p : Placed) : Nat × Nat := (p.src, p.dst)

end GraphPlacement
