import GraphPlacement.Assignment
import GraphPlacement.Journal

/-!
# Placing edges as they arrive

**Rules.** Each edge is placed by the first rule that applies to what is known of its endpoints.
If neither has a host, both go to the lightest host with room.  If one has, the other joins it there as
long as there is room, and otherwise goes to the lightest host with room.  If both have, nothing moves:
the edge is counted on their common host, or for two hosts on the one with fewer edges, the first of
them when they have equally many.

**Ceiling.** A host with room is found by raising the ceiling if need be, and after each edge the
ceiling rises again if no host has room for a further node.

**Check.** After each edge the pool checks its own ceiling, and at the end the placement checks that
the pool and the assignment count the same nodes and edges.
-/

namespace GraphPlacement

/-- A placement of edges in progress. -/
structure EdgePlacer where
  /-- The host of each node. -/
  assignment : Assignment
  /-- The hosts and their common ceiling. -/
  pool : Pool
  /-- How many edges have been placed. -/
  edges : Nat

/-- What a finished placement of edges gives. -/
structure EdgeOutcome where
  assignment : Assignment
  loads : List Load
  ceiling : Float
  raises : Nat
  edges : Nat

namespace EdgePlacer

/-! ## Starting -/

/-- A placement that has not begun, onto the hosts of a pool. -/
def ofPool (nodes : Nat) (pool : Pool) : EdgePlacer := ⟨.ofSize nodes, pool, 0⟩

/-- A placement that has not begun, onto empty hosts. -/
def ofConfig (cfg : Config) (nodes : Nat) : Except Fault EdgePlacer := do
  return ofPool nodes (← Pool.ofConfig cfg nodes)

/-! ## Steps of the parts -/

def onAssignment {α : Type} (step : Step Assignment α) : Step EdgePlacer α :=
  Step.onPart (fun ⟨assignment, pool, edges⟩ => (assignment, (⟨·, pool, edges⟩))) step

def onPool {α : Type} (step : Step Pool α) : Step EdgePlacer α :=
  Step.onPart (fun ⟨assignment, pool, edges⟩ => (pool, (⟨assignment, ·, edges⟩))) step

/-! ## The rules -/

/-- Neither endpoint has a host. -/
def placeFresh (src dst : Nat) : Step EdgePlacer (Nat × Rule) := do
  let host ← onPool Pool.makeRoom
  onAssignment (Assignment.assign src host)
  if src = dst then
    onPool (Pool.addNodes host 1)
  else
    onAssignment (Assignment.assign dst host)
    onPool (Pool.addNodes host 2)
  return (host, .freshPair)

/-- Only one endpoint has a host, `known`; `target` is the other. -/
def placeBeside (known target : Nat) : Step EdgePlacer (Nat × Rule) := do
  let (host, rule) ← match (← get).pool.accepts? known with
    | none => throw (.noSuchHost known)
    | some true => pure (known, Rule.joinKnown)
    | some false => do pure (← onPool Pool.makeRoom, Rule.overflow)
  onAssignment (Assignment.assign target host)
  onPool (Pool.addNodes host 1)
  return (host, rule)

/-- The host that counts an edge between two hosts. -/
def lighterEdges (a b : Nat) (loadA loadB : Load) : Nat :=
  if loadA.edges < loadB.edges then a
  else if loadB.edges < loadA.edges then b
  else min a b

/-- Both endpoints have a host. -/
def placeBetween (a b : Nat) : Step EdgePlacer (Nat × Rule) :=
  if a = b then return (a, .sameHost)
  else do
    let pool := (← get).pool
    let loadA ← Step.ofExcept (pool.loadOf a)
    let loadB ← Step.ofExcept (pool.loadOf b)
    return (lighterEdges a b loadA loadB, .crossHost)

/-- Gives the endpoints of an edge their hosts, by the rule that applies. -/
def settle (src dst : Nat) : Step EdgePlacer (Nat × Rule) := do
  let a := (← get).assignment
  match a.host? src, a.host? dst with
  | none, none => placeFresh src dst
  | some known, none => placeBeside known dst
  | none, some known => placeBeside known src
  | some hostSrc, some hostDst => placeBetween hostSrc hostDst

/-! ## Placing an edge -/

def requireNode (node : Nat) : Step EdgePlacer Unit := do
  let nodes := (← get).assignment.size
  if nodes ≤ node then throw (.nodeOutOfRange node nodes)

/-- Counts an edge that has been placed. -/
def countEdge : Step EdgePlacer Unit := do
  let edges ← Step.ofExcept (Overflow.stops.word ((← get).edges + 1))
  modify fun p => { p with edges }

/-- Places an edge; the pool is not checked yet. -/
def accept (src dst : Nat) : Step EdgePlacer Placement := do
  requireNode src
  requireNode dst
  let (host, rule) ← settle src dst
  onPool (Pool.addEdge host)
  countEdge
  let _ ← onPool Pool.raiseIfFull
  return ⟨src, dst, host, rule⟩

/-- Reports a failed check as a broken part. -/
def demand (part : Checked) (verdict : Except Fault Unit) : Except Fault Unit :=
  verdict.mapError (.broken part)

/-- Places an edge and checks the pool. -/
def place (src dst : Nat) : Step EdgePlacer Placement := do
  let placement ← accept src dst
  Step.ofExcept (demand .pool (← get).pool.check)
  return placement

/-! ## Finishing -/

/-- Refuses books that disagree: the ceiling, the hosts of the nodes, their number, the edges. -/
def check (p : EdgePlacer) : Except Fault Unit := do
  p.pool.check
  p.assignment.checkHosts p.pool.hosts
  if p.pool.totalNodes ≠ p.assignment.assigned then
    throw (.inconsistent (.nodes p.pool.totalNodes p.assignment.assigned))
  if p.pool.totalEdges ≠ p.edges then
    throw (.inconsistent (.edges p.pool.totalEdges p.edges))

def outcome (p : EdgePlacer) : EdgeOutcome :=
  ⟨p.assignment, p.pool.loads.toList, p.pool.ceiling, p.pool.raises, p.edges⟩

/-- Checks the books and gives what the placement has come to. -/
def finish (p : EdgePlacer) : Except Fault EdgeOutcome := do
  demand .edgePlacer p.check
  return p.outcome

/-! ## Events -/

def startEvent (p : EdgePlacer) (nodes : Nat) : Event :=
  .streamStarted nodes p.pool.hosts p.pool.ceiling p.pool.rise

/-- The pool that the host for an edge is chosen from: one with room if the edge needs some. -/
def poolInForce (p : EdgePlacer) (rule : Rule) : Pool :=
  match rule with
  | .freshPair | .overflow => Step.after (Pool.makeRoom p.pool)
  | _ => p.pool

/-- What is told when an edge is placed; `p` is the state before. -/
def placeEvents (p : EdgePlacer) (src dst : Nat) : List Event :=
  match accept src dst p with
  | .error _ _ => []
  | .ok placement q =>
    let inForce := p.poolInForce placement.rule
    let loop := if placement.rule = .freshPair ∧ src = dst then [Event.selfLoop src] else []
    p.pool.raisesTo inForce ++ loop ++ inForce.raisesTo q.pool ++ [.edgePlaced placement]

end EdgePlacer

def EdgeOutcome.events (o : EdgeOutcome) : List Event :=
  o.loads.zipIdx.map fun (load, host) => .hostFilled host load

end GraphPlacement
