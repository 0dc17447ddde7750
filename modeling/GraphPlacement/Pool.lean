import GraphPlacement.Config
import GraphPlacement.Step
import GraphPlacement.Word

/-!
# Hosts under a common ceiling

**Ceiling.** All hosts of a pool share one ceiling.  A host has room while it holds fewer nodes than
that; edges are counted too, but they limit nothing.

**Counting.** The counters of a host are words.  A node or an edge that would take one past the last word
is not counted, and the run stops.

**Raising.** When no host has room the ceiling rises for all of them, by the same amount each time and
as often as it takes, until one has room again.  It never falls.

**Choice.** The lightest host with room is the one with the fewest nodes, among those the one with the
fewest edges, and among those the first.
-/

namespace GraphPlacement

/-- What a host holds. -/
structure Load where
  nodes : Nat := 0
  edges : Nat := 0
deriving DecidableEq, Repr, Inhabited

namespace Load

/-- Whether a load has fewer nodes than another, or as many nodes and fewer edges. -/
def lighter (a b : Load) : Bool := a.nodes < b.nodes || (a.nodes == b.nodes && a.edges < b.edges)

def addNodes (overflow : Overflow) (count : Nat) (a : Load) : Except Fault Load := do
  return { a with nodes := ← overflow.word (a.nodes + count) }

def addEdge (overflow : Overflow) (a : Load) : Except Fault Load := do
  return { a with edges := ← overflow.word (a.edges + 1) }

end Load

/-- Hosts that fill up under a common ceiling. -/
structure Pool where
  /-- What each host holds. -/
  loads : Array Load
  /-- The ceiling at the start. -/
  base : Float
  /-- The ceiling in force: a host below it has room. -/
  ceiling : Float
  /-- How far the ceiling rises each time. -/
  rise : Float
  /-- How often it has risen. -/
  raises : Nat

namespace Pool

/-! ## Opening a pool -/

/-- Empty hosts under a given ceiling that rises by a given amount. -/
def ofCeiling (hosts : Nat) (ceiling rise : Float) : Except Fault Pool :=
  if hosts = 0 then .error .noHosts
  else if !ceiling.isFinite || ceiling < 0.0 then .error (.badParameter .ceiling ceiling)
  else if !rise.isFinite || rise ≤ 0.0 then .error (.badParameter .rise rise)
  else .ok ⟨Array.replicate hosts {}, ceiling, ceiling, rise, 0⟩

/-- Empty hosts for a graph of `nodes` nodes: the ceiling starts at the capacity. -/
def ofConfig (cfg : Config) (nodes : Nat) : Except Fault Pool := do
  let ceiling ← cfg.capacity nodes
  let rise ← cfg.rise nodes
  ofCeiling cfg.hosts ceiling rise

/-! ## Room and raising -/

def hosts (p : Pool) : Nat := p.loads.size

/-- Whether a host with this load has room. -/
def hasRoom (p : Pool) (load : Load) : Bool := load.nodes.toFloat < p.ceiling

/-- Whether a host has room; no answer for a host that does not exist. -/
def accepts? (p : Pool) (host : Nat) : Option Bool := p.loads[host]?.map p.hasRoom

def isFull (p : Pool) : Bool := p.loads.all fun load => !p.hasRoom load

def raiseOnce (p : Pool) : Pool := { p with ceiling := p.ceiling + p.rise, raises := p.raises + 1 }

/-- Raises the ceiling while the pool is full, at most `limit` times. -/
def raiseWithin : Nat → Pool → Pool
  | 0, p => p
  | limit + 1, p => if p.isFull then raiseWithin limit p.raiseOnce else p

/-- More raises than there are ceilings: whoever needs more needs infinitely many. -/
def raiseLimit : Nat := UInt64.size

/-- Raises the ceiling until some host has room. -/
def raise (p : Pool) : Pool := raiseWithin raiseLimit p

/-! ## Choosing a host -/

/-- The lighter of two hosts, the earlier one when neither is lighter. -/
def keepLighter (best : Option (Load × Nat)) (host : Load × Nat) : Option (Load × Nat) :=
  match best with
  | none => some host
  | some b => if host.1.lighter b.1 then some host else some b

/-- The hosts that have room, with their loads, in ascending order. -/
def candidates (p : Pool) : List (Load × Nat) :=
  p.loads.toList.zipIdx.filter fun host => p.hasRoom host.1

/-- The lightest host that has room. -/
def lightest? (p : Pool) : Option Nat :=
  (p.candidates.foldl keepLighter none).map Prod.snd

/-- The lightest host that has room, after raising the ceiling if there is none. -/
def makeRoom : Step Pool Nat := fun p =>
  match p.lightest? with
  | some host => .ok host p
  | none =>
    let raised := p.raise
    match raised.lightest? with
    | some host => .ok host raised
    | none => .error .neverRoom raised

/-- Raises the ceiling until some host has room, and tells whether that took a raise. -/
def raiseIfFull : Step Pool Bool := fun p =>
  let raised := p.raise
  if raised.isFull then .error .neverRoom raised else .ok p.isFull raised

/-! ## Counting -/

def loadOf (p : Pool) (host : Nat) : Except Fault Load :=
  match p.loads[host]? with
  | some load => .ok load
  | none => .error (.noSuchHost host)

/-- Changes what is counted on a host. -/
def update (host : Nat) (change : Load → Except Fault Load) : Step Pool Unit := do
  let load ← Step.ofExcept ((← get).loadOf host)
  let load ← Step.ofExcept (change load)
  modify fun p => { p with loads := p.loads.setIfInBounds host load }

def addNodes (host count : Nat) : Step Pool Unit := update host (Load.addNodes .stops count)

def addEdge (host : Nat) : Step Pool Unit := update host (Load.addEdge .stops)

def totalNodes (p : Pool) : Nat := (p.loads.toList.map Load.nodes).foldr (· + ·) 0

def totalEdges (p : Pool) : Nat := (p.loads.toList.map Load.edges).foldr (· + ·) 0

/-! ## The check a pool makes on itself -/

/-- The ceiling that the number of raises leads to, reckoned in one step. -/
def expectedCeiling (p : Pool) : Float := p.base + p.rise * p.raises.toFloat

/-- How far the ceiling may be from the expected one: a millionth of it, or of one if that is more. -/
def tolerance (p : Pool) : Float :=
  1e-6 * (if p.expectedCeiling > 1.0 then p.expectedCeiling else 1.0)

/-- Refuses a ceiling that has fallen, or that its raises do not account for. -/
def check (p : Pool) : Except Fault Unit :=
  if p.ceiling < p.base then .error (.inconsistent (.ceilingDropped p.ceiling p.base))
  else if (p.ceiling - p.expectedCeiling).abs > p.tolerance then
    .error (.inconsistent (.ceilingOffLadder p.ceiling p.raises p.rise))
  else .ok ()

/-! ## Small facts -/

@[simp] theorem loads_raiseOnce (p : Pool) : p.raiseOnce.loads = p.loads := rfl

@[simp] theorem loads_raiseWithin (limit : Nat) (p : Pool) :
    (raiseWithin limit p).loads = p.loads := by
  induction limit generalizing p with
  | zero => rfl
  | succ limit ih =>
    simp only [raiseWithin]
    split
    · rw [ih, loads_raiseOnce]
    · rfl

@[simp] theorem loads_raise (p : Pool) : p.raise.loads = p.loads := loads_raiseWithin _ p

theorem raise_of_not_isFull {p : Pool} (h : p.isFull = false) : p.raise = p := by
  show raiseWithin (UInt64.size - 1 + 1) p = p
  simp [raiseWithin, h]

end Pool

end GraphPlacement
