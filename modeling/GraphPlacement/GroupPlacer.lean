import GraphPlacement.Assignment
import GraphPlacement.Journal
import GraphPlacement.Random.Xoshiro
import GraphPlacement.Score

/-!
# Placing nodes with their neighbours

**Order.** Nodes are placed one at a time, in the order of their groups.  A node is placed once: if its
group comes again it keeps its host, and nothing is drawn for it.

**Choice.** A host is drawn at random and scored first; the others follow in ascending order and take
over only with a strictly higher score.  So the drawn host wins every tie it is part of, and among
other hosts the first does.

**Books.** The nodes of each host are kept as a set beside the assignment, which has slots for the
number of nodes announced and grows when a larger node comes.
-/

namespace GraphPlacement

/-- A placement of nodes in progress. -/
structure GroupPlacer (σ : Type) where
  /-- How hosts are scored. -/
  strategy : Strategy
  /-- What a host is meant to hold. -/
  capacity : Float
  /-- The nodes that each host holds. -/
  held : Array NodeSet
  /-- The host of each node. -/
  assignment : Assignment
  /-- Where random numbers come from. -/
  source : σ

/-- What a finished placement of nodes gives. -/
structure GroupOutcome where
  assignment : Assignment
  sizes : List Nat
  capacity : Float

def GroupOutcome.event (o : GroupOutcome) : Event := .batchFinished o.sizes

namespace GroupPlacer

variable {σ : Type}

/-! ## Starting -/

/-- A placement that has not begun, with a given source of random numbers. -/
def start (cfg : Config) (nodes : Nat) (source : σ) : Except Fault (GroupPlacer σ) := do
  let capacity ← cfg.capacity nodes
  return ⟨cfg.strategy, capacity, Array.replicate cfg.hosts ∅, .ofSize nodes, source⟩

/-- A placement that has not begun, drawing from the seed of its configuration. -/
def ofConfig (cfg : Config) (nodes : Nat) : Except Fault (GroupPlacer Random.Xoshiro) :=
  start cfg nodes (Random.Xoshiro.ofSeed cfg.seed)

def hosts (p : GroupPlacer σ) : Nat := p.held.size

def nodesOf (p : GroupPlacer σ) (host : Nat) : Except Fault NodeSet :=
  match p.held[host]? with
  | some nodes => .ok nodes
  | none => .error (.noSuchHost host)

/-! ## Choosing -/

section Choosing

variable [Random.Source σ]

/-- The score of a host for some neighbours, and the source after it. -/
def scoreOf (p : GroupPlacer σ) (neighbours : NodeSet) (host : Nat) (s : σ) : Float × σ :=
  p.strategy.score (p.held.getD host ∅) neighbours p.capacity s

/-- The best host so far with its score, and the source of random numbers. -/
structure Search (σ : Type) where
  best : Nat
  score : Float
  source : σ

/-- Goes on with a search at a host, which takes over with a strictly higher score. -/
def Search.visit (p : GroupPlacer σ) (neighbours : NodeSet) (search : Search σ) (host : Nat) :
    Search σ :=
  let (score, source) := p.scoreOf neighbours host search.source
  if score > search.score then ⟨host, score, source⟩ else { search with source }

/-- The search that begins with the host that is drawn. -/
def seedSearch (p : GroupPlacer σ) (neighbours : NodeSet) : Search σ :=
  let (host, source) := Random.below p.hosts p.source
  let (score, source) := p.scoreOf neighbours host source
  ⟨host, score, source⟩

/-- The host for a node with the given neighbours, and the source after the choice. -/
def choose (p : GroupPlacer σ) (neighbours : NodeSet) : Nat × σ :=
  let seed := p.seedSearch neighbours
  let others := (List.range p.hosts).filter (· ≠ seed.best)
  let search := others.foldl (Search.visit p neighbours) seed
  (search.best, search.source)

/-! ## Placing -/

/-- Chooses a host without placing anything. -/
def consider (g : Group) : Step (GroupPlacer σ) Nat := fun p =>
  let (host, source) := p.choose g.neighbours
  .ok host { p with source }

/-- Puts a node on a host, in both books. -/
def commit (node host : Nat) : Step (GroupPlacer σ) Unit := do
  Step.onPart
    (fun ⟨strategy, capacity, held, assignment, source⟩ =>
      (assignment, (⟨strategy, capacity, held, ·, source⟩)))
    (Assignment.assignGrowing node host)
  modify fun p => { p with held := p.held.modify host (·.insert node) }

/-- Places the node of a group and gives its host. -/
def place (g : Group) : Step (GroupPlacer σ) Nat := do
  match (← get).assignment.host? g.node with
  | some host => return host
  | none =>
    let host ← consider g
    commit g.node host
    return host

def placeAll (groups : List Group) : Step (GroupPlacer σ) (List Nat) := groups.mapM place

end Choosing

/-! ## Finishing -/

def outcome (p : GroupPlacer σ) : GroupOutcome :=
  ⟨p.assignment, p.held.toList.map (·.size), p.capacity⟩

/-- Places all groups of a graph, as many nodes as groups being announced. -/
def partition (cfg : Config) (groups : List Group) : Except Fault GroupOutcome := do
  let p ← ofConfig cfg groups.length
  match placeAll groups p with
  | .ok _ p => return p.outcome
  | .error fault _ => throw fault

/-! ## Events -/

def startEvent (p : GroupPlacer σ) (nodes : Nat) : Event :=
  .batchStarted nodes p.hosts p.strategy p.capacity

/-- What is told when a node is placed; `p` is the state before. -/
def placeEvents (p : GroupPlacer σ) (node : Nat) : Except Fault Nat → List Event
  | .error _ => []
  | .ok host =>
    match p.assignment.host? node with
    | some _ => [.nodeRepeated node host]
    | none => [.nodePlaced node host]

/-- What is told from a state on when some groups are placed and the placement ends. -/
def laterEvents [Random.Source σ] (p : GroupPlacer σ) : List Group → List Event
  | [] => [p.outcome.event]
  | g :: groups =>
    match place g p with
    | .ok host next => p.placeEvents g.node (.ok host) ++ next.laterEvents groups
    | .error _ _ => []

/-- What is told when all groups of a graph are placed. -/
def partitionEvents (cfg : Config) (groups : List Group) : List Event :=
  match ofConfig cfg groups.length with
  | .ok p => p.startEvent groups.length :: p.laterEvents groups
  | .error _ => []

end GroupPlacer

end GraphPlacement
