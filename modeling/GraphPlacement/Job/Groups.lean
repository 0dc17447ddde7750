import GraphPlacement.GroupPlacer
import GraphPlacement.Job
import GraphPlacement.Listing.Edges
import GraphPlacement.Listing.Groups
import GraphPlacement.Quality.Balance
import GraphPlacement.Quality.Cut

/-!
# From a group listing to a file for each host

**Files.** The nodes of a group listing are placed in the order of their lines.  Each line is copied as
it is to the file of the host that its node is on, also a later line of a node that is placed already.
The node map is written when all nodes are placed, and then the cuts over the listing are counted.

**Faults.** The listing is read as a whole and the configuration checked before any file is created; an
edge to a node that the assignment has no slot for is found when all files are written.
-/

namespace GraphPlacement

/-- What a job on a group listing gives. -/
structure GroupReport where
  outcome : GroupOutcome
  /-- How many edges the listing has. -/
  edges : Nat
  /-- The cuts of the assignment over the listing. -/
  cuts : Tally

namespace Job

/-- The name of the file that belongs to a host. -/
def partName (base : String) (host : Nat) : String := base ++ "_" ++ Text.decimal host

/-- What is told of a listing when it has been read. -/
def groupListingEvents (lines : List Listing.GroupLine) (edges : Nat) : List Event :=
  let largest := lines.foldl (fun most line => max most line.node) 0
  let sparse := !lines.isEmpty && Listing.isSparse (min (largest + 1) (Text.wordBound - 1)) lines.length
  .listingRead lines.length edges ::
    if sparse then [.sparseGroupIds largest lines.length] else []

/-- Places the node of a line and copies the line to the file of its host. -/
def placeLine {σ : Type} [Random.Source σ] (files : List Location) (placer : GroupPlacer σ)
    (line : Listing.GroupLine) : Job (GroupPlacer σ) :=
  match GroupPlacer.place line.group placer with
  | .error fault _ => throw fault
  | .ok host next => do
    tell (placer.placeEvents line.node (.ok host))
    let file ← Step.ofOption (.noSuchHost host) files[host]?
    appendFile file (line.text ++ "\n")
    return next

/-- Places the nodes of a group listing: `nodeMap` is the file for the node map, and the files of the
hosts have names that begin with `parts`. -/
def placeGroups (cfg : Config) (listing nodeMap parts : String) : Job GroupReport := do
  let lines ← Step.ofExcept (Listing.allGroups (← readFile listing))
  let edges := lines.flatMap Listing.GroupLine.ends
  tell (groupListingEvents lines edges.length)
  let placer ← Step.ofExcept (GroupPlacer.ofConfig cfg lines.length)
  tell [placer.startEvent lines.length]
  let files ← (List.range cfg.hosts).mapM fun host => createFile (partName parts host)
  let placer ← lines.foldlM (placeLine files) placer
  let outcome := placer.outcome
  tell [outcome.event]
  saveNodeMap nodeMap outcome.assignment
  let cuts ← Step.ofExcept (outcome.assignment.tallyInParts edges)
  tell [.batchCut cuts.cut cuts.evaluated cuts.ratio (imbalance outcome.sizes)]
  return { outcome, edges := edges.length, cuts }

end Job

end GraphPlacement
