import GraphPlacement.EdgePlacer.Run
import GraphPlacement.Job
import GraphPlacement.Listing.Edges
import GraphPlacement.Listing.Placements
import GraphPlacement.Quality.Balance

/-!
# From an edge listing to a placement listing

**Two passes.** The first pass over an edge listing counts its nodes and edges, the second places the
edges one after the other and writes each placement as it is made.  The node map is written at the end.

**Faults.** A listing that cannot be read and a configuration without a capacity are found before a file
is created.  A fault in the second pass leaves the placements made up to then.
-/

namespace GraphPlacement

/-- What a job on an edge listing gives. -/
structure EdgeReport where
  outcome : EdgeOutcome
  /-- What the first pass counted. -/
  counts : Listing.Counts

namespace Job

/-- Places the edges of a listing: `parts` is the file for the placements and `nodeMap` the one for the
node map. -/
def placeEdges (cfg : Config) (listing parts nodeMap : String) : Job EdgeReport := do
  let counts ← Step.ofExcept (Listing.countEdges (← readFile listing))
  tell (counts.events ++ [.listingRead counts.nodes counts.edges])
  let _ ← Step.ofExcept (cfg.capacity counts.nodes)
  let file ← createFile parts
  let stream := (Listing.edges (← readFile listing)).map Listing.Item.value
  let run := EdgePlacer.placeStream cfg counts.nodes stream keepAll #[]
  tell run.journal.toList
  appendFile file (Listing.writePlacements (run.received.toList.map Placement.placed))
  let outcome ← Step.ofExcept run.result
  saveNodeMap nodeMap outcome.assignment
  tell [.streamBalanced outcome.ceiling outcome.raises (imbalance (outcome.loads.map Load.nodes))]
  return { outcome, counts }

end Job

end GraphPlacement
