import GraphPlacement.Job
import GraphPlacement.Listing.Cuts
import GraphPlacement.Listing.Placements
import GraphPlacement.Quality.Borrowed

/-!
# Judging a placement from its files

**Cuts** are counted for a node map over a listing of edges or of groups.  **Borrowed endpoints** are
counted for a node map over the listing of the placements; the hosts of the nodes are checked before
that listing is opened.  Neither job writes a file.
-/

namespace GraphPlacement.Job

/-- Counts the cuts of a node map over a listing. -/
def countCuts (nodes : Nat) (nodeMap listing : String) (format : Listing.Format) : Job Tally := do
  let a ← loadNodeMap nodeMap nodes
  let t ← Step.ofExcept (Listing.tally a (← readFile listing) format)
  tell [.cutsCounted t.cut t.evaluated t.skipped]
  return t

/-- Counts the endpoints that the placed edges of a listing borrow. -/
def countBorrowed (nodes hosts : Nat) (nodeMap parts : String) : Job Nat := do
  let a ← loadNodeMap nodeMap nodes
  Step.ofExcept (a.checkHosts hosts)
  let placed ← Step.ofExcept (Listing.placements (← readFile parts))
  Step.ofExcept (a.borrowed hosts placed)

end GraphPlacement.Job
