import GraphPlacement.Job.Review
import GraphPlacement.Proofs.Files

/-!
# Judging from files that can be read

**Judging** a placement comes to what is counted, as soon as the files can be read: the node map as an
assignment, and the listing as far as it is counted.
-/

namespace GraphPlacement.Job

variable {nodeMap listing parts : String} {nodes : Nat} {mapped : ByteArray} {a : Assignment} {desk : Desk}

theorem countCuts_of_read {content : ByteArray} (hmap : desk.store.read nodeMap = .ok mapped)
    (ha : Listing.nodeMap mapped nodes = .ok a) (hlisting : desk.store.read listing = .ok content)
    (format : Listing.Format) :
    Step.outcome (countCuts nodes nodeMap listing format desk) = Listing.tally a content format := by
  simp only [countCuts, Step.bind_apply, loadNodeMap_of_read hmap, ha, Step.ofExcept_ok, Step.pure_apply,
    readFile_eq_ok.mpr ⟨hlisting, rfl⟩]
  cases Listing.tally a content format <;> rfl

theorem countBorrowed_of_read {hosts count : Nat} {written : ByteArray} {placed : List Placed}
    (hmap : desk.store.read nodeMap = .ok mapped)
    (ha : Listing.nodeMap mapped nodes = .ok a) (hhosts : a.checkHosts hosts = .ok ())
    (hparts : desk.store.read parts = .ok written) (hplaced : Listing.placements written = .ok placed)
    (hcount : a.borrowed hosts placed = .ok count) :
    Step.outcome (countBorrowed nodes hosts nodeMap parts desk) = .ok count := by
  simp only [countBorrowed, Step.bind_apply, loadNodeMap_of_read hmap, ha, Step.ofExcept_ok,
    Step.pure_apply, hhosts, readFile_eq_ok.mpr ⟨hparts, rfl⟩, hplaced, hcount]
  rfl

end GraphPlacement.Job
