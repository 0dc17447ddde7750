import GraphPlacement.Proofs.Cuts
import GraphPlacement.Proofs.Jobs.Groups
import GraphPlacement.Proofs.Jobs.Review
import Mathlib

/-!
# The cuts that a job on a group listing reports

**Two counts.** The job counts the cuts in parts, over the edges and the assignment that it has at hand.
Judging counts them from the left, over a listing that is read again and a node map that is read back,
for any number of nodes that is large enough.

**Agreement.** The listing is not among the files that the job writes, so it reads the same afterwards
(`read_listing`).  The node map is read back with empty slots added at most, and neither these nor the
parts make a difference to the count: `placeGroups_agrees_with_countCuts`.
-/

namespace GraphPlacement.Job

variable {cfg : Config} {listing nodeMap parts : String} {desk after copied : Desk}
variable {report : GroupReport} {files : List Location} {content : ByteArray}

/-- The listing is read as before when the files of the hosts and the node map have been written. -/
theorem read_listing {mapAt : Location} (mapped : ByteArray)
    (hapart : desk.store.Apart (listing :: nodeMap :: (List.range cfg.hosts).map (partName parts)))
    (hlocations : files.map Except.ok =
      (List.range cfg.hosts).map fun host => desk.store.destination (partName parts host))
    (hsame : desk.store.SameFolders copied.store)
    (hkept : ∀ l, l ∉ files → copied.store.content? l = desk.store.content? l)
    (hmap : copied.store.destination nodeMap = .ok mapAt) (hread : desk.store.read listing = .ok content) :
    (copied.store.put mapAt mapped).read listing = .ok content := by
  obtain ⟨l, hlocate, hcontent, hasks⟩ := Store.read_eq_ok.mp hread
  obtain ⟨hmapAt, hmapNo, -⟩ := Store.destination_eq_ok.mp hmap
  obtain ⟨hlisting, -⟩ := List.pairwise_cons.mp hapart
  have hout : l ∉ files := by
    intro hl
    have hdestination : Except.ok l ∈
        (List.range cfg.hosts).map fun host => desk.store.destination (partName parts host) :=
      hlocations ▸ List.mem_map_of_mem hl
    obtain ⟨host, hhost, hpart⟩ := List.mem_map.mp hdestination
    have hname : partName parts host ∈ nodeMap :: (List.range cfg.hosts).map (partName parts) :=
      List.mem_cons_of_mem _ (List.mem_map_of_mem hhost)
    exact hlisting _ hname ⟨l, hlocate, (Store.destination_eq_ok.mp hpart).1⟩
  have hstill : copied.store.read listing = .ok content :=
    Store.read_eq_ok.mpr ⟨l, hsame.locate.mp hlocate, (hkept l hout).trans hcontent, hasks⟩
  refine Store.read_put_of_ne hmapNo hstill ?_ mapped
  intro hother
  exact hlisting nodeMap List.mem_cons_self ⟨mapAt, hsame.locate.mpr hother, hsame.locate.mpr hmapAt⟩

/-- **A job on a group listing reports the cuts that are found in its files.**  If it writes to other files
than the listing, then judging its node map over the listing gives the cuts of its report, for every
number of nodes that leaves none of the assignment out.  All edges of the listing are in that count, and
they are as many as the groups have together. -/
theorem placeGroups_agrees_with_countCuts (hhosts : cfg.hosts ≤ Text.signedBound)
    (hapart : desk.store.Apart (listing :: nodeMap :: (List.range cfg.hosts).map (partName parts)))
    (h : placeGroups cfg listing nodeMap parts desk = .ok report after) :
    (∀ nodes ≥ report.outcome.assignment.size,
      Step.outcome (countCuts nodes nodeMap listing .groups after) = .ok report.cuts) ∧
    ∃ content lines, desk.store.read listing = .ok content ∧
      Listing.allGroups content = .ok lines ∧ report.cuts.total = report.edges ∧
      report.edges = (lines.map Listing.GroupLine.degree).sum := by
  obtain ⟨content, lines, placer, final, files, mapAt, begun, created, copied, hread, hlines, hplacer,
    hbegun, hcreate, hcopy, houtcome, hmap, hafter, hedges, hcuts⟩ := placeGroups_stages h
  obtain ⟨hcreating, hlocations, hempty, huntouched⟩ := mapM_createFile hcreate
  rw [hbegun] at hcreating hlocations huntouched
  have hnodup : files.Nodup := by
    refine nodup_of_apart (List.pairwise_cons.mp (List.pairwise_cons.mp hapart).2).2 ?_
    rw [hlocations, List.map_map]
    rfl
  obtain ⟨-, hhostCount, hempties⟩ := GroupPlacer.start_eq_ok hplacer
  have hsound := GroupPlacer.sound_of_start hplacer
  obtain ⟨⟨hosts, hall⟩, hgains⟩ :=
    foldlM_placeLine hnodup hsound (fun l hl => ⟨_, hempty l hl⟩) hcopy
  have hfinal := hsound.placeAll hall
  have hassignment : report.outcome.assignment = final.assignment := by rw [houtcome]; rfl
  have htally : final.assignment.tally (lines.flatMap Listing.GroupLine.ends) = .ok report.cuts := by
    rw [← Assignment.tallyInParts_eq, hcuts]
  refine ⟨fun nodes hnodes => ?_, content, lines, hread, hlines, ?_, ?_⟩
  · have hfits : final.assignment.Fits := by
      refine fits_of_placesAll hlines ?_ ?_ hfinal
      · intro v
        rw [hempties, Assignment.host?_ofSize]
      · rw [hhostCount]
        exact hhosts
    have hmapped := Store.read_put_self hmap (Listing.writeNodeMap final.assignment).toUTF8
    have hlisting := read_listing (Listing.writeNodeMap final.assignment).toUTF8 hapart hlocations
      (hcreating.trans hgains.folders) (fun l hl => (hgains.kept l hl).trans (huntouched l hl)) hmap hread
    rw [← hafter] at hmapped hlisting
    rw [countCuts_of_read hmapped (Listing.nodeMap_writeNodeMap_growTo hfinal.sound.counted hfits
      (hassignment ▸ hnodes)) hlisting]
    -- the count that the job made is made again, for an assignment with more empty slots
    rw [Listing.tally, Listing.tallyItems_eq (Listing.records_eq_ok_iff.mp hlines)]
    exact Assignment.tallyFrom_growTo htally nodes
  · rw [hedges, Assignment.total_of_tally htally]
  · rw [hedges, List.length_flatMap]
    refine congrArg List.sum (List.map_congr_left fun line _ => ?_)
    exact List.length_map _

/-- Five edges, two of them to nodes without a group, judged for two nodes more than there are. -/
theorem placeGroups_agrees_with_countCuts_on_skipped_edges :
    let desk : Desk := ⟨.ofFiles [("groups", "0 2 1 2\n1 1 0\n\n4 1 3\n1 1 4\r\n".toUTF8)], #[]⟩
    ∃ report after, placeGroups {} "groups" "map" "part" desk = .ok report after ∧
      Step.outcome (countCuts 7 "map" "groups" .groups after) = .ok report.cuts ∧
      report.cuts.total = 5 := by
  intro desk
  have hdone : (Step.outcome (placeGroups {} "groups" "map" "part" desk)).toOption.map
      (fun report => (report.outcome.assignment.size, report.edges)) = some (5, 5) := by
    decide +kernel
  cases hrun : placeGroups {} "groups" "map" "part" desk with
  | error fault after =>
      rw [hrun] at hdone
      cases hdone
  | ok report after =>
      rw [hrun] at hdone
      obtain ⟨hsize, hedges⟩ := Prod.mk.inj (Option.some.inj hdone)
      obtain ⟨hjudged, _, _, -, -, htotal, -⟩ :=
        placeGroups_agrees_with_countCuts (by decide) (by decide +kernel) hrun
      exact ⟨report, after, rfl, hjudged 7 (by omega), htotal.trans hedges⟩

end GraphPlacement.Job
