import GraphPlacement.Job.Edges
import GraphPlacement.Proofs.Edges.Streams
import GraphPlacement.Proofs.Jobs.Review
import GraphPlacement.Proofs.Listing.Edges
import GraphPlacement.Proofs.Listing.Written

/-!
# From an edge listing to its files and back

**Stages.** A job on an edge listing comes to its second pass if the listing can be counted, the capacity
is known and there is a file for the placements (`Begins`).  If not, then it fails and the store is as it
was.  That the listing reads the same the second time is due to the files being apart.

**What a job leaves.** A job that ends without a fault has placed all edges and written two files, each as
a whole (`placeEdges_eq_ok`).

**Accounts.** What an outcome accounts for fits in the numbers that are written of it
(`EdgePlacer.Accounts.fits`), its loads are what the records of both files count, and none of its edges
is skipped when they are judged.

**Reading back.** The placements and the node map are read back from the files as they were made, and
judging them from the files gives what is known of the run itself: `placeEdges_agrees_with_files`.
-/

namespace GraphPlacement

namespace EdgePlacer.Accounts

variable {hosts nodes : Nat} {placed : List Placement} {o : EdgeOutcome}

theorem fits (h : Accounts hosts nodes placed o) (hnodes : nodes ≤ Text.wordBound)
    (hhosts : hosts ≤ Text.signedBound) : o.assignment.Fits := by
  intro v host hv
  have hnode : v < nodes := h.size ▸ Assignment.lt_size_of_host? hv
  have hhost : host < hosts := h.host_lt v host hv
  omega

/-- Every number of a placement that is written fits in the word that it is read into. -/
theorem placed_lt (h : Accounts hosts nodes placed o) (hnodes : nodes ≤ Text.wordBound)
    (hhosts : hosts ≤ Text.wordBound) : ∀ p ∈ placed.map Placement.placed, p.Fits := by
  intro p hp
  obtain ⟨x, hx, rfl⟩ := List.mem_map.mp hp
  have hrecorded := h.recorded x hx
  obtain ⟨hostSrc, hostDst, hsrc, hdst, -, -⟩ := hrecorded.ends
  have hsrcLt : x.src < nodes := h.size ▸ Assignment.lt_size_of_host? hsrc
  have hdstLt : x.dst < nodes := h.size ▸ Assignment.lt_size_of_host? hdst
  have hhost : x.host < hosts := hrecorded.host_lt
  exact ⟨hsrcLt.trans_le hnodes, hdstLt.trans_le hnodes, hhost.trans_le hhosts⟩

/-- The loads are what is counted in what is written: entries of the node map, and placements. -/
theorem loads_eq_countP (h : Accounts hosts nodes placed o) :
    o.loads = (List.range hosts).map fun host : Nat =>
      Load.mk ((o.assignment.pairs.map Listing.entryOf).countP fun e => e.host = (host : Int))
        ((placed.map Placement.placed).countP fun p => p.host = host) := by
  rw [h.loads]
  refine List.map_congr_left fun host _ => ?_
  rw [List.countP_map, List.countP_map, Assignment.nodesOn]
  refine congrArg₂ Load.mk (List.countP_congr fun pair _ => ?_) (List.countP_congr fun x _ => ?_)
  · show decide (pair.2 = host) = true ↔ decide ((pair.2 : Int) = (host : Int)) = true
    rw [decide_eq_true_iff, decide_eq_true_iff, Int.ofNat_inj]
  · exact Iff.rfl

theorem tally (h : Accounts hosts nodes placed o) :
    o.assignment.tally (placed.map fun x => x.placed.ends) =
      .ok ⟨placed.countP Placement.crosses, placed.length, 0⟩ := by
  have hcounted := Assignment.tally_of_recorded h.recorded {}
  simpa [Assignment.tally] using hcounted

end EdgePlacer.Accounts

namespace Job

variable {cfg : Config} {listing parts nodeMap : String} {desk after : Desk} {report : EdgeReport}

/-! ## Stages -/

/-- Whether a job on an edge listing comes to place edges: the listing can be counted, the capacity is
known, and there is a file for the placements. -/
structure Begins (cfg : Config) (listing parts : String) (s : Store) (content : ByteArray)
    (counts : Listing.Counts) (capacity : Float) (partsAt : Location) : Prop where
  read : s.read listing = .ok content
  count : Listing.countEdges content = .ok counts
  capacity : cfg.capacity counts.nodes = .ok capacity
  parts : s.destination parts = .ok partsAt

/-- The second pass of a job over a content. -/
def secondPass (cfg : Config) (content : ByteArray) (counts : Listing.Counts) :
    StreamReport (Array Placement) :=
  EdgePlacer.placeStream cfg counts.nodes ((Listing.edges content).map Listing.Item.value) keepAll #[]

/-- What the second pass has written. -/
def placedText (cfg : Config) (content : ByteArray) (counts : Listing.Counts) : String :=
  Listing.writePlacements ((secondPass cfg content counts).received.toList.map Placement.placed)

/-- What a job does when the placements are written. -/
def closeEdges (nodeMap : String) (counts : Listing.Counts) (result : Except Fault EdgeOutcome) :
    Job EdgeReport := do
  let outcome ← Step.ofExcept result
  saveNodeMap nodeMap outcome.assignment
  tell [.streamBalanced outcome.ceiling outcome.raises (imbalance (outcome.loads.map Load.nodes))]
  return { outcome, counts }

/-- A job that comes to place edges writes what its second pass hands over, and nothing else so far. -/
theorem placeEdges_of_begins {content : ByteArray} {counts : Listing.Counts} {capacity : Float}
    {partsAt : Location} (hapart : desk.store.Apart [listing, parts, nodeMap])
    (h : Begins cfg listing parts desk.store content counts capacity partsAt) :
    ∃ journal, placeEdges cfg listing parts nodeMap desk =
      closeEdges nodeMap counts (secondPass cfg content counts).result
        ⟨desk.store.put partsAt (placedText cfg content counts).toUTF8, journal⟩ := by
  -- the file for the placements is not the listing, so the second pass reads what the first one did
  have hother := (List.pairwise_cons.mp hapart).1 parts List.mem_cons_self
  have hagain := Store.read_put_of_not_sameFile hother h.parts h.read .empty
  have hfolder := (Store.destination_eq_ok.mp h.parts).2.1
  have hcreated : ∀ journal, createFile parts ⟨desk.store, journal⟩ =
      .ok partsAt ⟨desk.store.put partsAt .empty, journal⟩ :=
    fun _ => createFile_eq_ok.mpr ⟨h.parts, rfl⟩
  have hreread : ∀ journal, readFile listing ⟨desk.store.put partsAt .empty, journal⟩ =
      .ok content ⟨desk.store.put partsAt .empty, journal⟩ :=
    fun _ => readFile_eq_ok.mpr ⟨hagain, rfl⟩
  have hwritten : ∀ journal, appendFile partsAt (placedText cfg content counts)
      ⟨desk.store.put partsAt .empty, journal⟩ =
        .ok () ⟨desk.store.put partsAt (placedText cfg content counts).toUTF8, journal⟩ := by
    intro journal
    rw [appendFile_apply, Store.append_put hfolder, ByteArray.empty_append]
  rw [placeEdges, Step.bind_of_ok (readFile_eq_ok.mpr ⟨h.read, rfl⟩),
    Step.bind_of_ok (Step.ofExcept_eq_ok.mpr ⟨h.count, rfl⟩), Step.bind_of_ok (tell_eq_ok.mpr rfl),
    Step.bind_of_ok (Step.ofExcept_eq_ok.mpr ⟨h.capacity, rfl⟩),
    Step.bind_of_ok (hcreated _), Step.bind_of_ok (hreread _), Step.bind_of_ok (tell_eq_ok.mpr rfl)]
  exact ⟨_, Step.bind_of_ok (hwritten _) _⟩

/-- Any other job fails and leaves the store as it was. -/
theorem placeEdges_of_not_begins
    (h : ¬∃ content counts capacity partsAt,
      Begins cfg listing parts desk.store content counts capacity partsAt) :
    ∃ fault journal, placeEdges cfg listing parts nodeMap desk = .error fault ⟨desk.store, journal⟩ := by
  rw [placeEdges]
  cases hread : desk.store.read listing with
  | error cause => exact ⟨_, _, Step.bind_of_error (readFile_eq_error.mpr ⟨⟨cause, hread, rfl⟩, rfl⟩) _⟩
  | ok content =>
      rw [Step.bind_of_ok (readFile_eq_ok.mpr ⟨hread, rfl⟩)]
      cases hcount : Listing.countEdges content with
      | error fault => exact ⟨_, _, Step.bind_of_error (Step.ofExcept_eq_error.mpr ⟨rfl, rfl⟩) _⟩
      | ok counts =>
          rw [Step.bind_of_ok (Step.ofExcept_eq_ok.mpr ⟨rfl, rfl⟩), Step.bind_of_ok (tell_eq_ok.mpr rfl)]
          cases hcapacity : cfg.capacity counts.nodes with
          | error fault => exact ⟨_, _, Step.bind_of_error (Step.ofExcept_eq_error.mpr ⟨rfl, rfl⟩) _⟩
          | ok capacity =>
              rw [Step.bind_of_ok (Step.ofExcept_eq_ok.mpr ⟨rfl, rfl⟩)]
              cases hparts : desk.store.destination parts with
              | error cause =>
                  have hfailed : ∀ journal, createFile parts ⟨desk.store, journal⟩ =
                      .error (.unreadable cause) ⟨desk.store, journal⟩ :=
                    fun _ => createFile_eq_error.mpr ⟨⟨cause, hparts, rfl⟩, rfl⟩
                  exact ⟨_, _, Step.bind_of_error (hfailed _) _⟩
              | ok partsAt =>
                  exact absurd ⟨content, counts, capacity, partsAt, hread, hcount, hcapacity, hparts⟩ h

theorem placeEdges_eq_ok (hapart : desk.store.Apart [listing, parts, nodeMap])
    (h : placeEdges cfg listing parts nodeMap desk = .ok report after) :
    ∃ content partsAt mapAt, desk.store.read listing = .ok content ∧
      Listing.countEdges content = .ok report.counts ∧
      let run := EdgePlacer.placeStream cfg report.counts.nodes
        ((Listing.edges content).map Listing.Item.value) keepAll #[]
      let placed := Listing.writePlacements (run.received.toList.map Placement.placed)
      run.result = .ok report.outcome ∧ desk.store.destination parts = .ok partsAt ∧
        (desk.store.put partsAt placed.toUTF8).destination nodeMap = .ok mapAt ∧
        after.store = (desk.store.put partsAt placed.toUTF8).put mapAt
          (Listing.writeNodeMap report.outcome.assignment).toUTF8 := by
  by_cases hbegins : ∃ content counts capacity partsAt,
      Begins cfg listing parts desk.store content counts capacity partsAt
  · obtain ⟨content, counts, capacity, partsAt, hbegins⟩ := hbegins
    obtain ⟨journal, hdone⟩ := placeEdges_of_begins hapart hbegins
    rw [h, eq_comm] at hdone
    obtain ⟨outcome, _, hdo, hsaved⟩ := Step.bind_eq_ok.mp hdone
    obtain ⟨hresult, rfl⟩ := Step.ofExcept_eq_ok.mp hdo
    obtain ⟨_, _, hdo, htold⟩ := Step.bind_eq_ok.mp hsaved
    obtain ⟨mapAt, hmap, rfl⟩ := saveNodeMap_eq_ok.mp hdo
    obtain ⟨_, _, hdo, hreport⟩ := Step.bind_eq_ok.mp htold
    obtain rfl := tell_eq_ok.mp hdo
    cases hreport
    exact ⟨content, partsAt, mapAt, hbegins.read, hbegins.count, hresult, hbegins.parts, hmap, rfl⟩
  · obtain ⟨fault, journal, hfault⟩ := placeEdges_of_not_begins hbegins
    cases h.symm.trans hfault

/-- Where the files are that a job on an edge listing leaves. -/
theorem read_after_placeEdges {content placed mapped : ByteArray} {partsAt mapAt : Location}
    (hapart : desk.store.Apart [listing, parts, nodeMap]) (hread : desk.store.read listing = .ok content)
    (hparts : desk.store.destination parts = .ok partsAt)
    (hmap : (desk.store.put partsAt placed).destination nodeMap = .ok mapAt) :
    ((desk.store.put partsAt placed).put mapAt mapped).read listing = .ok content ∧
      ((desk.store.put partsAt placed).put mapAt mapped).read parts = .ok placed ∧
      ((desk.store.put partsAt placed).put mapAt mapped).read nodeMap = .ok mapped := by
  obtain ⟨hpartsAt, hpartsNo, -⟩ := Store.destination_eq_ok.mp hparts
  obtain ⟨hmapAt, hmapNo, -⟩ := Store.destination_eq_ok.mp hmap
  have hsame := Store.sameFolders_put hpartsNo placed
  obtain ⟨hfirst, hsecond⟩ := List.pairwise_cons.mp hapart
  have hnotParts : desk.store.locate listing ≠ .ok partsAt := fun h =>
    hfirst parts List.mem_cons_self ⟨partsAt, h, hpartsAt⟩
  have hnotMap : (desk.store.put partsAt placed).locate listing ≠ .ok mapAt := fun h =>
    hfirst nodeMap (by simp) ⟨mapAt, hsame.locate.mpr h, hsame.locate.mpr hmapAt⟩
  have hother : (desk.store.put partsAt placed).locate parts ≠ .ok mapAt := fun h =>
    (List.pairwise_cons.mp hsecond).1 nodeMap List.mem_cons_self
      ⟨mapAt, hsame.locate.mpr h, hsame.locate.mpr hmapAt⟩
  refine ⟨?_, ?_, Store.read_put_self hmap mapped⟩
  · exact Store.read_put_of_ne hmapNo (Store.read_put_of_ne hpartsNo hread hnotParts placed) hnotMap mapped
  · exact Store.read_put_of_ne hmapNo (Store.read_put_self hparts placed) hother mapped

/-! ## Reading back -/

/-- **A job on an edge listing agrees with its files.**  The placements in `parts` are those of the edges
of the listing, in order, on hosts that exist; the node map is the assignment of the outcome; the loads
of the outcome are what the records of both files count; and judging the files finds every edge
evaluated, none skipped, and as many edges cut as endpoints borrowed. -/
theorem placeEdges_agrees_with_files (hhosts : cfg.hosts ≤ Text.signedBound)
    (hapart : desk.store.Apart [listing, parts, nodeMap])
    (h : placeEdges cfg listing parts nodeMap desk = .ok report after) :
    ∃ (content written mapped : ByteArray) (es : List Edge) (placed : List Placed)
      (entries : List Listing.NodeEntry) (cuts : Nat),
      desk.store.read listing = .ok content ∧
      Listing.records (Listing.edges content) = .ok es ∧
      after.store.read parts = .ok written ∧
      after.store.read nodeMap = .ok mapped ∧
      (Listing.placements written = .ok placed ∧ placed.map Placed.ends = es.map Edge.ends ∧
        ∀ p ∈ placed, p.host < cfg.hosts) ∧
      Step.outcome (loadNodeMap nodeMap (Listing.nodesOf es) after) = .ok report.outcome.assignment ∧
      (Listing.records (Listing.items Listing.readEntry mapped) = .ok entries ∧
        report.outcome.loads = (List.range cfg.hosts).map fun host : Nat =>
          Load.mk (entries.countP fun e => e.host = (host : Int)) (placed.countP fun p => p.host = host)) ∧
      report.outcome.edges = es.length ∧
      report.counts = ⟨Listing.nodesOf es, es.length⟩ ∧
      Step.outcome (countCuts (Listing.nodesOf es) nodeMap listing .edges after) =
        .ok ⟨cuts, es.length, 0⟩ ∧
      Step.outcome (countBorrowed (Listing.nodesOf es) cfg.hosts nodeMap parts after) = .ok cuts := by
  obtain ⟨content, partsAt, mapAt, hread, hcount, hresult, hparts, hmap, hafter⟩ :=
    placeEdges_eq_ok hapart h
  obtain ⟨es, hes, hfits, hcounts⟩ := Listing.countEdges_eq_ok hcount
  have hcountsNodes : report.counts.nodes = Listing.nodesOf es := by rw [hcounts]
  rw [hes, hcountsNodes] at hresult hmap hafter
  obtain ⟨hends, haccounts⟩ := EdgePlacer.placeStream_accounts hresult
  generalize (EdgePlacer.placeStream cfg (Listing.nodesOf es) (es.map Except.ok) keepAll
    #[]).received.toList = xs at hends haccounts hmap hafter
  have hlength : xs.length = es.length := by
    rw [← List.length_map, hends, List.length_map]
  obtain ⟨hlisting, hwritten, hmapped⟩ := read_after_placeEdges hapart hread hparts hmap
  rw [← hafter] at hlisting hwritten hmapped
  have hnodes : Listing.nodesOf es ≤ Text.wordBound := Nat.le_of_lt (Listing.nodesOf_lt hfits)
  have hmapFits := haccounts.fits hnodes hhosts
  have hplaced := Listing.placements_writePlacements
    (haccounts.placed_lt hnodes (Nat.le_trans hhosts Text.signedBound_le_wordBound))
  have hentries := Listing.records_eq_ok_iff.mpr (Listing.entries_writeNodeMap hmapFits)
  have hmapRead := Listing.nodeMap_writeNodeMap haccounts.counted hmapFits
  rw [haccounts.size] at hmapRead
  have htally := haccounts.tally
  rw [hends, hlength] at htally
  refine ⟨content, _, _, es, _, _, xs.countP Placement.crosses, hread, ?_, hwritten, hmapped,
    ⟨hplaced, ?_, ?_⟩, ?_, ⟨hentries, haccounts.loads_eq_countP⟩, ?_, hcounts, ?_, ?_⟩
  · exact Listing.records_eq_ok_iff.mpr hes
  · rw [List.map_map]
    exact hends
  · intro p hp
    obtain ⟨x, hx, rfl⟩ := List.mem_map.mp hp
    exact (haccounts.recorded x hx).host_lt
  · rw [loadNodeMap_of_read hmapped, hmapRead]
    rfl
  · rw [haccounts.edges, hlength]
  · rw [countCuts_of_read hmapped hmapRead hlisting, Listing.tally_edges hes, htally]
  · exact countBorrowed_of_read hmapped hmapRead
      (Assignment.checkHosts_eq_ok_iff.mpr haccounts.host_lt) hwritten hplaced
      (Assignment.borrowed_of_recorded haccounts.recorded)

/-- A path of four nodes, with a blank line, a weight and a loop in the listing. -/
theorem placeEdges_agrees_with_files_on_path :
    let desk : Desk := ⟨.ofFiles [("edges", "0 1\n\n1 2 0.5\n2 3\n3 3\n".toUTF8)], #[]⟩
    ∃ report after cuts, placeEdges {} "edges" "parts" "map" desk = .ok report after ∧
      report.outcome.edges = report.counts.edges ∧
      Step.outcome (countCuts report.counts.nodes "map" "edges" .edges after) =
        .ok ⟨cuts, report.counts.edges, 0⟩ ∧
      Step.outcome (countBorrowed report.counts.nodes 2 "map" "parts" after) = .ok cuts := by
  intro desk
  have hdone : (Step.outcome (placeEdges {} "edges" "parts" "map" desk)).isOk = true := by
    decide +kernel
  cases hrun : placeEdges {} "edges" "parts" "map" desk with
  | error fault after =>
      rw [hrun] at hdone
      cases hdone
  | ok report after =>
      obtain ⟨_, _, _, es, _, _, cuts, -, -, -, -, -, -, -, hedges, hcounts, hcuts, hborrowed⟩ :=
        placeEdges_agrees_with_files (by decide) (by decide +kernel) hrun
      refine ⟨report, after, cuts, rfl, ?_, ?_, ?_⟩
      · rw [hedges, hcounts]
      · rw [hcounts]
        exact hcuts
      · rw [hcounts]
        exact hborrowed

end Job

end GraphPlacement
