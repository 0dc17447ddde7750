import GraphPlacement.Proofs.Capacity
import GraphPlacement.Proofs.Cuts
import GraphPlacement.Proofs.Groups.Books
import GraphPlacement.Proofs.Jobs.Groups

/-!
# When a job on a group listing fails, and what it leaves

**Before the files.** The listing is read as a whole and the configuration checked before a file is
created (`Ready`), so a job that fails over either leaves the store as it was.

**No fault in between.** Once the files can be created, none of the steps that write them can fail: a
group is placed, unless its node is the last word, and on a host that has a file (`exists_placeLine`).

**After the files.** What is left is the count of the cuts.  A node with a group has a slot, and so the
count fails exactly when the target of an edge has none, with all files written as if it had not:
`placeGroups_of_ready`.
-/

namespace GraphPlacement

theorem GroupPlacer.exists_ofConfig_iff {cfg : Config} {nodes : Nat} :
    (∃ placer, GroupPlacer.ofConfig cfg nodes = .ok placer) ↔ cfg.validate = .ok () ∧ nodes ≠ 0 := by
  rw [← Config.exists_capacity_iff]
  constructor
  · rintro ⟨placer, h⟩
    obtain ⟨capacity, hcapacity, -⟩ := Step.except_bind_eq_ok.mp h
    exact ⟨capacity, hcapacity⟩
  · rintro ⟨capacity, hcapacity⟩
    exact ⟨_, Step.except_bind_eq_ok.mpr ⟨capacity, hcapacity, rfl⟩⟩

namespace Job

variable {cfg : Config} {listing nodeMap parts : String} {desk d e : Desk} {content : ByteArray}
variable {lines : List Listing.GroupLine} {files : List Location}

/-! ## Steps that do not fail -/

theorem exists_createFiles {name : Nat → String} {hosts : List Nat}
    (h : ∀ host ∈ hosts, ∃ l, d.store.destination (name host) = .ok l) :
    ∃ files e, hosts.mapM (fun host => createFile (name host)) d = .ok files e := by
  have hstep : ∀ host ∈ hosts, ∀ e : Desk, d.store.SameFolders e.store →
      ∃ l e', createFile (name host) e = .ok l e' ∧ d.store.SameFolders e'.store := by
    intro host hhost e hsame
    obtain ⟨l, hl⟩ := h host hhost
    have hl' := hsame.destination.mp hl
    refine ⟨l, _, createFile_eq_ok.mpr ⟨hl', rfl⟩, hsame.trans ?_⟩
    exact Store.sameFolders_put (Store.destination_eq_ok.mp hl').2.1 _
  obtain ⟨files, e, hfiles, -⟩ := Step.exists_mapM_eq_ok hstep (Store.SameFolders.refl d.store)
  exact ⟨files, e, hfiles⟩

section Copying

variable {σ : Type} [Random.Source σ] {placer : GroupPlacer σ}

theorem exists_placeLine (hp : placer.Books) (hfiles : files.length = placer.hosts)
    {line : Listing.GroupLine} (hfit : line.node + 1 < UInt64.size) (d : Desk) :
    ∃ next e, placeLine files placer line d = .ok next e ∧ next.Books ∧ files.length = next.hosts := by
  obtain ⟨host, next, hplace⟩ := GroupPlacer.exists_place (g := line.group) hfit placer
  have hnext := (hp.placed hplace).1
  have hone := hp.sound.place hplace
  have hlt : host < files.length := by
    rw [hfiles, ← hone.hosts_eq]
    exact hone.sound.host_lt _ _ hone.host?
  have hline : ∃ e, placeLine files placer line d = .ok next e := by
    simp only [placeLine, hplace]
    rw [Step.bind_of_ok (tell_eq_ok.mpr rfl),
      Step.bind_of_ok (Step.ofOption_eq_ok.mpr ⟨List.getElem?_eq_getElem hlt, rfl⟩),
      Step.bind_of_ok (appendFile_apply _ _ _)]
    exact ⟨_, rfl⟩
  obtain ⟨e, he⟩ := hline
  exact ⟨next, e, he, hnext, hfiles.trans hone.hosts_eq.symm⟩

theorem exists_foldlM_placeLine (hp : placer.Books) (hfiles : files.length = placer.hosts)
    (hfits : ∀ line ∈ lines, line.node + 1 < UInt64.size) (d : Desk) :
    ∃ final e, lines.foldlM (placeLine files) placer d = .ok final e := by
  obtain ⟨final, e, h, -⟩ := Step.exists_foldlM_eq_ok
    (fun p line hline d (hp : p.Books ∧ files.length = p.hosts) =>
      exists_placeLine hp.1 hp.2 (hfits line hline) d) ⟨hp, hfiles⟩ d
  exact ⟨final, e, h⟩

end Copying

/-- The files of the hosts can be created and the lines copied to them; the files are then read as the
lines on each host, also when the node map has been saved. -/
theorem exists_copied {σ : Type} [Random.Source σ] {placer : GroupPlacer σ} (hp : placer.Books)
    (hhosts : placer.hosts = cfg.hosts)
    (hapart : d.store.Apart (nodeMap :: (List.range cfg.hosts).map (partName parts)))
    (hcreate : d.store.CanCreate (nodeMap :: (List.range cfg.hosts).map (partName parts)))
    (hfits : ∀ line ∈ lines, line.node + 1 < UInt64.size) :
    ∃ files created hosts final copied mapAt,
      (List.range cfg.hosts).mapM (fun host => createFile (partName parts host)) d = .ok files created ∧
      lines.foldlM (placeLine files) placer created = .ok final copied ∧
      GroupPlacer.placeAll (lines.map Listing.GroupLine.group) placer = .ok hosts final ∧
      copied.store.destination nodeMap = .ok mapAt ∧
      ∀ mapped, ∀ host < cfg.hosts, (copied.store.put mapAt mapped).read (partName parts host) =
        .ok (copyOf (linesOn final.assignment host lines)).toUTF8 := by
  obtain ⟨files, created, hcreated⟩ := exists_createFiles fun host hhost =>
    hcreate.exists_destination (List.mem_cons_of_mem _ (List.mem_map_of_mem (f := partName parts) hhost))
  obtain ⟨hcreating, hlocations, hempty, -⟩ := mapM_createFile hcreated
  have hcount : files.length = placer.hosts := by
    simpa [hhosts] using congrArg List.length hlocations
  obtain ⟨final, copied, hcopied⟩ := exists_foldlM_placeLine hp hcount hfits created
  have hnodup : files.Nodup := by
    refine nodup_of_apart (List.pairwise_cons.mp hapart).2 ?_
    rw [hlocations, List.map_map]
    rfl
  obtain ⟨⟨hosts, hall⟩, hgains⟩ :=
    foldlM_placeLine hnodup hp.sound (fun l hl => ⟨_, hempty l hl⟩) hcopied
  have hsame := hcreating.trans hgains.folders
  obtain ⟨mapAt, hmapAt⟩ := hcreate.exists_destination List.mem_cons_self
  have hmap := hsame.destination.mp hmapAt
  refine ⟨files, created, hosts, final, copied, mapAt, hcreated, hcopied, hall, hmap, ?_⟩
  intro mapped host hhost
  obtain ⟨l, hl, hreadBack⟩ := read_partName mapped hapart hlocations hsame hmap hhost
  rw [hreadBack _ (hgains.content host l .empty hl (hempty l (List.mem_of_getElem? hl))),
    ByteArray.empty_append]

/-! ## Reaching the cuts -/

/-- How many slots an assignment of the nodes of some lines has: one for each line, and more if there is
a larger node. -/
def slotsFor (lines : List Listing.GroupLine) : Nat :=
  (lines.map fun line => line.node + 1).foldl max lines.length

/-- Whether there are groups to place, and the configuration for it. -/
structure Ready (cfg : Config) (content : ByteArray) (lines : List Listing.GroupLine) : Prop where
  read : Listing.allGroups content = .ok lines
  valid : cfg.validate = .ok ()
  nonempty : lines ≠ []

/-- Whether a store holds the files that come of an outcome: the lines on each host, and the node map. -/
structure Holds (cfg : Config) (nodeMap parts : String) (lines : List Listing.GroupLine)
    (o : GroupOutcome) (s : Store) : Prop where
  parts : ∀ host < cfg.hosts,
    s.read (partName parts host) = .ok (copyOf (linesOn o.assignment host lines)).toUTF8
  nodeMap : s.read nodeMap = .ok (Listing.writeNodeMap o.assignment).toUTF8

/-- **A job with groups to place** writes all its files, and comes to what counting the cuts comes to. -/
theorem placeGroups_of_ready
    (hapart : desk.store.Apart (nodeMap :: (List.range cfg.hosts).map (partName parts)))
    (hcreate : desk.store.CanCreate (nodeMap :: (List.range cfg.hosts).map (partName parts)))
    (hread : desk.store.read listing = .ok content) (hready : Ready cfg content lines)
    (hfits : ∀ line ∈ lines, line.node + 1 < UInt64.size) :
    let done := placeGroups cfg listing nodeMap parts desk
    let edges := lines.flatMap Listing.GroupLine.ends
    ∃ o, GroupPlacer.partition cfg (lines.map Listing.GroupLine.group) = .ok o ∧
      o.assignment.size = slotsFor lines ∧ Holds cfg nodeMap parts lines o (Step.after done).store ∧
      Step.outcome done = (fun cuts => ⟨o, edges.length, cuts⟩) <$> o.assignment.tally edges := by
  intro done edges
  obtain ⟨placer, hplacer⟩ := GroupPlacer.exists_ofConfig_iff.mpr
    ⟨hready.valid, fun h => hready.nonempty (List.length_eq_zero_iff.mp h)⟩
  obtain ⟨-, hhosts, hempties⟩ := GroupPlacer.start_eq_ok hplacer
  have hbooks := GroupPlacer.books_of_start hplacer
  let begun : Desk := { desk with
    journal := desk.journal ++ groupListingEvents lines edges.length ++ [placer.startEvent lines.length] }
  obtain ⟨files, created, hosts, final, copied, mapAt, hcreated, hcopied, hall, hmap, hparts⟩ :=
    exists_copied (d := begun) hbooks hhosts hapart hcreate hfits
  have hsaved : ∀ journal, saveNodeMap nodeMap final.outcome.assignment ⟨copied.store, journal⟩ =
      .ok () ⟨copied.store.put mapAt (Listing.writeNodeMap final.assignment).toUTF8, journal⟩ :=
    fun _ => saveNodeMap_eq_ok.mpr ⟨mapAt, hmap, rfl⟩
  have hdone : (Step.after done).store =
        copied.store.put mapAt (Listing.writeNodeMap final.assignment).toUTF8 ∧
      Step.outcome done = (fun cuts => ⟨final.outcome, edges.length, cuts⟩) <$>
        final.outcome.assignment.tally edges := by
    show (Step.after (placeGroups cfg listing nodeMap parts desk)).store = _ ∧
      Step.outcome (placeGroups cfg listing nodeMap parts desk) = _
    rw [placeGroups, Step.bind_of_ok (readFile_eq_ok.mpr ⟨hread, rfl⟩),
      Step.bind_of_ok (Step.ofExcept_eq_ok.mpr ⟨hready.read, rfl⟩)]
    dsimp only
    rw [Step.bind_of_ok (tell_eq_ok.mpr rfl), Step.bind_of_ok (Step.ofExcept_eq_ok.mpr ⟨hplacer, rfl⟩),
      Step.bind_of_ok (tell_eq_ok.mpr rfl), Step.bind_of_ok hcreated, Step.bind_of_ok hcopied,
      Step.bind_of_ok (tell_eq_ok.mpr rfl), Step.bind_of_ok (hsaved _), Assignment.tallyInParts_eq]
    cases final.outcome.assignment.tally edges with
    | error fault => exact ⟨rfl, rfl⟩
    | ok cuts => exact ⟨rfl, rfl⟩
  obtain ⟨hstore, houtcome⟩ := hdone
  refine ⟨final.outcome, ?_, ?_, ?_, houtcome⟩
  · refine GroupPlacer.partition_eq_ok.mpr ⟨placer, hosts, final, ?_, hall, rfl⟩
    rw [List.length_map]
    exact hplacer
  · have hnodes : ∀ g ∈ lines.map Listing.GroupLine.group, g.node + 1 < UInt64.size :=
      List.forall_mem_map.mpr hfits
    obtain ⟨_, final', hall', -, -, hsize⟩ := hbooks.placeAll hnodes
    rw [hall] at hall'
    cases hall'
    show final.assignment.size = slotsFor lines
    rw [hsize, hempties, Assignment.size_ofSize, List.map_map]
    rfl
  · rw [hstore]
    exact ⟨hparts _, Store.read_put_self hmap _⟩

theorem placeGroups_of_not_ready (hread : desk.store.read listing = .ok content)
    (h : ¬∃ lines, Ready cfg content lines) :
    let done := placeGroups cfg listing nodeMap parts desk
    (∃ fault, Step.outcome done = .error fault) ∧ (Step.after done).store = desk.store := by
  intro done
  show (∃ fault, Step.outcome (placeGroups cfg listing nodeMap parts desk) = .error fault) ∧
    (Step.after (placeGroups cfg listing nodeMap parts desk)).store = desk.store
  rw [placeGroups, Step.bind_of_ok (readFile_eq_ok.mpr ⟨hread, rfl⟩)]
  cases hlines : Listing.allGroups content with
  | error fault =>
      rw [Step.bind_of_error (Step.ofExcept_eq_error.mpr ⟨rfl, rfl⟩)]
      exact ⟨⟨fault, rfl⟩, rfl⟩
  | ok lines =>
      rw [Step.bind_of_ok (Step.ofExcept_eq_ok.mpr ⟨rfl, rfl⟩)]
      dsimp only
      rw [Step.bind_of_ok (tell_eq_ok.mpr rfl)]
      cases hplacer : GroupPlacer.ofConfig cfg lines.length with
      | error fault =>
          rw [Step.bind_of_error (Step.ofExcept_eq_error.mpr ⟨rfl, rfl⟩)]
          exact ⟨⟨fault, rfl⟩, rfl⟩
      | ok placer =>
          obtain ⟨hvalid, hlength⟩ := GroupPlacer.exists_ofConfig_iff.mp ⟨placer, hplacer⟩
          refine absurd ⟨lines, hlines, hvalid, ?_⟩ h
          rintro rfl
          exact hlength rfl

/-! ## Endpoints -/

theorem le_foldl_max (start : Nat) (ns : List Nat) :
    start ≤ ns.foldl max start ∧ ∀ n ∈ ns, n ≤ ns.foldl max start := by
  induction ns generalizing start with
  | nil => simp
  | cons m ns ih =>
      obtain ⟨hstart, hns⟩ := ih (max start m)
      rw [List.foldl_cons]
      refine ⟨by omega, fun n hn => ?_⟩
      rcases List.mem_cons.mp hn with rfl | hn
      · omega
      · exact hns n hn

theorem node_lt_slotsFor {line : Listing.GroupLine} (h : line ∈ lines) : line.node < slotsFor lines :=
  (le_foldl_max _ _).2 _ (List.mem_map_of_mem h)

/-- The edges of all lines, with the node of their line as the source. -/
theorem mem_ends_iff (hlines : Listing.allGroups content = .ok lines) {v w : Nat} :
    (v, w) ∈ lines.flatMap Listing.GroupLine.ends ↔
      ∃ line ∈ lines, v = line.node ∧ ∃ e ∈ line.edges, w = e.dst := by
  rw [List.mem_flatMap]
  refine exists_congr fun line => and_congr_right fun hline => ?_
  obtain ⟨-, number, hread⟩ := Listing.readGroup_of_mem_allGroups hlines hline
  rw [Listing.GroupLine.ends, List.mem_map]
  constructor
  · rintro ⟨e, he, hends⟩
    cases hends
    exact ⟨Listing.src_of_readGroup hread e he, e, he, rfl⟩
  · rintro ⟨rfl, e, he, rfl⟩
    refine ⟨e, he, ?_⟩
    rw [Edge.ends, Listing.src_of_readGroup hread e he]

/-- The edges of a listing can be counted exactly when each target has a slot. -/
theorem exists_tally_iff {a : Assignment} (hlines : Listing.allGroups content = .ok lines)
    (hsize : a.size = slotsFor lines) :
    (∃ cuts, a.tally (lines.flatMap Listing.GroupLine.ends) = .ok cuts) ↔
      ∀ line ∈ lines, ∀ e ∈ line.edges, e.dst < slotsFor lines := by
  simp only [Assignment.tally_eq_ok_iff, exists_and_left, exists_eq, and_true, Prod.forall,
    mem_ends_iff hlines, hsize]
  constructor
  · intro h line hline e he
    exact (h _ _ ⟨line, hline, rfl, e, he, rfl⟩).2
  · rintro h _ _ ⟨line, hline, rfl, e, he, rfl⟩
    exact ⟨node_lt_slotsFor hline, h line hline e he⟩

/-- When they cannot, then the count names a target without a slot. -/
theorem target_of_tally_eq_error {a : Assignment} {fault : Fault}
    (hlines : Listing.allGroups content = .ok lines) (hsize : a.size = slotsFor lines)
    (h : a.tally (lines.flatMap Listing.GroupLine.ends) = .error fault) :
    ∃ line ∈ lines, ∃ e ∈ line.edges, slotsFor lines ≤ e.dst ∧
      fault = .nodeOutOfRange e.dst (slotsFor lines) := by
  obtain ⟨⟨src, dst⟩, hends, v, hv, hle, rfl⟩ := Assignment.tally_eq_error h
  obtain ⟨line, hline, rfl, e, he, rfl⟩ := (mem_ends_iff hlines).mp hends
  rw [hsize] at hle ⊢
  have hnode := node_lt_slotsFor hline
  obtain rfl : v = e.dst := by
    rcases hv with rfl | rfl
    · exact absurd hle (by omega)
    · rfl
  exact ⟨line, hline, e, he, hle, rfl⟩

/-! ## When a job fails -/

theorem placeGroups_ends_iff
    (hapart : desk.store.Apart (nodeMap :: (List.range cfg.hosts).map (partName parts)))
    (hcreate : desk.store.CanCreate (nodeMap :: (List.range cfg.hosts).map (partName parts)))
    (hread : desk.store.read listing = .ok content)
    (hfits : ∀ lines, Listing.allGroups content = .ok lines → ∀ line ∈ lines, line.node + 1 < UInt64.size) :
    (∃ report, Step.outcome (placeGroups cfg listing nodeMap parts desk) = .ok report) ↔
      ∃ lines, Ready cfg content lines ∧ ∀ line ∈ lines, ∀ e ∈ line.edges, e.dst < slotsFor lines := by
  constructor
  · rintro ⟨report, hreport⟩
    by_cases hsome : ∃ lines, Ready cfg content lines
    · obtain ⟨lines, hready⟩ := hsome
      obtain ⟨o, -, hsize, -, houtcome⟩ :=
        placeGroups_of_ready hapart hcreate hread hready (hfits lines hready.read)
      rw [hreport] at houtcome
      cases htally : o.assignment.tally (lines.flatMap Listing.GroupLine.ends) with
      | ok cuts => exact ⟨lines, hready, (exists_tally_iff hready.read hsize).mp ⟨cuts, htally⟩⟩
      | error fault =>
          rw [htally] at houtcome
          cases houtcome
    · obtain ⟨⟨fault, hfault⟩, -⟩ := placeGroups_of_not_ready hread hsome
      cases hreport.symm.trans hfault
  · rintro ⟨lines, hready, hslots⟩
    obtain ⟨o, -, hsize, -, houtcome⟩ :=
      placeGroups_of_ready hapart hcreate hread hready (hfits lines hready.read)
    obtain ⟨cuts, htally⟩ := (exists_tally_iff hready.read hsize).mpr hslots
    rw [htally] at houtcome
    exact ⟨_, houtcome⟩

/-- A target without a slot is found out in the end, be it this one or another. -/
theorem placeGroups_of_missing_target
    (hapart : desk.store.Apart (nodeMap :: (List.range cfg.hosts).map (partName parts)))
    (hcreate : desk.store.CanCreate (nodeMap :: (List.range cfg.hosts).map (partName parts)))
    (hread : desk.store.read listing = .ok content) (hready : Ready cfg content lines)
    (hfits : ∀ line ∈ lines, line.node + 1 < UInt64.size)
    (hmissing : ∃ line ∈ lines, ∃ e ∈ line.edges, slotsFor lines ≤ e.dst) :
    ∃ line ∈ lines, ∃ e ∈ line.edges, slotsFor lines ≤ e.dst ∧
      Step.outcome (placeGroups cfg listing nodeMap parts desk) =
        .error (.nodeOutOfRange e.dst (slotsFor lines)) := by
  obtain ⟨o, -, hsize, -, houtcome⟩ := placeGroups_of_ready hapart hcreate hread hready hfits
  cases htally : o.assignment.tally (lines.flatMap Listing.GroupLine.ends) with
  | ok cuts =>
      obtain ⟨line, hline, e, he, hle⟩ := hmissing
      have hlt := (exists_tally_iff hready.read hsize).mp ⟨cuts, htally⟩ line hline e he
      omega
  | error fault =>
      rw [htally] at houtcome
      obtain ⟨line, hline, e, he, hle, rfl⟩ := target_of_tally_eq_error hready.read hsize htally
      exact ⟨line, hline, e, he, hle, houtcome⟩

/-- **A job on a group listing fails**, if no group is that of the last word, exactly when a line of the
listing can be read neither as a group nor as blank, the configuration is refused, there is no group, or an
edge goes to a node without a slot.  In the last case the fault names such a node, and the store holds the
same files as after a job that ends; in all others the store is as it was. -/
theorem placeGroups_fails_exactly
    (hapart : desk.store.Apart (nodeMap :: (List.range cfg.hosts).map (partName parts)))
    (hcreate : desk.store.CanCreate (nodeMap :: (List.range cfg.hosts).map (partName parts)))
    (hread : desk.store.read listing = .ok content)
    (hfits : ∀ lines, Listing.allGroups content = .ok lines → ∀ line ∈ lines, line.node + 1 < UInt64.size) :
    let done := placeGroups cfg listing nodeMap parts desk
    ((∃ lines, Listing.allGroups content = .ok lines) ↔
      ∀ k line, (Text.lines content)[k]? = some line → ∃ text, line = some text ∧
        (Text.fields text = [] ∨ ∃ g, Listing.readGroup (k + 1) text = .ok (some g))) ∧
    ((∃ report, Step.outcome done = .ok report) ↔ ∃ lines, Ready cfg content lines ∧
      ∀ line ∈ lines, ∀ e ∈ line.edges, e.dst < slotsFor lines) ∧
    (∀ lines, Ready cfg content lines →
      ∃ o, GroupPlacer.partition cfg (lines.map Listing.GroupLine.group) = .ok o ∧
        Holds cfg nodeMap parts lines o (Step.after done).store ∧
        ((∃ line ∈ lines, ∃ e ∈ line.edges, slotsFor lines ≤ e.dst) →
          ∃ line ∈ lines, ∃ e ∈ line.edges, slotsFor lines ≤ e.dst ∧
            Step.outcome done = .error (.nodeOutOfRange e.dst (slotsFor lines)))) ∧
    ((¬∃ lines, Ready cfg content lines) →
      (∃ fault, Step.outcome done = .error fault) ∧ (Step.after done).store = desk.store) := by
  intro done
  refine ⟨Listing.exists_allGroups_iff, placeGroups_ends_iff hapart hcreate hread hfits, ?_,
    placeGroups_of_not_ready hread⟩
  intro lines hready
  have hfit := hfits lines hready.read
  obtain ⟨o, hpartition, -, hholds, -⟩ := placeGroups_of_ready hapart hcreate hread hready hfit
  exact ⟨o, hpartition, hholds, placeGroups_of_missing_target hapart hcreate hread hready hfit⟩

/-- Two groups, and an edge to a node that neither of them gives a slot to. -/
theorem placeGroups_fails_exactly_on_missing_target :
    let desk : Desk := ⟨.ofFiles [("groups", "0 2 1 5\n\n1 1 0\n".toUTF8), ("map", "kept\n".toUTF8)], #[]⟩
    let done := placeGroups {} "groups" "map" "part" desk
    ∃ lines o, GroupPlacer.partition {} (lines.map Listing.GroupLine.group) = .ok o ∧
      Holds {} "map" "part" lines o (Step.after done).store ∧
      Step.outcome done = .error (.nodeOutOfRange 5 2) := by
  intro desk done
  let lines : List Listing.GroupLine :=
    [⟨0, [⟨0, 1, 1.0⟩, ⟨0, 5, 1.0⟩], false, "0 2 1 5"⟩, ⟨1, [⟨1, 0, 1.0⟩], false, "1 1 0"⟩]
  have hapart : desk.store.Apart ("map" :: (List.range ({} : Config).hosts).map (partName "part")) := by
    decide +kernel
  have hcreate : desk.store.CanCreate ("map" :: (List.range ({} : Config).hosts).map (partName "part")) := by
    decide +kernel
  have hread : desk.store.read "groups" = .ok "0 2 1 5\n\n1 1 0\n".toUTF8 := by decide +kernel
  have hready : Ready {} "0 2 1 5\n\n1 1 0\n".toUTF8 lines :=
    ⟨by decide +kernel, by decide +kernel, List.cons_ne_nil _ _⟩
  have hfits : ∀ lines', Listing.allGroups "0 2 1 5\n\n1 1 0\n".toUTF8 = .ok lines' →
      ∀ line ∈ lines', line.node + 1 < UInt64.size := by
    intro lines' hlines'
    obtain rfl : lines = lines' := Except.ok.inj (hready.read.symm.trans hlines')
    decide
  obtain ⟨-, -, hfiles, -⟩ := placeGroups_fails_exactly hapart hcreate hread hfits
  obtain ⟨o, hpartition, hholds, hmissing⟩ := hfiles lines hready
  refine ⟨lines, o, hpartition, hholds, ?_⟩
  have hslots : slotsFor lines = 2 := by decide
  have htargets : ∀ line ∈ lines, ∀ e ∈ line.edges, 2 ≤ e.dst → e.dst = 5 := by decide
  rw [hslots] at hmissing
  obtain ⟨line, hline, e, he, hle, hfault⟩ :=
    hmissing ⟨_, List.mem_cons_self, ⟨0, 5, 1.0⟩, by simp, by decide⟩
  rw [htargets line hline e he hle] at hfault
  exact hfault

end Job

end GraphPlacement
