import GraphPlacement.Job.Groups
import GraphPlacement.Proofs.Files
import GraphPlacement.Proofs.Groups.Placing
import GraphPlacement.Proofs.Listing.Groups
import GraphPlacement.Proofs.Listing.Written

/-!
# From a group listing to the files of the hosts

**Creating.** The files of the hosts are created one after the other, and are different files if their
names lead apart (`mapM_createFile`).

**Copying.** Each line goes to the file of the host that placing its node gave, and the other files gain
nothing (`Gains`).  Since no node moves, that is the host of its node in the end, so what a file has
gained when all lines are copied can be told from the outcome: `foldlM_placeLine`.

**Reading back.** The files are written as they should be, and are read back as the groups that were
copied to them: `placeGroups_agrees_with_files`.
-/

namespace GraphPlacement.Job

variable {cfg : Config} {listing nodeMap parts : String} {desk after d e : Desk} {report : GroupReport}
variable {lines : List Listing.GroupLine} {files : List Location}

/-! ## Creating the files -/

theorem mapM_createFile {name : Nat → String} {hosts : List Nat}
    (h : hosts.mapM (fun host => createFile (name host)) d = .ok files e) :
    d.store.SameFolders e.store ∧
      files.map Except.ok = hosts.map (fun host => d.store.destination (name host)) ∧
      (∀ l ∈ files, e.store.content? l = some .empty) ∧
      ∀ l, l ∉ files → e.store.content? l = d.store.content? l := by
  induction hosts generalizing d files with
  | nil =>
      cases h
      exact ⟨.refl _, rfl, by simp, fun _ _ => rfl⟩
  | cons host hosts ih =>
      rw [List.mapM_cons] at h
      obtain ⟨l, _, hcreate, hrest⟩ := Step.bind_eq_ok.mp h
      obtain ⟨hl, rfl⟩ := createFile_eq_ok.mp hcreate
      obtain ⟨later, _, hlater, hdone⟩ := Step.bind_eq_ok.mp hrest
      cases hdone
      have hno := (Store.destination_eq_ok.mp hl).2.1
      have hput := Store.sameFolders_put hno .empty
      obtain ⟨hfolders, hlocations, hempty, hkept⟩ := ih hlater
      refine ⟨hput.trans hfolders, ?_, ?_, ?_⟩
      · rw [List.map_cons, List.map_cons, hl, hlocations]
        refine congrArg _ (List.map_congr_left fun other hother => ?_)
        have hmem : (d.store.put l .empty).destination (name other) ∈ later.map Except.ok := by
          rw [hlocations]
          exact List.mem_map_of_mem hother
        obtain ⟨m, -, hm⟩ := List.mem_map.mp hmem
        exact hm.symm.trans (hput.destination.mpr hm.symm).symm
      · intro m hm
        by_cases hmem : m ∈ later
        · exact hempty m hmem
        · obtain rfl : m = l := (List.mem_cons.mp hm).resolve_right hmem
          rw [hkept m hmem]
          exact Store.content?_put_self hno
      · intro m hm
        rw [List.mem_cons, not_or] at hm
        rw [hkept m hm.2]
        exact Store.content?_put_of_ne hm.1

theorem nodup_of_apart {names : List String} (hapart : d.store.Apart names)
    (hfiles : files.map Except.ok = names.map d.store.destination) : files.Nodup := by
  have hdestinations : (names.map d.store.destination).Pairwise
      fun a b => ∀ l, a = .ok l → b ≠ .ok l := by
    refine List.pairwise_map.mpr (hapart.imp ?_)
    intro x y hxy l hx hy
    exact hxy ⟨l, (Store.destination_eq_ok.mp hx).1, (Store.destination_eq_ok.mp hy).1⟩
  rw [← hfiles] at hdestinations
  refine (List.pairwise_map.mp hdestinations).imp ?_
  intro l m hlm heq
  exact hlm l rfl (congrArg _ heq.symm)

/-! ## Copying the lines -/

/-- The lines whose node is on a host. -/
def linesOn (a : Assignment) (host : Nat) (lines : List Listing.GroupLine) : List Listing.GroupLine :=
  lines.filter fun line => a.host? line.node = some host

/-- Some lines as they are copied to a file. -/
def copyOf (lines : List Listing.GroupLine) : String :=
  String.join (lines.map fun line => line.text ++ "\n")

theorem copyOf_linesOn_cons {a : Assignment} {host : Nat} {line : Listing.GroupLine}
    (h : a.host? line.node = some host) (lines : List Listing.GroupLine) (other : Nat) :
    copyOf (linesOn a other (line :: lines)) =
      (if host = other then line.text ++ "\n" else "") ++ copyOf (linesOn a other lines) := by
  by_cases hother : host = other
  · rw [if_pos hother, linesOn, List.filter_cons_of_pos (by simp [h, hother])]
    simp [copyOf, linesOn]
  · rw [if_neg hother, linesOn, List.filter_cons_of_neg (by simp [h, hother])]
    simp [copyOf, linesOn]

/-- What files gain from one store to another: the file of each host has a text added at its end, and all
other files stay as they are. -/
structure Gains (files : List Location) (s : Store) (text : Nat → String) (t : Store) : Prop where
  folders : s.SameFolders t
  content : ∀ host l before, files[host]? = some l → s.content? l = some before →
    t.content? l = some (before ++ (text host).toUTF8)
  kept : ∀ l, l ∉ files → t.content? l = s.content? l

theorem Gains.refl (files : List Location) (s : Store) : Gains files s (fun _ => "") s where
  folders := .refl s
  content host l before _ hbefore := by
    rw [hbefore, show ("" : String).toUTF8 = .empty from rfl, ByteArray.append_empty]
  kept _ _ := rfl

theorem Gains.trans {s t u : Store} {first second : Nat → String} (h : Gains files s first t)
    (h' : Gains files t second u) : Gains files s (fun host => first host ++ second host) u where
  folders := h.folders.trans h'.folders
  content host l before hl hbefore := by
    rw [h'.content host l _ hl (h.content host l before hl hbefore), ByteArray.append_assoc]
    simp [String.toUTF8_eq_toByteArray]
  kept l hl := (h'.kept l hl).trans (h.kept l hl)

/-- Adding a text to the file of one host is no gain for the others. -/
theorem gains_append {s : Store} {host : Nat} {l : Location} {before : ByteArray} (hfiles : files.Nodup)
    (hl : files[host]? = some l) (hbefore : s.content? l = some before) (text : String) :
    Gains files s (fun other => if host = other then text else "") (s.append l text.toUTF8) where
  folders := Store.sameFolders_append hbefore _
  content other m content hm hcontent := by
    by_cases hother : host = other
    · subst hother
      obtain rfl : l = m := Option.some.inj (hl.symm.trans hm)
      rw [if_pos rfl, Store.content?_append_self hcontent]
    · have hml : m ≠ l := by
        rintro rfl
        have hlt := (List.getElem?_eq_some_iff.mp hl).1
        exact hother ((List.getElem?_inj hlt hfiles).mp (hl.trans hm.symm))
      rw [if_neg hother, Store.content?_append_of_ne hml, hcontent,
        show ("" : String).toUTF8 = .empty from rfl, ByteArray.append_empty]
  kept m hm := by
    refine Store.content?_append_of_ne ?_ _
    rintro rfl
    exact hm (List.mem_of_getElem? hl)

section Copying

variable {σ : Type} [Random.Source σ] {placer final next : GroupPlacer σ} {line : Listing.GroupLine}

theorem placeLine_eq_ok (h : placeLine files placer line d = .ok next e) :
    ∃ host l, GroupPlacer.place line.group placer = .ok host next ∧ files[host]? = some l ∧
      e.store = d.store.append l (line.text ++ "\n").toUTF8 := by
  cases hplace : GroupPlacer.place line.group placer with
  | error fault placed =>
      simp only [placeLine, hplace] at h
      cases h
  | ok host placed =>
      simp only [placeLine, hplace] at h
      obtain ⟨_, _, hdo, hcopied⟩ := Step.bind_eq_ok.mp h
      obtain rfl := tell_eq_ok.mp hdo
      obtain ⟨l, _, hdo, happended⟩ := Step.bind_eq_ok.mp hcopied
      obtain ⟨hl, rfl⟩ := Step.ofOption_eq_ok.mp hdo
      obtain ⟨_, _, hdo, hdone⟩ := Step.bind_eq_ok.mp happended
      cases hdo
      cases hdone
      exact ⟨host, l, rfl, hl, rfl⟩

/-- **Copying the lines** places their groups, and adds to the file of each host the lines whose node is
on it in the end. -/
theorem foldlM_placeLine (hfiles : files.Nodup) (hp : placer.Sound)
    (hfound : ∀ l ∈ files, ∃ content, d.store.content? l = some content)
    (h : lines.foldlM (placeLine files) placer d = .ok final e) :
    (∃ hosts, GroupPlacer.placeAll (lines.map Listing.GroupLine.group) placer = .ok hosts final) ∧
      Gains files d.store (fun host => copyOf (linesOn final.assignment host lines)) e.store := by
  induction lines generalizing placer d with
  | nil =>
      cases h
      exact ⟨⟨[], rfl⟩, .refl _ _⟩
  | cons line lines ih =>
      rw [List.foldlM_cons] at h
      obtain ⟨next, middle, hline, hrest⟩ := Step.bind_eq_ok.mp h
      obtain ⟨host, l, hplace, hl, hstore⟩ := placeLine_eq_ok hline
      have hone := hp.place hplace
      obtain ⟨before, hbefore⟩ := hfound l (List.mem_of_getElem? hl)
      have hgain := gains_append hfiles hl hbefore (line.text ++ "\n")
      rw [← hstore] at hgain
      have hstill : ∀ m ∈ files, ∃ content, middle.store.content? m = some content := by
        intro m hm
        obtain ⟨other, hother⟩ := List.mem_iff_getElem?.mp hm
        obtain ⟨content, hcontent⟩ := hfound m hm
        exact ⟨_, hgain.content other m content hother hcontent⟩
      obtain ⟨⟨hosts, hall⟩, hlater⟩ := ih hone.sound hstill hrest
      refine ⟨⟨host :: hosts, ?_⟩, ?_⟩
      · exact GroupPlacer.placeAll_cons_eq_ok.mpr ⟨host, next, hosts, hplace, hall, rfl⟩
      · -- the node of the line is still on its host when all lines have been placed
        have hhost : final.assignment.host? line.node = some host :=
          (hone.sound.placeAll hall).le _ _ hone.host?
        rw [funext (copyOf_linesOn_cons hhost lines)]
        exact hgain.trans hlater

end Copying

/-! ## Jobs -/

/-- What a job on a group listing goes through: the listing is read, the files are created, the lines are
copied, the node map is written, and the cuts are counted. -/
theorem placeGroups_stages (h : placeGroups cfg listing nodeMap parts desk = .ok report after) :
    ∃ content lines, ∃ placer final : GroupPlacer Random.Xoshiro, ∃ files mapAt,
      ∃ begun created copied : Desk,
      desk.store.read listing = .ok content ∧ Listing.allGroups content = .ok lines ∧
      GroupPlacer.ofConfig cfg lines.length = .ok placer ∧ begun.store = desk.store ∧
      (List.range cfg.hosts).mapM (fun host => createFile (partName parts host)) begun =
        .ok files created ∧
      lines.foldlM (placeLine files) placer created = .ok final copied ∧
      report.outcome = final.outcome ∧ copied.store.destination nodeMap = .ok mapAt ∧
      after.store = copied.store.put mapAt (Listing.writeNodeMap final.assignment).toUTF8 ∧
      report.edges = (lines.flatMap Listing.GroupLine.ends).length ∧
      final.assignment.tallyInParts (lines.flatMap Listing.GroupLine.ends) = .ok report.cuts := by
  obtain ⟨content, _, hdo, hgrouped⟩ := Step.bind_eq_ok.mp h
  obtain ⟨hread, rfl⟩ := readFile_eq_ok.mp hdo
  obtain ⟨lines, _, hdo, htold⟩ := Step.bind_eq_ok.mp hgrouped
  obtain ⟨hlines, rfl⟩ := Step.ofExcept_eq_ok.mp hdo
  obtain ⟨_, _, hdo, hbegun⟩ := Step.bind_eq_ok.mp htold
  obtain rfl := tell_eq_ok.mp hdo
  obtain ⟨placer, _, hdo, hstarted⟩ := Step.bind_eq_ok.mp hbegun
  obtain ⟨hplacer, rfl⟩ := Step.ofExcept_eq_ok.mp hdo
  obtain ⟨_, begun, hdo, hcreating⟩ := Step.bind_eq_ok.mp hstarted
  have hbegunStore : begun.store = desk.store := by rw [tell_eq_ok.mp hdo]
  obtain ⟨files, created, hcreate, hcopying⟩ := Step.bind_eq_ok.mp hcreating
  obtain ⟨final, copied, hcopy, hended⟩ := Step.bind_eq_ok.mp hcopying
  obtain ⟨_, told, hdo, hsaving⟩ := Step.bind_eq_ok.mp hended
  have htoldStore : told.store = copied.store := by rw [tell_eq_ok.mp hdo]
  obtain ⟨_, saved, hdo, hcut⟩ := Step.bind_eq_ok.mp hsaving
  obtain ⟨mapAt, hmap, rfl⟩ := saveNodeMap_eq_ok.mp hdo
  obtain ⟨cuts, _, hdo, htelling⟩ := Step.bind_eq_ok.mp hcut
  obtain ⟨hcuts, rfl⟩ := Step.ofExcept_eq_ok.mp hdo
  obtain ⟨_, _, hdo, hreport⟩ := Step.bind_eq_ok.mp htelling
  obtain rfl := tell_eq_ok.mp hdo
  cases hreport
  rw [htoldStore] at hmap
  refine ⟨content, lines, placer, final, files, mapAt, begun, created, copied, hread, hlines, hplacer,
    hbegunStore, hcreate, hcopy, rfl, hmap, ?_, rfl, hcuts⟩
  rw [← htoldStore]
  rfl

/-- The content of the file of each host is read under its name, also after the node map is written. -/
theorem read_partName {copied : Desk} {mapAt : Location} (mapped : ByteArray)
    (hapart : desk.store.Apart (nodeMap :: (List.range cfg.hosts).map (partName parts)))
    (hlocations : files.map Except.ok =
      (List.range cfg.hosts).map fun host => desk.store.destination (partName parts host))
    (hsame : desk.store.SameFolders copied.store) (hmap : copied.store.destination nodeMap = .ok mapAt)
    {host : Nat} (hhost : host < cfg.hosts) :
    ∃ l, files[host]? = some l ∧ ∀ content, copied.store.content? l = some content →
      (copied.store.put mapAt mapped).read (partName parts host) = .ok content := by
  have hentry : (files.map Except.ok)[host]? = some (desk.store.destination (partName parts host)) := by
    rw [hlocations, List.getElem?_map, List.getElem?_range hhost, Option.map_some]
  rw [List.getElem?_map, Option.map_eq_some_iff] at hentry
  obtain ⟨l, hl, hdestination⟩ := hentry
  obtain ⟨hlocate, -, hasks⟩ := Store.destination_eq_ok.mp hdestination.symm
  obtain ⟨hmapAt, hmapNo, -⟩ := Store.destination_eq_ok.mp hmap
  refine ⟨l, hl, fun content hcontent => ?_⟩
  have hread : copied.store.read (partName parts host) = .ok content :=
    Store.read_eq_ok.mpr ⟨l, hsame.locate.mp hlocate, hcontent, hasks⟩
  have hmem : partName parts host ∈ (List.range cfg.hosts).map (partName parts) :=
    List.mem_map_of_mem (List.mem_range.mpr hhost)
  refine Store.read_put_of_ne hmapNo hread ?_ mapped
  intro hother
  exact (List.pairwise_cons.mp hapart).1 _ hmem
    ⟨mapAt, hsame.locate.mpr hmapAt, hsame.locate.mpr hother⟩

/-- What is written of the assignment of a finished job can be read. -/
theorem fits_of_placesAll {σ : Type} {placer final : GroupPlacer σ} {content : ByteArray}
    (hlines : Listing.allGroups content = .ok lines) (hstart : ∀ v, placer.assignment.host? v = none)
    (hhosts : placer.hosts ≤ Text.signedBound)
    (hfinal : GroupPlacer.PlacesAll placer (lines.map Listing.GroupLine.group) final) :
    final.assignment.Fits := by
  intro v host hv
  have hhost : host < final.hosts := hfinal.sound.host_lt v host hv
  rw [hfinal.hosts_eq] at hhost
  refine ⟨?_, Nat.lt_of_lt_of_le hhost hhosts⟩
  rcases hfinal.only v host hv with ⟨g, hg, rfl⟩ | hbefore
  · obtain ⟨line, hline, rfl⟩ := List.mem_map.mp hg
    obtain ⟨-, number, hread⟩ := Listing.readGroup_of_mem_allGroups hlines hline
    exact Listing.node_lt_of_readGroup hread
  · rw [hstart] at hbefore
    cases hbefore

/-- **A job on a group listing loses, doubles and misplaces no line.**  Its outcome is that of placing the
groups of the listing; every node that comes is on a host; the file of a host holds the lines whose node
is on it, as they are and in order, and is read back as their groups; and the node map is read back as
the assignment of the outcome. -/
theorem placeGroups_agrees_with_files (hhosts : cfg.hosts ≤ Text.signedBound)
    (hapart : desk.store.Apart (nodeMap :: (List.range cfg.hosts).map (partName parts)))
    (h : placeGroups cfg listing nodeMap parts desk = .ok report after) :
    ∃ content lines,
      desk.store.read listing = .ok content ∧
      Listing.allGroups content = .ok lines ∧
      GroupPlacer.partition cfg (lines.map Listing.GroupLine.group) = .ok report.outcome ∧
      (∀ line ∈ lines, ∃ host < cfg.hosts, report.outcome.assignment.host? line.node = some host) ∧
      (∀ host < cfg.hosts,
        let mine := linesOn report.outcome.assignment host lines
        after.store.read (partName parts host) = .ok (copyOf mine).toUTF8 ∧
        ∃ again, Listing.allGroups (copyOf mine).toUTF8 = .ok again ∧
          again.map (fun g => (g.node, g.edges, g.weighted)) =
            mine.map fun g => (g.node, g.edges, g.weighted)) ∧
      Step.outcome (loadNodeMap nodeMap report.outcome.assignment.size after) =
        .ok report.outcome.assignment := by
  obtain ⟨content, lines, placer, final, files, mapAt, begun, created, copied, hread, hlines, hplacer,
    hbegun, hcreate, hcopy, houtcome, hmap, hafter, -, -⟩ := placeGroups_stages h
  obtain ⟨hcreating, hlocations, hempty, -⟩ := mapM_createFile hcreate
  rw [hbegun] at hcreating hlocations
  have hnodup : files.Nodup := by
    refine nodup_of_apart (List.pairwise_cons.mp hapart).2 ?_
    rw [hlocations, List.map_map]
    rfl
  obtain ⟨-, hhostCount, hempties⟩ := GroupPlacer.start_eq_ok hplacer
  have hsound := GroupPlacer.sound_of_start hplacer
  obtain ⟨⟨hosts, hall⟩, hgains⟩ :=
    foldlM_placeLine hnodup hsound (fun l hl => ⟨_, hempty l hl⟩) hcopy
  have hfinal := hsound.placeAll hall
  have hassignment : report.outcome.assignment = final.assignment := by rw [houtcome]; rfl
  rw [hassignment, hafter]
  have hsame := hcreating.trans hgains.folders
  refine ⟨content, lines, hread, hlines, ?_, ?_, ?_, ?_⟩
  · refine GroupPlacer.partition_eq_ok.mpr ⟨placer, hosts, final, ?_, hall, houtcome⟩
    rw [List.length_map]
    exact hplacer
  · intro line hline
    obtain ⟨host, hhost⟩ := hfinal.host? line.group (List.mem_map_of_mem hline)
    have hlt : host < final.hosts := hfinal.sound.host_lt _ _ hhost
    rw [hfinal.hosts_eq, hhostCount] at hlt
    exact ⟨host, hlt, hhost⟩
  · intro host hhost mine
    obtain ⟨l, hl, hreadBack⟩ := read_partName (Listing.writeNodeMap final.assignment).toUTF8 hapart
      hlocations hsame hmap hhost
    refine ⟨?_, _, Listing.allGroups_copy hlines fun g hg => (List.mem_filter.mp hg).1, ?_⟩
    · rw [hreadBack _ (hgains.content host l .empty hl (hempty l (List.mem_of_getElem? hl))),
        ByteArray.empty_append]
    · rw [List.map_map]
      rfl
  · have hfits : final.assignment.Fits := by
      refine fits_of_placesAll hlines ?_ ?_ hfinal
      · intro v
        rw [hempties, Assignment.host?_ofSize]
      · rw [hhostCount]
        exact hhosts
    have hmapped := Store.read_put_self hmap (Listing.writeNodeMap final.assignment).toUTF8
    rw [loadNodeMap_of_read (hafter ▸ hmapped), Listing.nodeMap_writeNodeMap hfinal.sound.counted hfits]
    rfl

/-- A node that comes twice, the second time on a line that ends with a carriage return, and a node
beyond the number of lines. -/
theorem placeGroups_agrees_with_files_on_repeats :
    let desk : Desk := ⟨.ofFiles [("groups", "0 1 7\n\n7 1 0\n0 2 7 1\r\n".toUTF8)], #[]⟩
    ∃ report after lines, placeGroups {} "groups" "map" "part" desk = .ok report after ∧
      GroupPlacer.partition {} (lines.map Listing.GroupLine.group) = .ok report.outcome ∧
      (∀ host < 2, after.store.read (partName "part" host) =
        .ok (copyOf (linesOn report.outcome.assignment host lines)).toUTF8) ∧
      Step.outcome (loadNodeMap "map" report.outcome.assignment.size after) =
        .ok report.outcome.assignment := by
  intro desk
  have hdone : (Step.outcome (placeGroups {} "groups" "map" "part" desk)).isOk = true := by
    decide +kernel
  cases hrun : placeGroups {} "groups" "map" "part" desk with
  | error fault after =>
      rw [hrun] at hdone
      cases hdone
  | ok report after =>
      obtain ⟨_, lines, -, -, hpartition, -, hfiles, hmap⟩ :=
        placeGroups_agrees_with_files (by decide) (by decide +kernel) hrun
      exact ⟨report, after, lines, rfl, hpartition, fun host hhost => (hfiles host hhost).1, hmap⟩

end GraphPlacement.Job
