import GraphPlacement.Proofs.Groups.Placing
import GraphPlacement.Proofs.Sizes
import GraphPlacement.Random.Counter

/-!
# The two books of a placement

**Two books.** Which node is on which host is kept twice: the assignment has the host of each node, and
each host has the set of its nodes.  The first is what becomes of the placement, the second is what the
scores are made from.

**Invariant.** Every call enters its node in both books or in neither, so they always agree (`Books`).
That is also why no call fails (`Books.placed`, `exists_place`): a node without a host is on no host in either
book, and it has a slot because the assignment grows first, up to any node but the last word.
-/

namespace GraphPlacement.GroupPlacer

variable {σ : Type} {p q : GroupPlacer σ} {host : Nat} {held : NodeSet}

/-- Whether the two books of a placer agree. -/
structure Books (p : GroupPlacer σ) : Prop where
  sound : p.Sound
  held : ∀ host held, p.held[host]? = some held → ∀ v, v ∈ held ↔ p.assignment.host? v = some host

theorem books_of_start {cfg : Config} {nodes : Nat} {source : σ}
    (h : start cfg nodes source = .ok p) : p.Books := by
  refine ⟨sound_of_start h, fun host held hheld v => ?_⟩
  obtain ⟨capacity, -, rfl⟩ := eq_of_start h
  rw [Array.eq_of_mem_replicate (Array.mem_of_getElem? hheld)]
  simp

theorem nodesOf_eq_ok : p.nodesOf host = .ok held ↔ p.held[host]? = some held := by
  unfold nodesOf
  cases p.held[host]? <;> simp

theorem exists_nodesOf (h : host < p.hosts) : ∃ held, p.nodesOf host = .ok held :=
  ⟨_, nodesOf_eq_ok.mpr (Array.getElem?_eq_getElem h)⟩

/-! ## Sizes -/

theorem Books.sizes_outcome (h : p.Books) : p.outcome.sizes = p.assignment.sizes p.hosts := by
  rw [Assignment.sizes_eq_map_nodesOn]
  refine List.ext_getElem? fun host => ?_
  rw [outcome, List.getElem?_map, List.getElem?_map, Array.getElem?_toList]
  by_cases hlt : host < p.hosts
  · obtain ⟨held, hheld⟩ := exists_nodesOf hlt
    rw [nodesOf_eq_ok] at hheld
    have hmem : ∀ v, v ∈ held.toList ↔ p.assignment.host? v = some host := by
      intro v
      rw [Std.ExtTreeSet.mem_toList, h.held host held hheld]
    have hsize := Assignment.length_eq_nodesOn held.nodup_toList hmem
    rw [Std.ExtTreeSet.length_toList] at hsize
    simp [hheld, hlt, hsize]
  · have hnone : p.held[host]? = none := Array.getElem?_eq_none (Nat.le_of_not_lt hlt)
    simp [hnone, hlt]

/-- The sizes of the hosts add up to the number of nodes that have a host. -/
theorem Books.sum_sizes (h : p.Books) : p.outcome.sizes.sum = p.assignment.assigned := by
  rw [h.sizes_outcome, Assignment.sum_sizes h.sound.host_lt, h.sound.counted]

/-! ## One group -/

variable [Random.Source σ] {g : Group}

/-- **One group** that is placed leaves books that agree. -/
theorem Books.placed (hp : p.Books) (h : GroupPlacer.place g p = .ok host q) :
    q.Books ∧ q.assignment.size = max p.assignment.size (g.node + 1) := by
  have hchosen := hp.sound.place h
  rcases place_cases h with ⟨hnode, rfl⟩ | ⟨hnode, rfl, rfl⟩
  · have hlt := Assignment.lt_size_of_host? hnode
    exact ⟨hp, by omega⟩
  · have hlt := Assignment.lt_size_growTo p.assignment g.node
    refine ⟨⟨hchosen.sound, fun host held hheld v => ?_⟩, ?_⟩
    · rw [Assignment.host?_fill hlt, Assignment.host?_growTo]
      rw [Array.getElem?_modify] at hheld
      split at hheld
      case isTrue heq =>
        obtain ⟨before, hbefore, rfl⟩ := Option.map_eq_some_iff.mp hheld
        have hmem := hp.held host before hbefore v
        by_cases hv : v = g.node
        · simp [hv, heq]
        · simp [hv, hmem, Ne.symm hv]
      case isFalse hne =>
        have hmem := hp.held host held hheld v
        by_cases hv : v = g.node
        · subst hv
          simp [hmem, hnode, hne]
        · simp [hv, hmem]
    · rw [Assignment.size_fill, Assignment.size_growTo]

/-! ## All groups -/

/-- **All groups** are placed, and each answer is the host that its node has in the end. -/
theorem Books.placeAll (hp : p.Books) {groups : List Group}
    (hfits : ∀ g ∈ groups, g.node + 1 < UInt64.size) :
    ∃ hosts q, GroupPlacer.placeAll groups p = .ok hosts q ∧ q.Books ∧
      hosts.map some = groups.map (fun g => q.assignment.host? g.node) ∧
      q.assignment.size = (groups.map fun g => g.node + 1).foldl max p.assignment.size := by
  induction groups generalizing p with
  | nil => exact ⟨[], p, rfl, hp, rfl, rfl⟩
  | cons g groups ih =>
      obtain ⟨hfit, hlaterFit⟩ := List.forall_mem_cons.mp hfits
      obtain ⟨host, m, hplace⟩ := exists_place hfit p
      obtain ⟨hm, hsize⟩ := hp.placed hplace
      obtain ⟨later, q, hlater, hq, -, hsizes⟩ := ih hm hlaterFit
      have hall := placeAll_cons_eq_ok.mpr ⟨host, m, later, hplace, hlater, rfl⟩
      refine ⟨host :: later, q, hall, hq, (answers_of_placeAll hall).1, ?_⟩
      rw [hsizes, hsize, List.map_cons, List.foldl_cons]

/-- The nodes that have a host are those of the groups that have been placed. -/
theorem assigned_iff_of_start {cfg : Config} {nodes : Nat} {source : σ} {groups : List Group} {hosts : List Nat}
    (hstart : start cfg nodes source = .ok p) (hall : GroupPlacer.placeAll groups p = .ok hosts q) (v : Nat) :
    (∃ host, q.assignment.host? v = some host) ↔ v ∈ groups.map Group.node := by
  obtain ⟨-, -, hempty⟩ := start_eq_ok hstart
  have hplaces := (sound_of_start hstart).placeAll hall
  constructor
  · rintro ⟨host, hv⟩
    rcases hplaces.only v host hv with ⟨g, hg, rfl⟩ | hbefore
    · exact List.mem_map_of_mem hg
    · rw [hempty, Assignment.host?_ofSize] at hbefore
      cases hbefore
  · intro hv
    obtain ⟨g, hg, rfl⟩ := List.mem_map.mp hv
    exact hplaces.host? g hg

/-- **What holds after any groups**, of nodes other than the last word.  From any start and with any source of
random numbers, every call gives a host that exists and is the host of its node from then on.  Each host holds
exactly the nodes that are assigned to it, so no node is held twice.  The nodes of the groups are assigned and
no others, and there are slots up to the last of them.  The sizes of the hosts are those of the assignment,
and add up to the number of different nodes. -/
theorem placeAll_keeps_books {cfg : Config} {nodes : Nat} {source : σ}
    (hstart : start cfg nodes source = .ok p) (groups : List Group)
    (hfits : ∀ g ∈ groups, g.node + 1 < UInt64.size) :
    ∃ hosts q, GroupPlacer.placeAll groups p = .ok hosts q ∧
      (∀ host ∈ hosts, host < cfg.hosts) ∧
      hosts.map some = groups.map (fun g => q.assignment.host? g.node) ∧
      (∀ more : List Group, (∀ g ∈ more, g.node + 1 < UInt64.size) →
        ∃ later r, GroupPlacer.placeAll more q = .ok later r ∧
          ∀ v host, q.assignment.host? v = some host → r.assignment.host? v = some host) ∧
      (∀ host < cfg.hosts, ∃ held, q.nodesOf host = .ok held ∧
        ∀ v, v ∈ held ↔ q.assignment.host? v = some host) ∧
      (∀ host other held held', q.nodesOf host = .ok held → q.nodesOf other = .ok held' →
        host ≠ other → ∀ v ∈ held, v ∉ held') ∧
      (∀ v, (∃ host, q.assignment.host? v = some host) ↔ v ∈ groups.map Group.node) ∧
      q.assignment.size = (groups.map fun g => g.node + 1).foldl max nodes ∧
      q.outcome.sizes = q.assignment.sizes cfg.hosts ∧
      q.outcome.sizes.sum = q.assignment.assigned ∧
      q.assignment.assigned = (groups.map Group.node).toFinset.card := by
  obtain ⟨-, hhosts, hempty⟩ := start_eq_ok hstart
  have hbooks := books_of_start hstart
  obtain ⟨hosts, q, hall, hq, hanswers, hsize⟩ := hbooks.placeAll hfits
  have hplaces := hbooks.sound.placeAll hall
  have hqhosts : q.hosts = cfg.hosts := hplaces.hosts_eq.trans hhosts
  have hassigned := assigned_iff_of_start hstart hall
  have hsizes := hq.sizes_outcome
  refine ⟨hosts, q, hall, ?_, hanswers, ?_, ?_, ?_, hassigned, ?_, hqhosts ▸ hsizes, ?_, ?_⟩
  · intro host hhost
    have hmem : some host ∈ groups.map fun g => q.assignment.host? g.node :=
      hanswers ▸ List.mem_map_of_mem hhost
    obtain ⟨g, -, hg⟩ := List.mem_map.mp hmem
    exact hqhosts ▸ hq.sound.host_lt g.node host hg
  · intro more hmoreFits
    obtain ⟨later, r, hmore, -⟩ := hq.placeAll hmoreFits
    exact ⟨later, r, hmore, (hq.sound.placeAll hmore).le⟩
  · intro host hhost
    obtain ⟨held, hheld⟩ := exists_nodesOf (hqhosts ▸ hhost)
    exact ⟨held, hheld, hq.held host held (nodesOf_eq_ok.mp hheld)⟩
  · intro host other held held' hheld hheld' hne v hv hv'
    have hhost := (hq.held host held (nodesOf_eq_ok.mp hheld) v).mp hv
    have hother := (hq.held other held' (nodesOf_eq_ok.mp hheld') v).mp hv'
    exact hne (Option.some.inj (hhost.symm.trans hother))
  · rw [hsize, hempty, Assignment.size_ofSize]
  · exact hq.sum_sizes
  · rw [hq.sound.counted, Assignment.length_pairs_eq_card hassigned]

/-- A node past the announced two comes first and once more at the end: it has a slot, and it counts
once. -/
theorem placeAll_keeps_books_on_repeats :
    ∃ p hosts q, start { hosts := 3 } 2 (⟨7, 0x6000000000000000⟩ : Random.Counter) = .ok p ∧
      placeAll [.ofList 4 [0], .ofList 0 [4], .ofList 4 []] p = .ok hosts q ∧
      hosts.map some = [4, 0, 4].map q.assignment.host? ∧ q.assignment.size = 5 ∧
      q.outcome.sizes.sum = 2 := by
  have hstarts : (start { hosts := 3 } 2 (⟨7, 0x6000000000000000⟩ : Random.Counter)).isOk = true := by
    decide +kernel
  cases hstart : start { hosts := 3 } 2 (⟨7, 0x6000000000000000⟩ : Random.Counter) with
  | error fault =>
      rw [hstart] at hstarts
      cases hstarts
  | ok p =>
      obtain ⟨hosts, q, hall, -, hanswers, -, -, -, -, hsize, -, hsum, hcard⟩ :=
        placeAll_keeps_books hstart [.ofList 4 [0], .ofList 0 [4], .ofList 4 []] (by decide)
      exact ⟨p, hosts, q, rfl, hall, hanswers, hsize, hsum.trans hcard⟩

end GraphPlacement.GroupPlacer
