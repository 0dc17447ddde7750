import GraphPlacement.Proofs.Groups.Placing
import GraphPlacement.Proofs.NodeSets
import GraphPlacement.Random.Counter
import Mathlib.Order.Interval.Set.Defs

/-!
# The numbers of nodes with their neighbours

**Numbers.** A placer of groups tells nodes apart by their numbers and uses these in two ways.  It counts
common members of sets, which does not depend on the numbers as long as different nodes have different ones
(`overlap_image`).  And it gives the assignment slots up to the largest number, of which the scores know
nothing: the capacity is fixed before the first group comes.

**Relation.** `Renumbered` says of two placers that the second one holds the nodes of the first under their new
numbers, on the same hosts, in both books.  Then all scores are the same (`Renumbered.scoreOf`), so the same
host is chosen with the same random numbers, and a group with new numbers keeps the placers related
(`Renumbered.place`).
-/

namespace GraphPlacement

/-- The group with other numbers for its node and the neighbours. -/
def Group.renumber (f : Nat → Nat) (g : Group) : Group := ⟨f g.node, g.neighbours.image f⟩

theorem Group.renumber_ofList (f : Nat → Nat) (node : Nat) (neighbours : List Nat) :
    (Group.ofList node neighbours).renumber f = .ofList (f node) (neighbours.map f) :=
  congrArg (Group.mk (f node)) (NodeSet.image_ofList f neighbours)

/-- A score depends on what a host holds through two numbers. -/
theorem Strategy.score_congr {σ : Type} [Random.Source σ] {held held' neighbours neighbours' : NodeSet}
    (hoverlap : overlap held' neighbours' = overlap held neighbours) (hsize : held'.size = held.size)
    (strategy : Strategy) (capacity : Float) (s : σ) :
    strategy.score held' neighbours' capacity s = strategy.score held neighbours capacity s := by
  cases strategy <;> simp [score, hoverlap, hsize]

namespace GroupPlacer

variable {σ : Type} {p q : GroupPlacer σ} {g : Group} {f : Nat → Nat} {ids : Set Nat}

/-- Whether a placer is another one whose nodes, all of them among `ids`, have got new numbers. -/
structure Renumbered (f : Nat → Nat) (ids : Set Nat) (p q : GroupPlacer σ) : Prop where
  strategy_eq : q.strategy = p.strategy
  capacity_eq : q.capacity = p.capacity
  source_eq : q.source = p.source
  held_eq : q.held = p.held.map (NodeSet.image f)
  mem_ids : ∀ held ∈ p.held, ∀ v ∈ held, v ∈ ids
  host?_image : ∀ v ∈ ids, q.assignment.host? (f v) = p.assignment.host? v

theorem renumbered_of_start {cfg : Config} {nodes : Nat} {source : σ} (h : start cfg nodes source = .ok p)
    (f : Nat → Nat) (ids : Set Nat) : Renumbered f ids p p := by
  obtain ⟨capacity, -, rfl⟩ := eq_of_start h
  refine ⟨rfl, rfl, rfl, by simp, ?_, by simp⟩
  intro held hheld v hv
  rw [Array.eq_of_mem_replicate hheld] at hv
  simp at hv

theorem Renumbered.hosts_eq (h : Renumbered f ids p q) : q.hosts = p.hosts := by
  rw [hosts, h.held_eq, Array.size_map, hosts]

theorem Renumbered.sizes_eq (h : Renumbered f ids p q) (hinj : Set.InjOn f ids) :
    q.outcome.sizes = p.outcome.sizes := by
  rw [outcome, outcome, h.held_eq, Array.toList_map, List.map_map]
  refine List.map_congr_left fun held hheld => ?_
  exact NodeSet.size_image hinj (h.mem_ids held (Array.mem_toList_iff.mp hheld))

/-! ## Choice -/

variable [Random.Source σ]

theorem Renumbered.scoreOf {neighbours : NodeSet} (h : Renumbered f ids p q) (hinj : Set.InjOn f ids)
    (hneighbours : ∀ v ∈ neighbours, v ∈ ids) :
    q.scoreOf (neighbours.image f) = p.scoreOf neighbours := by
  funext host s
  have himage : q.held.getD host ∅ = (p.held.getD host ∅).image f := by
    rw [h.held_eq, Array.getD_eq_getD_getElem?, Array.getD_eq_getD_getElem?, Array.getElem?_map]
    cases p.held[host]? <;> simp
  have hids : ∀ v ∈ p.held.getD host ∅, v ∈ ids := by
    intro v hv
    obtain ⟨held, hheld, hv⟩ := mem_getD_held.mp hv
    exact h.mem_ids held (Array.mem_of_getElem? hheld) v hv
  rw [GroupPlacer.scoreOf, himage, h.strategy_eq, h.capacity_eq,
    Strategy.score_congr (overlap_image hinj hids hneighbours) (NodeSet.size_image hinj hids),
    ← GroupPlacer.scoreOf]

theorem Renumbered.choose {neighbours : NodeSet} (h : Renumbered f ids p q) (hinj : Set.InjOn f ids)
    (hneighbours : ∀ v ∈ neighbours, v ∈ ids) : q.choose (neighbours.image f) = p.choose neighbours :=
  choose_eq_of_scoreOf h.hosts_eq h.source_eq (h.scoreOf hinj hneighbours)

/-! ## One group -/

theorem map_image_modify (f : Nat → Nat) (held : Array NodeSet) (host v : Nat) :
    (held.modify host (·.insert v)).map (NodeSet.image f) =
      (held.map (NodeSet.image f)).modify host (·.insert (f v)) := by
  refine Array.ext_getElem? fun i => ?_
  rw [Array.getElem?_map, Array.getElem?_modify, Array.getElem?_modify, Array.getElem?_map]
  split
  · simp only [Option.map_map, Function.comp_def, NodeSet.image_insert]
  · rfl

theorem forall_mem_modify_insert {held : Array NodeSet} {host v : Nat} (hv : v ∈ ids)
    (h : ∀ nodes ∈ held, ∀ w ∈ nodes, w ∈ ids) :
    ∀ nodes ∈ held.modify host (·.insert v), ∀ w ∈ nodes, w ∈ ids := by
  intro nodes hnodes w hw
  obtain ⟨i, hi⟩ := Array.mem_iff_getElem?.mp hnodes
  rw [Array.getElem?_modify] at hi
  split at hi
  · obtain ⟨before, hbefore, rfl⟩ := Option.map_eq_some_iff.mp hi
    rcases Std.ExtTreeSet.mem_insert.mp hw with hsame | hw
    · exact compare_eq_iff_eq.mp hsame ▸ hv
    · exact h before (Array.mem_of_getElem? hbefore) w hw
  · exact h nodes (Array.mem_of_getElem? hi) w hw

/-- **A group with new numbers** is placed on the same host and keeps the placers related. -/
theorem Renumbered.place (h : Renumbered f ids p q) (hinj : Set.InjOn f ids) (hnode : g.node ∈ ids)
    (hneighbours : ∀ v ∈ g.neighbours, v ∈ ids)
    (hfits : g.node + 1 < UInt64.size ∧ f g.node + 1 < UInt64.size) :
    ∃ host p' q', GroupPlacer.place g p = .ok host p' ∧
      GroupPlacer.place (g.renumber f) q = .ok host q' ∧ Renumbered f ids p' q' := by
  have himage : q.assignment.host? (g.renumber f).node = p.assignment.host? g.node :=
    h.host?_image g.node hnode
  cases hhost : p.assignment.host? g.node with
  | some current =>
      exact ⟨current, p, q, place_known hhost, place_known (himage.trans hhost), h⟩
  | none =>
      have hplace := place_new hhost hfits.1
      have hplace' := place_new (himage.trans hhost) hfits.2
      rw [show q.choose (g.renumber f).neighbours = _ from h.choose hinj hneighbours] at hplace'
      refine ⟨_, _, _, hplace, hplace', h.strategy_eq, h.capacity_eq, rfl, ?_, ?_, ?_⟩
      · simp only [h.held_eq, Group.renumber]
        exact (map_image_modify f p.held _ g.node).symm
      · exact forall_mem_modify_insert hnode h.mem_ids
      · intro v hv
        have hsame : f v = f g.node ↔ v = g.node := hinj.eq_iff hv hnode
        rw [host?_place hplace', host?_place hplace, Group.renumber]
        simp only [hsame, h.host?_image v hv]

/-! ## All groups -/

theorem Renumbered.placeAll (h : Renumbered f ids p q) (hinj : Set.InjOn f ids) {groups : List Group}
    (hgroups : ∀ g ∈ groups, g.node ∈ ids ∧ ∀ v ∈ g.neighbours, v ∈ ids)
    (hfits : ∀ g ∈ groups, g.node + 1 < UInt64.size ∧ f g.node + 1 < UInt64.size) :
    ∃ hosts p' q', GroupPlacer.placeAll groups p = .ok hosts p' ∧
      GroupPlacer.placeAll (groups.map (Group.renumber f)) q = .ok hosts q' ∧ Renumbered f ids p' q' := by
  induction groups generalizing p q with
  | nil => exact ⟨[], p, q, rfl, rfl, h⟩
  | cons g groups ih =>
      obtain ⟨hg, hlater⟩ := List.forall_mem_cons.mp hgroups
      obtain ⟨hfit, hlaterFit⟩ := List.forall_mem_cons.mp hfits
      obtain ⟨host, m, m', hplace, hplace', hm⟩ := h.place hinj hg.1 hg.2 hfit
      obtain ⟨hosts, p', q', hall, hall', hlast⟩ := ih hm hlater hlaterFit
      exact ⟨host :: hosts, p', q', placeAll_cons_eq_ok.mpr ⟨host, m, hosts, hplace, hall, rfl⟩,
        placeAll_cons_eq_ok.mpr ⟨host, m', hosts, hplace', hall', rfl⟩, hlast⟩

/-- **The numbering of nodes is immaterial.**  Let groups be placed from any start, and let the same groups be
placed from the same start after their nodes and neighbours have got other numbers, a different one for each.
Then every group is placed on the same host as before, by any strategy and with any source of random numbers.
In the end the hosts hold as many nodes as before, the same random numbers are to come, and each node has the
same host under either number.  The numbers may be as large as they like, up to the last word: slots for them are
all that they cost. -/
theorem node_numbers_are_immaterial {cfg : Config} {nodes : Nat} {source : σ}
    (hstart : start cfg nodes source = .ok p) {f : Nat → Nat} {ids : Set Nat} (hinj : Set.InjOn f ids)
    {groups : List Group} (hids : ∀ g ∈ groups, g.node ∈ ids ∧ ∀ v ∈ g.neighbours, v ∈ ids)
    (hfits : ∀ g ∈ groups, g.node + 1 < UInt64.size ∧ f g.node + 1 < UInt64.size) :
    ∃ hosts q q', placeAll groups p = .ok hosts q ∧
      placeAll (groups.map (Group.renumber f)) p = .ok hosts q' ∧
      q'.outcome.sizes = q.outcome.sizes ∧ q'.source = q.source ∧
      ∀ v ∈ ids, q'.assignment.host? (f v) = q.assignment.host? v := by
  obtain ⟨hosts, q, q', hall, hall', hlast⟩ := (renumbered_of_start hstart f ids).placeAll hinj hids hfits
  exact ⟨hosts, q, q', hall, hall', hlast.sizes_eq hinj, hlast.source_eq, hlast.host?_image⟩

/-- Three nodes that are spread out and come in the other order, one of them past the slots announced. -/
theorem node_numbers_are_immaterial_on_three_groups :
    ∃ p hosts q q', start { hosts := 3 } 5 (⟨7, 0x6000000000000000⟩ : Random.Counter) = .ok p ∧
      placeAll [.ofList 4 [1], .ofList 0 [4, 2], .ofList 2 [0], .ofList 4 []] p = .ok hosts q ∧
      placeAll [.ofList 1 [10], .ofList 13 [1, 7], .ofList 7 [13], .ofList 1 []] p = .ok hosts q' ∧
      q'.outcome.sizes = q.outcome.sizes ∧ q'.source = q.source ∧
      q'.assignment.host? 13 = q.assignment.host? 0 ∧ q'.assignment.host? 10 = q.assignment.host? 1 := by
  have hinj : Set.InjOn (fun v => 13 - 3 * v) (Set.Iio 5) := by
    intro v hv w hw heq
    have hfv : 13 - 3 * v = 13 - 3 * w := heq
    simp only [Set.mem_Iio] at hv hw
    omega
  have hids : ∀ g ∈ [Group.ofList 4 [1], .ofList 0 [4, 2], .ofList 2 [0], .ofList 4 []],
      g.node ∈ Set.Iio 5 ∧ ∀ v ∈ g.neighbours, v ∈ Set.Iio 5 := by
    simp only [List.forall_mem_cons, Group.mem_ofList]
    simp [Group.ofList]
  have hstarts : (start { hosts := 3 } 5 (⟨7, 0x6000000000000000⟩ : Random.Counter)).isOk = true := by
    decide +kernel
  cases hstart : start { hosts := 3 } 5 (⟨7, 0x6000000000000000⟩ : Random.Counter) with
  | error fault =>
      rw [hstart] at hstarts
      cases hstarts
  | ok p =>
      obtain ⟨hosts, q, q', hall, hall', hsizes, hsource, himage⟩ :=
        node_numbers_are_immaterial hstart hinj hids (by decide)
      simp only [List.map_cons, List.map_nil, Group.renumber_ofList] at hall'
      exact ⟨p, hosts, q, q', rfl, hall, hall', hsizes, hsource, himage 0 (by simp), himage 1 (by simp)⟩

end GroupPlacer

end GraphPlacement
