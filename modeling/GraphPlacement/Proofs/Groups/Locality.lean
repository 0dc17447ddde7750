import GraphPlacement.Proofs.Groups.Books
import GraphPlacement.Proofs.NodeSets

/-!
# What a placement looks at

**Choice.** Neighbours that a host does not hold make no difference to its overlap, and a host holds nodes
that have been placed before and no others.  So the choice looks only at neighbours among these, and only if
the strategy weighs neighbours at all; it draws the same random numbers whatever the neighbours are
(`Books.choose_congr`).

**Two runs.** Two runs over groups that differ in nothing the choice looks at therefore go the same way, one
call after the other: the states that they reach are equal, with all that a later choice depends on
(`Books.placeAll_congr`).
-/

namespace GraphPlacement

variable {neighbours neighbours' : NodeSet}

namespace GroupPlacer

variable {σ : Type} [Random.Source σ] {p q : GroupPlacer σ} {g g' : Group} {host : Nat}

/-! ## Choice -/

/-- Whether a placer sees the same of two sets of neighbours: the same members that have a host, if it looks
at neighbours at all. -/
def SeesSame (p : GroupPlacer σ) (neighbours neighbours' : NodeSet) : Prop :=
  p.strategy = .affinity →
    ∀ v host, p.assignment.host? v = some host → (v ∈ neighbours ↔ v ∈ neighbours')

theorem Books.scoreOf_congr (hp : p.Books) (h : p.SeesSame neighbours neighbours') (host : Nat) (s : σ) :
    p.scoreOf neighbours host s = p.scoreOf neighbours' host s := by
  unfold scoreOf
  cases hstrategy : p.strategy with
  | affinity =>
      have hoverlap : overlap (p.held.getD host ∅) neighbours = overlap (p.held.getD host ∅) neighbours' := by
        refine overlap_congr fun v hv => ?_
        obtain ⟨held, hheld, hv⟩ := mem_getD_held.mp hv
        exact h hstrategy v host ((hp.held host held hheld v).mp hv)
      rw [Strategy.score, hoverlap, ← Strategy.score]
  | balance => rfl
  | random => rfl

theorem Books.choose_congr (hp : p.Books) (h : p.SeesSame neighbours neighbours') :
    p.choose neighbours = p.choose neighbours' :=
  choose_eq_of_scoreOf rfl rfl (funext fun host => funext fun s => hp.scoreOf_congr h host s)

/-! ## One call -/

theorem Books.place_congr (hp : p.Books) (hnode : g.node = g'.node)
    (h : p.SeesSame g.neighbours g'.neighbours) : GroupPlacer.place g p = GroupPlacer.place g' p := by
  cases hhost : p.assignment.host? g.node with
  | some current => rw [place_known hhost, place_known (hnode ▸ hhost)]
  | none => rw [place_new_eq hhost, place_new_eq (hnode ▸ hhost), hp.choose_congr h, hnode]

/-! ## All calls -/

/-- Two runs from one state come to the same if the neighbours of each pair of groups agree on the nodes that
had a host to begin with, `before` among them, and on those of earlier groups. -/
theorem Books.placeAll_congr {groups groups' : List Group} {before : List Nat} (hp : p.Books)
    (hbefore : ∀ v host, p.assignment.host? v = some host → v ∈ before)
    (hnodes : groups.map Group.node = groups'.map Group.node)
    (hagree : p.strategy = .affinity → ∀ i g g', groups[i]? = some g → groups'[i]? = some g' →
      ∀ v ∈ before ++ (groups.take i).map Group.node, v ∈ g.neighbours ↔ v ∈ g'.neighbours) :
    GroupPlacer.placeAll groups p = GroupPlacer.placeAll groups' p := by
  induction groups generalizing p groups' before with
  | nil => rw [List.map_eq_nil_iff.mp hnodes.symm]
  | cons g groups ih =>
      obtain ⟨g', later, rfl, hnode, hlater⟩ := List.map_eq_cons_iff.mp hnodes.symm
      have hsees : p.SeesSame g.neighbours g'.neighbours := by
        intro haffinity v host hv
        exact hagree haffinity 0 g g' rfl rfl v (List.mem_append_left _ (hbefore v host hv))
      have hsame := hp.place_congr hnode.symm hsees
      rw [placeAll_cons, placeAll_cons]
      cases hplace : GroupPlacer.place g p with
      | error fault m => rw [Step.bind_of_error hplace, Step.bind_of_error (hsame.symm.trans hplace)]
      | ok host m =>
          -- the node of this group is one of those that come before, from the next group on
          have hknown : ∀ v other, m.assignment.host? v = some other → v ∈ before ++ [g.node] := by
            intro v other hv
            rcases (hp.sound.place hplace).only v other hv with rfl | hv
            · simp
            · exact List.mem_append_left _ (hbefore v other hv)
          have hrest := ih (hp.placed hplace).1 hknown hlater.symm fun haffinity i h h' hh hh' v hv =>
            hagree (strategy_place hplace ▸ haffinity) (i + 1) h h' hh hh' v (by simpa using hv)
          rw [Step.bind_of_ok hplace, Step.bind_of_ok (hsame.symm.trans hplace)]
          exact Step.bind_congr_apply hrest _

/-- **Neighbours that are not placed yet make no difference.**  Take two lists of groups with the same nodes in
the same order, and let the neighbours of each two groups agree on the nodes of earlier groups, which only the
strategy that weighs neighbours asks for.  From the same start, with the same random numbers to come, placing both
comes to the same: every call gives the same host in both, and both end in the same state.  They are placed
without a fault unless a node is the last word, for which there is no slot; and then both fail in the same
way. -/
theorem unplaced_neighbours_are_immaterial {cfg : Config} {nodes : Nat} {source : σ}
    (hstart : start cfg nodes source = .ok p) (groups groups' : List Group)
    (hnodes : groups.map Group.node = groups'.map Group.node)
    (hagree : cfg.strategy = .affinity → ∀ i g g', groups[i]? = some g → groups'[i]? = some g' →
      ∀ v ∈ (groups.take i).map Group.node, v ∈ g.neighbours ↔ v ∈ g'.neighbours) :
    placeAll groups p = placeAll groups' p ∧
      ((∀ g ∈ groups, g.node + 1 < UInt64.size) →
        ∃ hosts q, placeAll groups p = .ok hosts q ∧ placeAll groups' p = .ok hosts q) := by
  have hbooks := books_of_start hstart
  have hstrategy : p.strategy = cfg.strategy := by
    obtain ⟨capacity, -, rfl⟩ := eq_of_start hstart
    rfl
  obtain ⟨-, -, hempty⟩ := start_eq_ok hstart
  have hnone : ∀ v host, p.assignment.host? v = some host → v ∈ ([] : List Nat) := by
    intro v host hv
    rw [hempty, Assignment.host?_ofSize] at hv
    cases hv
  have hsame := hbooks.placeAll_congr hnone hnodes fun haffinity => hagree (hstrategy ▸ haffinity)
  refine ⟨hsame, fun hfits => ?_⟩
  obtain ⟨hosts, q, hall, -⟩ := hbooks.placeAll hfits
  exact ⟨hosts, q, hall, hsame ▸ hall⟩

/-- The node itself, the node of a later group and nodes of no group are neighbours in one run and not in the
other. -/
theorem unplaced_neighbours_are_immaterial_on_three_groups :
    ∃ p hosts q,
      start { hosts := 3, strategy := .affinity } 5 (⟨7, 0x6000000000000000⟩ : Random.Counter) = .ok p ∧
      placeAll [.ofList 4 [0, 4], .ofList 0 [4], .ofList 1 [0, 2]] p = .ok hosts q ∧
      placeAll [.ofList 4 [1], .ofList 0 [1, 4], .ofList 1 [0, 1, 3]] p = .ok hosts q := by
  have hstarts : (start { hosts := 3, strategy := .affinity } 5
      (⟨7, 0x6000000000000000⟩ : Random.Counter)).isOk = true := by decide +kernel
  cases hstart : start { hosts := 3, strategy := .affinity } 5 (⟨7, 0x6000000000000000⟩ : Random.Counter) with
  | error fault =>
      rw [hstart] at hstarts
      cases hstarts
  | ok p =>
      obtain ⟨-, hplaced⟩ := unplaced_neighbours_are_immaterial hstart
        [.ofList 4 [0, 4], .ofList 0 [4], .ofList 1 [0, 2]]
        [.ofList 4 [1], .ofList 0 [1, 4], .ofList 1 [0, 1, 3]] rfl (by
          intro _ i g g' hg hg' v hv
          rcases i with _ | _ | _ | i <;> cases hg <;> cases hg' <;> simp [Group.ofList] at hv
          · simp [hv]
          · rcases hv with rfl | rfl <;> simp)
      obtain ⟨hosts, q, hall, hall'⟩ := hplaced (by decide)
      exact ⟨p, hosts, q, rfl, hall, hall'⟩

end GroupPlacer

end GraphPlacement
