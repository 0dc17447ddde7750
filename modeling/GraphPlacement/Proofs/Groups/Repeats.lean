import GraphPlacement.Proofs.Groups.Placing
import GraphPlacement.Random.Counter

/-!
# Groups that come again

**First visits.** Of the groups that are listed, those matter that come first for a node without a host
(`firstVisits`).  What is a first visit depends on the assignment that the groups meet: after a group has been
placed, the first visits among the others are those of before without the ones to its node
(`firstVisits_cons_of_none`).

**Repeats.** A group that comes again leaves the placer as it is, source included, so the groups that follow
meet the same state as if it had not come.  All groups therefore lead to the same state as the first visits
alone (`placeAll_firstVisits`).

**Answers.** In this state each node has the host that every call for it has given (`answers_of_placeAll`),
the calls before as well as the repeats after.
-/

namespace GraphPlacement.GroupPlacer

variable {σ : Type} {p q m : GroupPlacer σ} {g : Group} {groups : List Group} {a b : Assignment}

/-! ## First visits -/

/-- The groups that come first for their nodes, among those of nodes that have no host. -/
def firstVisits (a : Assignment) (groups : List Group) : List Group :=
  (groups.filter fun g => (a.host? g.node).isNone).eraseDupsBy fun g g' => g.node == g'.node

theorem firstVisits_cons_of_some {host : Nat} (h : a.host? g.node = some host) :
    firstVisits a (g :: groups) = firstVisits a groups := by
  simp [firstVisits, h]

theorem firstVisits_cons_of_none (h : a.host? g.node = none)
    (hb : ∀ v, b.host? v = none ↔ v ≠ g.node ∧ a.host? v = none) :
    firstVisits a (g :: groups) = g :: firstVisits b groups := by
  have hlater : (groups.filter fun g' => (a.host? g'.node).isNone).filter
      (fun g' => (g'.node == g.node) = false) = groups.filter fun g' => (b.host? g'.node).isNone := by
    rw [List.filter_filter]
    refine List.filter_congr fun g' _ => ?_
    rw [Bool.eq_iff_iff]
    simp [hb]
  rw [firstVisits, List.filter_cons_of_pos (by simp [h]), List.eraseDupsBy_cons, hlater, ← firstVisits]

/-! ## Repeats -/

variable [Random.Source σ]

/-- **All groups** lead to the same state as the first visits among them. -/
theorem placeAll_firstVisits (p : GroupPlacer σ) {groups : List Group}
    (hfits : ∀ g ∈ groups, g.node + 1 < UInt64.size) :
    ∃ hosts firstHosts q, placeAll groups p = .ok hosts q ∧
      placeAll (firstVisits p.assignment groups) p = .ok firstHosts q := by
  induction groups generalizing p with
  | nil => exact ⟨[], [], p, rfl, rfl⟩
  | cons g groups ih =>
      obtain ⟨hfit, hlaterFit⟩ := List.forall_mem_cons.mp hfits
      obtain ⟨host, m, hplace⟩ := exists_place hfit p
      obtain ⟨hosts, firstHosts, q, hall, hfirst⟩ := ih m hlaterFit
      have hcons := placeAll_cons_eq_ok.mpr ⟨host, m, hosts, hplace, hall, rfl⟩
      rcases place_cases hplace with ⟨hnode, rfl⟩ | ⟨hnode, -, -⟩
      · rw [firstVisits_cons_of_some hnode]
        exact ⟨host :: hosts, firstHosts, q, hcons, hfirst⟩
      · have hvisits : firstVisits p.assignment (g :: groups) = g :: firstVisits m.assignment groups := by
          refine firstVisits_cons_of_none hnode fun v => ?_
          rw [host?_place hplace]
          split <;> simp [*]
        rw [hvisits]
        exact ⟨host :: hosts, host :: firstHosts, q, hcons,
          placeAll_cons_eq_ok.mpr ⟨host, m, firstHosts, hplace, hfirst, rfl⟩⟩

/-- **Repeats are inert.**  Take any placer and any groups of nodes other than the last word, and of these the
first visits: those that come first for a node without a host.  All groups and the first visits alone lead to
the same state, with the same assignment, the same sets of nodes on the hosts and the same random numbers to
come.  Every answer, in both runs, is the host that the node has in this state, so a repeat is answered like
the first visit before it, and the first visits like in the run without the repeats; a node that had a host
keeps it.  The neighbours that a repeat comes with make no difference to anything. -/
theorem repeats_are_inert (p : GroupPlacer σ) (groups : List Group)
    (hfits : ∀ g ∈ groups, g.node + 1 < UInt64.size) :
    ∃ hosts firstHosts q, placeAll groups p = .ok hosts q ∧
      placeAll (firstVisits p.assignment groups) p = .ok firstHosts q ∧
      hosts.map some = groups.map (fun g => q.assignment.host? g.node) ∧
      firstHosts.map some = (firstVisits p.assignment groups).map (fun g => q.assignment.host? g.node) ∧
      (∀ v host, p.assignment.host? v = some host → q.assignment.host? v = some host) ∧
      ∀ groups', groups'.map Group.node = groups.map Group.node →
        firstVisits p.assignment groups' = firstVisits p.assignment groups → placeAll groups' p = .ok hosts q := by
  obtain ⟨hosts, firstHosts, q, hall, hfirst⟩ := placeAll_firstVisits p hfits
  obtain ⟨hanswers, hkept⟩ := answers_of_placeAll hall
  refine ⟨hosts, firstHosts, q, hall, hfirst, hanswers, (answers_of_placeAll hfirst).1, hkept, ?_⟩
  intro groups' hnodes hvisits
  have hfits' : ∀ g ∈ groups', g.node + 1 < UInt64.size := by
    have hall : ∀ v ∈ groups'.map Group.node, v + 1 < UInt64.size :=
      hnodes ▸ List.forall_mem_map.mpr hfits
    exact List.forall_mem_map.mp hall
  obtain ⟨hosts', _, q', hall', hfirst'⟩ := placeAll_firstVisits p hfits'
  rw [hvisits, hfirst] at hfirst'
  cases hfirst'
  have hsame : hosts'.map some = hosts.map some := by
    have hnodes' := congrArg (List.map q.assignment.host?) hnodes
    rw [List.map_map, List.map_map] at hnodes'
    rw [(answers_of_placeAll hall').1, hanswers]
    exact hnodes'
  rw [hall', (List.map_inj_right fun _ _ => Option.some.inj).mp hsame]

/-- Two of three nodes come twice, and one has a host from before: two visits of five count. -/
theorem repeats_are_inert_on_five_groups :
    let p : GroupPlacer Random.Counter := ⟨.affinity, 4.0, #[∅, .ofList [1]], ⟨#[none, some 1, none], 1⟩,
      ⟨7, 0x6000000000000000⟩⟩
    ∃ hosts firstHosts q,
      placeAll [.ofList 4 [1], .ofList 1 [0], .ofList 0 [4], .ofList 4 [], .ofList 0 [1]] p = .ok hosts q ∧
      placeAll [.ofList 4 [1], .ofList 0 [4]] p = .ok firstHosts q ∧
      hosts.map some = [4, 1, 0, 4, 0].map q.assignment.host? ∧
      firstHosts.map some = [4, 0].map q.assignment.host? ∧ q.assignment.host? 1 = some 1 ∧
      placeAll [.ofList 4 [1], .ofList 1 [2], .ofList 0 [4], .ofList 4 [0], .ofList 0 []] p = .ok hosts q := by
  intro p
  obtain ⟨hosts, firstHosts, q, hall, hfirst, hanswers, hfirstAnswers, hkept, hsame⟩ :=
    repeats_are_inert p [.ofList 4 [1], .ofList 1 [0], .ofList 0 [4], .ofList 4 [], .ofList 0 [1]]
      (by decide)
  exact ⟨hosts, firstHosts, q, hall, hfirst, hanswers, hfirstAnswers, hkept 1 1 rfl, hsame _ rfl rfl⟩

/-- The last word never gets a host, and so a host is drawn for it each time that it comes. -/
theorem repeats_of_last_word_draw_again :
    let p : GroupPlacer Random.Counter := ⟨.affinity, 4.0, #[∅, .ofList [1]], ⟨#[none, some 1, none], 1⟩,
      ⟨7, 0x6000000000000000⟩⟩
    let g : Group := .ofList 18446744073709551615 [1]
    let once := Step.after (place g p)
    Step.outcome (place g p) = .error .overflow ∧ Step.outcome (place g once) = .error .overflow ∧
      (Step.after (place g once)).source ≠ once.source := by
  intro p g once
  have hfails : ∀ source : Random.Counter, place g { p with source } =
      .error .overflow { p with source := ({ p with source } : GroupPlacer _).choose g.neighbours |>.2 } := by
    intro source
    rw [place_new_eq rfl]
    exact if_pos (show 3 ≤ 18446744073709551615 ∧ UInt64.size ≤ 18446744073709551615 + 1 by decide)
  have honce : once = { p with source := (p.choose g.neighbours).2 } := congrArg Step.after (hfails p.source)
  refine ⟨congrArg Step.outcome (hfails p.source), honce ▸ congrArg Step.outcome (hfails _), ?_⟩
  decide +kernel

end GraphPlacement.GroupPlacer
