import GraphPlacement.GroupPlacer
import GraphPlacement.Proofs.Capacity
import GraphPlacement.Proofs.Slots
import GraphPlacement.Proofs.Steps

/-!
# What placing the node of a group does

**Choice.** Whatever the scores are, the host that is chosen exists: the search begins at a host that is
drawn below the number of hosts and goes on among them (`choose_lt`).

**One group.** A call does nothing for a node that comes again, and else enters its choice in both books
(`place_cases`).  After either, the node is on the host that the call gave, no other node has moved, and only
this node may be new (`Sound.place`).  There is a host for every node but the last word, for which there cannot
be a slot (`exists_place`, `place_new_eq`).

**All groups.** So the host that each call gave can be looked up at the end (`answers_of_placeAll`), and all
that groups keep one by one they keep together (`Sound.placeAll`).
-/

namespace GraphPlacement.GroupPlacer

variable {σ : Type} {p q : GroupPlacer σ} {g : Group} {host : Nat}

/-- A node that has no host is entered in both books, unless there cannot be a slot for it. -/
theorem commit_apply {node : Nat} (hnone : p.assignment.host? node = none) (host : Nat) :
    commit node host p =
      if p.assignment.size ≤ node ∧ UInt64.size ≤ node + 1 then .error .overflow p
      else .ok () { p with
        assignment := (p.assignment.growTo (node + 1)).fill node host
        held := p.held.modify host (·.insert node) } := by
  have hlt := Assignment.lt_size_growTo p.assignment node
  have hstill : (p.assignment.growTo (node + 1)).host? node = none := by
    rw [Assignment.host?_growTo, hnone]
  have hassign := Assignment.assignGrowing_eq p.assignment node host
  rw [Assignment.assign_eq_fill hlt hstill] at hassign
  split at hassign
  case isTrue hpast => simp [commit, Step.bind_apply, Step.onPart, hassign, hpast]
  case isFalse hroom => simp [commit, Step.bind_apply, Step.onPart, hassign, hroom]

theorem mem_getD_held {v : Nat} :
    v ∈ p.held.getD host ∅ ↔ ∃ held, p.held[host]? = some held ∧ v ∈ held := by
  rw [Array.getD_eq_getD_getElem?]
  cases p.held[host]? <;> simp

/-- Whether a placer has hosts, and its assignment counts rightly and uses no others. -/
structure Sound (p : GroupPlacer σ) : Prop where
  hosts_pos : 0 < p.hosts
  counted : p.assignment.Counted
  host_lt : ∀ v host, p.assignment.host? v = some host → host < p.hosts

/-- A start, with all that it consists of. -/
theorem eq_of_start {cfg : Config} {nodes : Nat} {source : σ} (h : start cfg nodes source = .ok p) :
    ∃ capacity, cfg.capacity nodes = .ok capacity ∧
      p = ⟨cfg.strategy, capacity, Array.replicate cfg.hosts ∅, .ofSize nodes, source⟩ := by
  obtain ⟨capacity, hcapacity, hp⟩ := Step.except_bind_eq_ok.mp h
  cases hp
  exact ⟨capacity, hcapacity, rfl⟩

theorem start_eq_ok {cfg : Config} {nodes : Nat} {source : σ} (h : start cfg nodes source = .ok p) :
    0 < p.hosts ∧ p.hosts = cfg.hosts ∧ p.assignment = .ofSize nodes := by
  obtain ⟨capacity, hcapacity, rfl⟩ := eq_of_start h
  obtain ⟨hvalid, -⟩ := Config.capacity_eq_ok.mp hcapacity
  refine ⟨?_, ?_, rfl⟩
  · simpa [hosts] using Nat.pos_of_ne_zero (Config.hosts_ne_zero hvalid)
  · simp [hosts]

theorem sound_of_start {cfg : Config} {nodes : Nat} {source : σ}
    (h : start cfg nodes source = .ok p) : p.Sound := by
  obtain ⟨hpos, -, hassignment⟩ := start_eq_ok h
  refine ⟨hpos, ?_, ?_⟩
  · rw [hassignment]
    exact Assignment.counted_ofSize nodes
  · intro v host hv
    rw [hassignment, Assignment.host?_ofSize] at hv
    cases hv

variable [Random.Source σ]

/-! ## Choosing -/

theorem visit_best (p : GroupPlacer σ) (neighbours : NodeSet) (search : Search σ) (host : Nat) :
    (search.visit p neighbours host).best = search.best ∨
      (search.visit p neighbours host).best = host := by
  unfold Search.visit
  simp only
  split
  · exact Or.inr rfl
  · exact Or.inl rfl

theorem foldl_visit_best (p : GroupPlacer σ) (neighbours : NodeSet) (hosts : List Nat)
    (search : Search σ) :
    (hosts.foldl (Search.visit p neighbours) search).best = search.best ∨
      (hosts.foldl (Search.visit p neighbours) search).best ∈ hosts := by
  induction hosts generalizing search with
  | nil => exact Or.inl rfl
  | cons host hosts ih =>
      rw [List.foldl_cons, List.mem_cons]
      rcases ih (search.visit p neighbours host) with hkept | hlater
      · rw [hkept]
        exact (visit_best p neighbours search host).imp id Or.inl
      · exact Or.inr (Or.inr hlater)

theorem choose_lt (h : 0 < p.hosts) (neighbours : NodeSet) : (p.choose neighbours).1 < p.hosts := by
  have hseed : (p.seedSearch neighbours).best < p.hosts := Random.below_lt h p.source
  rcases foldl_visit_best p neighbours ((List.range p.hosts).filter (· ≠ (p.seedSearch neighbours).best))
    (p.seedSearch neighbours) with hbest | hbest
  · exact Nat.lt_of_le_of_lt (Nat.le_of_eq hbest) hseed
  · exact List.mem_range.mp (List.mem_filter.mp hbest).1

/-- The choice depends on a placer through the number of hosts, their scores and the source alone. -/
theorem choose_eq_of_scoreOf {neighbours neighbours' : NodeSet} (hhosts : p.hosts = q.hosts)
    (hsource : p.source = q.source) (hscore : p.scoreOf neighbours = q.scoreOf neighbours') :
    p.choose neighbours = q.choose neighbours' := by
  have hseed : p.seedSearch neighbours = q.seedSearch neighbours' := by
    rw [seedSearch, hhosts, hsource, hscore, ← seedSearch]
  have hvisit : Search.visit p neighbours = Search.visit q neighbours' := by
    funext search host
    rw [Search.visit, hscore, ← Search.visit]
  rw [choose, hseed, hvisit, hhosts, ← choose]

/-! ## One group -/

theorem place_known (hnode : p.assignment.host? g.node = some host) : place g p = .ok host p := by
  simp only [place, Step.bind_apply, Step.get_apply, hnode, Step.pure_apply]

/-- A host is chosen for a node without one; if there cannot be a slot for the node, then in vain. -/
theorem place_new_eq (hnode : p.assignment.host? g.node = none) :
    place g p =
      if p.assignment.size ≤ g.node ∧ UInt64.size ≤ g.node + 1 then
        .error .overflow { p with source := (p.choose g.neighbours).2 }
      else .ok (p.choose g.neighbours).1 { p with
        assignment := (p.assignment.growTo (g.node + 1)).fill g.node (p.choose g.neighbours).1
        held := p.held.modify (p.choose g.neighbours).1 (·.insert g.node)
        source := (p.choose g.neighbours).2 } := by
  have hdrawn : { p with source := (p.choose g.neighbours).2 }.assignment.host? g.node = none := hnode
  have hcommit := commit_apply hdrawn (p.choose g.neighbours).1
  split at hcommit
  case isTrue hpast =>
    simp only [place, Step.bind_apply, Step.get_apply, hnode, consider, hcommit]
    exact (if_pos hpast).symm
  case isFalse hroom =>
    simp only [place, Step.bind_apply, Step.get_apply, hnode, consider, hcommit, Step.pure_apply]
    exact (if_neg hroom).symm

theorem place_new (hnode : p.assignment.host? g.node = none) (hfits : g.node + 1 < UInt64.size) :
    place g p = .ok (p.choose g.neighbours).1 { p with
      assignment := (p.assignment.growTo (g.node + 1)).fill g.node (p.choose g.neighbours).1
      held := p.held.modify (p.choose g.neighbours).1 (·.insert g.node)
      source := (p.choose g.neighbours).2 } := by
  rw [place_new_eq hnode, if_neg fun hpast => Nat.not_le.mpr hfits hpast.2]

theorem exists_place (hfits : g.node + 1 < UInt64.size) (p : GroupPlacer σ) :
    ∃ host q, place g p = .ok host q := by
  cases hnode : p.assignment.host? g.node with
  | some current => exact ⟨current, p, place_known hnode⟩
  | none => exact ⟨_, _, place_new hnode hfits⟩

/-- All that a call can do when it gives a host: nothing for a node that has it, and else a choice that is entered
in both books. -/
theorem place_cases (h : place g p = .ok host q) :
    p.assignment.host? g.node = some host ∧ q = p ∨
      p.assignment.host? g.node = none ∧ host = (p.choose g.neighbours).1 ∧ q = { p with
        assignment := (p.assignment.growTo (g.node + 1)).fill g.node (p.choose g.neighbours).1
        held := p.held.modify (p.choose g.neighbours).1 (·.insert g.node)
        source := (p.choose g.neighbours).2 } := by
  cases hnode : p.assignment.host? g.node with
  | some current =>
      cases (place_known hnode).symm.trans h
      exact Or.inl ⟨rfl, rfl⟩
  | none =>
      rw [place_new_eq hnode] at h
      split at h
      · cases h
      · cases h
        exact Or.inr ⟨rfl, rfl, rfl⟩

theorem strategy_place (h : place g p = .ok host q) : q.strategy = p.strategy := by
  rcases place_cases h with ⟨-, rfl⟩ | ⟨-, -, rfl⟩ <;> rfl

theorem capacity_place (h : place g p = .ok host q) : q.capacity = p.capacity := by
  rcases place_cases h with ⟨-, rfl⟩ | ⟨-, -, rfl⟩ <;> rfl

theorem hosts_place (h : place g p = .ok host q) : q.hosts = p.hosts := by
  rcases place_cases h with ⟨-, rfl⟩ | ⟨-, -, rfl⟩
  · rfl
  · simp [hosts]

/-- Of all nodes, the one of the group is the only one that can get a host. -/
theorem host?_place (h : place g p = .ok host q) (v : Nat) :
    q.assignment.host? v = if v = g.node then some host else p.assignment.host? v := by
  rcases place_cases h with ⟨hnode, rfl⟩ | ⟨-, rfl, rfl⟩
  · by_cases hv : v = g.node
    · rw [if_pos hv, hv, hnode]
    · rw [if_neg hv]
  · rw [Assignment.host?_fill (Assignment.lt_size_growTo _ _), Assignment.host?_growTo]

theorem le_place (h : place g p = .ok host q) : p.assignment ≤ q.assignment := by
  rcases place_cases h with ⟨-, rfl⟩ | ⟨hnode, -, rfl⟩
  · exact Assignment.le_refl _
  · have hstill : (p.assignment.growTo (g.node + 1)).host? g.node = none := by
      rw [Assignment.host?_growTo, hnode]
    exact Assignment.le_trans (Assignment.le_growTo _ _)
      (Assignment.le_fill (Assignment.lt_size_growTo _ _) hstill _)

/-- What placing a node on a host keeps, and what it brings about. -/
structure Places (p : GroupPlacer σ) (node host : Nat) (q : GroupPlacer σ) : Prop where
  sound : q.Sound
  hosts_eq : q.hosts = p.hosts
  host? : q.assignment.host? node = some host
  le : p.assignment ≤ q.assignment
  only : ∀ v other, q.assignment.host? v = some other → v = node ∨ p.assignment.host? v = some other

/-- **One group.** Its node is on the host that the call gives, and no node has moved. -/
theorem Sound.place (hp : p.Sound) (h : GroupPlacer.place g p = .ok host q) :
    Places p g.node host q := by
  have hhosts := hosts_place h
  refine ⟨?_, hhosts, by rw [host?_place h, if_pos rfl], le_place h, fun v other hv => ?_⟩
  · rcases place_cases h with ⟨-, rfl⟩ | ⟨hnode, rfl, rfl⟩
    · exact hp
    · have hstill : (p.assignment.growTo (g.node + 1)).host? g.node = none := by
        rw [Assignment.host?_growTo, hnode]
      refine ⟨hhosts.symm ▸ hp.hosts_pos, (hp.counted.growTo _).fill (Assignment.lt_size_growTo _ _) hstill, ?_⟩
      intro v other hv
      rw [host?_place h] at hv
      split at hv
      · cases hv
        exact hhosts.symm ▸ choose_lt hp.hosts_pos g.neighbours
      · exact hhosts.symm ▸ hp.host_lt v other hv
  · rw [host?_place h] at hv
    split at hv
    case isTrue heq => exact Or.inl heq
    case isFalse => exact Or.inr hv

/-! ## All groups -/

/-- What placing some groups keeps, and what it brings about. -/
structure PlacesAll (p : GroupPlacer σ) (groups : List Group) (q : GroupPlacer σ) : Prop where
  sound : q.Sound
  hosts_eq : q.hosts = p.hosts
  host? : ∀ g ∈ groups, ∃ host, q.assignment.host? g.node = some host
  le : p.assignment ≤ q.assignment
  only : ∀ v host, q.assignment.host? v = some host →
    (∃ g ∈ groups, v = g.node) ∨ p.assignment.host? v = some host

theorem placeAll_cons (g : Group) (groups : List Group) :
    (placeAll (g :: groups) : Step (GroupPlacer σ) (List Nat)) =
      GroupPlacer.place g >>= fun host => placeAll groups >>= fun later => pure (host :: later) :=
  List.mapM_cons

theorem placeAll_cons_eq_ok {groups : List Group} {hosts : List Nat} :
    placeAll (g :: groups) p = .ok hosts q ↔ ∃ host m later,
      GroupPlacer.place g p = .ok host m ∧ placeAll groups m = .ok later q ∧ hosts = host :: later := by
  rw [placeAll_cons, Step.bind_eq_ok]
  constructor
  · rintro ⟨host, m, hplace, hrest⟩
    obtain ⟨later, _, hlater, hdone⟩ := Step.bind_eq_ok.mp hrest
    cases hdone
    exact ⟨host, m, later, hplace, hlater, rfl⟩
  · rintro ⟨host, m, later, hplace, hlater, rfl⟩
    exact ⟨host, m, hplace, Step.bind_eq_ok.mpr ⟨later, q, hlater, rfl⟩⟩

/-- The answers are the hosts that the nodes have in the end, and no node has lost its host. -/
theorem answers_of_placeAll {groups : List Group} {hosts : List Nat} (hall : placeAll groups p = .ok hosts q) :
    hosts.map some = groups.map (fun g => q.assignment.host? g.node) ∧ p.assignment ≤ q.assignment := by
  induction groups generalizing p hosts with
  | nil =>
      cases hall
      exact ⟨rfl, Assignment.le_refl _⟩
  | cons g groups ih =>
      obtain ⟨host, m, later, hplace, hlater, rfl⟩ := placeAll_cons_eq_ok.mp hall
      obtain ⟨hanswers, hkept⟩ := ih hlater
      have hnode : q.assignment.host? g.node = some host := hkept _ _ (by rw [host?_place hplace, if_pos rfl])
      exact ⟨by rw [List.map_cons, List.map_cons, hanswers, hnode],
        Assignment.le_trans (le_place hplace) hkept⟩

/-- **All groups.** Each node that comes is on a host in the end, and none moves on the way. -/
theorem Sound.placeAll {groups : List Group} {hosts : List Nat} (hp : p.Sound)
    (h : GroupPlacer.placeAll groups p = .ok hosts q) : PlacesAll p groups q := by
  induction groups generalizing p hosts with
  | nil =>
      cases h
      exact ⟨hp, rfl, by simp, Assignment.le_refl _, fun _ _ hv => Or.inr hv⟩
  | cons g groups ih =>
      obtain ⟨host, m, later, hplace, hlater, rfl⟩ := placeAll_cons_eq_ok.mp h
      have hone := hp.place hplace
      have hall := ih hone.sound hlater
      refine ⟨hall.sound, hall.hosts_eq.trans hone.hosts_eq, ?_, Assignment.le_trans hone.le hall.le, ?_⟩
      · intro g' hg'
        rcases List.mem_cons.mp hg' with rfl | hg'
        · exact ⟨host, hall.le _ _ hone.host?⟩
        · exact hall.host? g' hg'
      · intro v other hv
        rcases hall.only v other hv with ⟨g', hg', rfl⟩ | hv
        · exact Or.inl ⟨g', List.mem_cons_of_mem _ hg', rfl⟩
        · rcases hone.only v other hv with rfl | hv
          · exact Or.inl ⟨g, List.mem_cons_self, rfl⟩
          · exact Or.inr hv

/-- All groups of a graph are placed from a start that has a slot for each of them. -/
theorem partition_eq_ok {cfg : Config} {groups : List Group} {o : GroupOutcome} :
    partition cfg groups = .ok o ↔ ∃ placer hosts final,
      ofConfig cfg groups.length = .ok placer ∧ GroupPlacer.placeAll groups placer = .ok hosts final ∧
        o = final.outcome := by
  rw [partition, Step.except_bind_eq_ok]
  constructor
  · rintro ⟨placer, hplacer, h⟩
    cases hall : GroupPlacer.placeAll groups placer with
    | error fault final =>
        rw [hall] at h
        cases h
    | ok hosts final =>
        rw [hall] at h
        cases h
        exact ⟨placer, hosts, final, hplacer, hall, rfl⟩
  · rintro ⟨placer, hosts, final, hplacer, hall, rfl⟩
    refine ⟨placer, hplacer, ?_⟩
    rw [hall]
    rfl

end GraphPlacement.GroupPlacer
