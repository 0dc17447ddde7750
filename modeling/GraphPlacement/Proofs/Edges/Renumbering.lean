import GraphPlacement.Proofs.Edges.Calls
import Mathlib.Data.List.Nodup
import Mathlib.Data.Set.Function
import Mathlib.Order.Interval.Set.Defs

/-!
# The numbers of the nodes

**Numbers.** Nodes are told apart by their numbers, and by nothing else: a placer compares the two ends of an
edge and looks up their slots.  So if the nodes of a graph are given other numbers, different ones to
different nodes, and the graph may have further nodes besides, then nothing changes but the numbers.

**Relation.** `Assignment.Renumbered` says of two assignments that each node of the first has its host under
its new number in the second, where no further number has one; filling slots keeps it
(`Assignment.Renumbered.fillAll`).  The decision about an edge is the same but for the numbers of the new
endpoints (`Renumbered.decide?`), which a call (`Renumbered.call`) and hence a run keeps up:
`numbering_is_immaterial`.
-/

namespace GraphPlacement

/-- The placement with other numbers for its ends. -/
def Placement.renumber (f : Nat → Nat) (x : Placement) : Placement := ⟨f x.src, f x.dst, x.host, x.rule⟩

/-- The decision with other numbers for its new endpoints. -/
def Decision.renumber (f : Nat → Nat) (d : Decision) : Decision := { d with fresh := d.fresh.map f }

/-- A change that is the same at every place. -/
theorem mapIdx_const {α β : Type} (g : α → β) (as : List α) : as.mapIdx (fun _ => g) = as.map g :=
  List.ext_getElem? fun i => by simp

section Renumbering

variable {f : Nat → Nat} {n m : Nat}
variable (hmaps : Set.MapsTo f (Set.Iio n) (Set.Iio m)) (hinj : Set.InjOn f (Set.Iio n))

namespace Assignment

variable {a b : Assignment} {nodes : List Nat}

/-- Whether an assignment of `m` nodes is one of `n` nodes that have got new numbers. -/
structure Renumbered (f : Nat → Nat) (n m : Nat) (a b : Assignment) : Prop where
  size_left : a.size = n
  size_right : b.size = m
  host?_image : ∀ v < n, b.host? (f v) = a.host? v
  host?_outside : ∀ w ∉ f '' Set.Iio n, b.host? w = none

theorem renumbered_ofSize (f : Nat → Nat) (n m : Nat) : Renumbered f n m (ofSize n) (ofSize m) where
  size_left := size_ofSize n
  size_right := size_ofSize m
  host?_image := by simp
  host?_outside := by simp

theorem Renumbered.host?_eq_some (h : Renumbered f n m a b) {w host : Nat} (hw : b.host? w = some host) :
    ∃ v < n, f v = w ∧ a.host? v = some host := by
  by_cases himage : w ∈ f '' Set.Iio n
  · obtain ⟨v, hv, rfl⟩ := himage
    exact ⟨v, hv, rfl, (h.host?_image v hv).symm.trans hw⟩
  · rw [h.host?_outside w himage] at hw
    cases hw

include hinj in
theorem mem_map_iff_of_injOn (hnodes : ∀ v ∈ nodes, v < n) {v : Nat} (hv : v < n) :
    f v ∈ nodes.map f ↔ v ∈ nodes := by
  rw [List.mem_map]
  constructor
  · rintro ⟨w, hw, heq⟩
    rwa [← hinj (hnodes w hw) hv heq]
  · intro hmem
    exact ⟨v, hmem, rfl⟩

include hmaps hinj in
theorem Renumbered.allEmpty (h : Renumbered f n m a b) (hempty : a.AllEmpty nodes) :
    b.AllEmpty (nodes.map f) where
  nodup := by
    refine hempty.nodup.map_on fun v hv w hw heq => hinj ?_ ?_ heq
    · exact h.size_left ▸ hempty.lt_size v hv
    · exact h.size_left ▸ hempty.lt_size w hw
  lt_size := by
    intro w hw
    obtain ⟨v, hv, rfl⟩ := List.mem_map.mp hw
    rw [h.size_right]
    exact hmaps (h.size_left ▸ hempty.lt_size v hv)
  host?_eq_none := by
    intro w hw
    obtain ⟨v, hv, rfl⟩ := List.mem_map.mp hw
    rw [h.host?_image v (h.size_left ▸ hempty.lt_size v hv)]
    exact hempty.host?_eq_none v hv

include hmaps hinj in
/-- Filling the slots of some nodes goes with filling those of their new numbers. -/
theorem Renumbered.fillAll (h : Renumbered f n m a b) (hempty : a.AllEmpty nodes) (host : Nat) :
    Renumbered f n m (a.fillAll nodes host) (b.fillAll (nodes.map f) host) where
  size_left := by rw [size_fillAll, h.size_left]
  size_right := by rw [size_fillAll, h.size_right]
  host?_image v hv := by
    have hnodes : ∀ w ∈ nodes, w < n := fun w hw => h.size_left ▸ hempty.lt_size w hw
    rw [host?_fillAll (h.allEmpty hmaps hinj hempty), host?_fillAll hempty, h.host?_image v hv]
    simp only [mem_map_iff_of_injOn hinj hnodes hv]
  host?_outside w hw := by
    have hnew : w ∉ nodes.map f := by
      intro hmem
      obtain ⟨v, hv, rfl⟩ := List.mem_map.mp hmem
      exact hw ⟨v, h.size_left ▸ hempty.lt_size v hv, rfl⟩
    rw [host?_fillAll (h.allEmpty hmaps hinj hempty), if_neg hnew, h.host?_outside w hw]

end Assignment

namespace EdgePlacer

variable {p q : EdgePlacer} {src dst : Nat} {d : Decision} {checked : Bool}

/-- Whether a placer is another one whose nodes have got new numbers. -/
structure Renumbered (f : Nat → Nat) (n m : Nat) (p q : EdgePlacer) : Prop where
  hostsExist : p.HostsExist
  assignment : p.assignment.Renumbered f n m q.assignment
  pool_eq : q.pool = p.pool
  edges_eq : q.edges = p.edges

theorem renumbered_ofPool (f : Nat → Nat) (n m : Nat) (start : Pool) :
    Renumbered f n m (ofPool n start) (ofPool m start) where
  hostsExist := hostsExist_ofPool n start
  assignment := Assignment.renumbered_ofSize f n m
  pool_eq := rfl
  edges_eq := rfl

theorem Renumbered.hostsExist_right (h : Renumbered f n m p q) : q.HostsExist := by
  intro w host hw
  obtain ⟨v, -, -, hv⟩ := h.assignment.host?_eq_some hw
  rw [h.pool_eq]
  exact h.hostsExist v host hv

/-! ## One decision -/

include hinj in
theorem ends_map (hsrc : src < n) (hdst : dst < n) : ends (f src) (f dst) = (ends src dst).map f := by
  unfold ends
  by_cases heq : src = dst
  · simp [heq]
  · have hne : f src ≠ f dst := fun hf => heq (hinj hsrc hdst hf)
    simp [heq, hne]

theorem decideBeside?_renumber (hpool : q.pool = p.pool) (known target : Nat) :
    q.decideBeside? known (f target) = (p.decideBeside? known target).map (Decision.renumber f) := by
  unfold decideBeside?
  rw [hpool]
  split
  · rfl
  · rw [Option.map_map]
    rfl

theorem decideBetween_renumber (hpool : q.pool = p.pool) (a b : Nat) :
    q.decideBetween a b = (p.decideBetween a b).renumber f := by
  unfold decideBetween
  rw [hpool]
  split <;> rfl

include hinj in
/-- **The decision about an edge with new numbers** is the same but for these. -/
theorem Renumbered.decide? (h : Renumbered f n m p q) (hsrc : src < n) (hdst : dst < n) :
    q.decide? (f src) (f dst) = (p.decide? src dst).map (Decision.renumber f) := by
  unfold EdgePlacer.decide?
  rw [h.assignment.host?_image src hsrc, h.assignment.host?_image dst hdst]
  cases p.assignment.host? src with
  | none =>
      cases p.assignment.host? dst with
      | none =>
          rw [h.pool_eq, Option.map_map, ends_map hinj hsrc hdst]
          rfl
      | some known => exact decideBeside?_renumber h.pool_eq known src
  | some known =>
      cases p.assignment.host? dst with
      | none => exact decideBeside?_renumber h.pool_eq known dst
      | some other => exact congrArg some (decideBetween_renumber h.pool_eq known other)

include hmaps hinj in
theorem Renumbered.commit (h : Renumbered f n m p q) (hsrc : src < n) (hdst : dst < n)
    (hd : p.Decides src dst d) : Renumbered f n m (p.commit d) (q.commit (d.renumber f)) := by
  have hsize := h.assignment.size_left
  have hin : src < p.assignment.size ∧ dst < p.assignment.size := by omega
  refine ⟨h.hostsExist.commit hd hin.1 hin.2, ?_, ?_, ?_⟩
  · exact h.assignment.fillAll hmaps hinj (hd.allEmpty hin.1 hin.2) d.host
  · simp [EdgePlacer.commit, Decision.renumber]
  · simp [EdgePlacer.commit, h.edges_eq]

include hmaps hinj in
theorem Renumbered.partly (h : Renumbered f n m p q) (hsrc : src < n) (hdst : dst < n)
    (hd : p.Decides src dst d) (nodes edges : Nat) :
    Renumbered f n m (p.partly d nodes edges) (q.partly (d.renumber f) nodes edges) := by
  have hsize := h.assignment.size_left
  have hin : src < p.assignment.size ∧ dst < p.assignment.size := by omega
  exact ⟨h.hostsExist.partly hd hin.1 hin.2 nodes edges,
    h.assignment.fillAll hmaps hinj (hd.allEmpty hin.1 hin.2) d.host, rfl, h.edges_eq⟩

/-! ## One call -/

/-- Counting does not look at the assignment. -/
theorem count_with (host nodes : Nat) (p : EdgePlacer) (a : Assignment) :
    count host nodes { p with assignment := a } =
      match count host nodes p with
      | .ok done q => .ok done { q with assignment := a }
      | .error fault q => .error fault { q with assignment := a } := by
  have hnodes : countNodes host nodes { p with assignment := a } =
      match countNodes host nodes p with
      | .ok done q => .ok done { q with assignment := a }
      | .error fault q => .error fault { q with assignment := a } := by
    unfold countNodes
    split
    · rfl
    · rw [onPool_apply, onPool_apply]
      cases Pool.addNodes host nodes p.pool <;> rfl
  rw [count, Step.bind_apply, Step.bind_apply, hnodes]
  cases countNodes host nodes p with
  | error fault q => rfl
  | ok _ q =>
      simp only [Step.bind_apply, onPool_apply]
      cases Pool.addEdge host q.pool with
      | error fault pool => rfl
      | ok _ pool =>
          rcases Nat.lt_or_ge (q.edges + 1) UInt64.size with hfits | hlarge
          · simp [countEdge, Step.bind_apply, Overflow.word_of_lt hfits]
          · simp [countEdge, Step.bind_apply, Overflow.word_stops_of_le hlarge]

theorem Renumbered.filled (h : Renumbered f n m p q) (d : Decision) :
    q.filled (d.renumber f) =
      { p.filled d with assignment := q.assignment.fillAll (d.fresh.map f) d.host } := by
  simp [EdgePlacer.filled, Decision.renumber, h.edges_eq]

include hmaps hinj in
/-- **A call for an edge with new numbers** has the same answer but for these, and keeps the placers
related. -/
theorem Renumbered.call (h : Renumbered f n m p q) (hsrc : src < n) (hdst : dst < n) :
    Step.outcome (call checked (f src) (f dst) q) =
        (Step.outcome (call checked src dst p)).map (Placement.renumber f) ∧
      Renumbered f n m (Step.after (call checked src dst p))
        (Step.after (call checked (f src) (f dst) q)) := by
  have hleft : src < p.assignment.size ∧ dst < p.assignment.size := by
    have hsize := h.assignment.size_left
    omega
  have hright : f src < q.assignment.size ∧ f dst < q.assignment.size := by
    rw [h.assignment.size_right]
    exact ⟨hmaps hsrc, hmaps hdst⟩
  rw [call_eq h.hostsExist hleft.1 hleft.2, call_eq h.hostsExist_right hright.1 hright.2,
    h.decide? hinj hsrc hdst]
  cases hd : p.decide? src dst with
  | none =>
      refine ⟨rfl, ?_, h.assignment, ?_, h.edges_eq⟩
      · simpa [HostsExist] using h.hostsExist
      · simp [h.pool_eq]
  | some d =>
      have hdecides := decides_of_decide? hd
      have hcommit := h.commit hmaps hinj hsrc hdst hdecides
      have hlength : (d.renumber f).fresh.length = d.fresh.length := List.length_map f
      have hhost : (d.renumber f).host = d.host := rfl
      simp only [Option.map_some, hcommit.pool_eq, hlength, h.filled d, count_with]
      cases hcount : count d.host d.fresh.length (p.filled d) with
      | error fault stopped =>
          obtain ⟨nodes, -, edges, -, rfl, rfl⟩ := count_eq_error (hdecides.host_lt_pool h.hostsExist) hcount
          have hpartly := h.partly hmaps hinj hsrc hdst hdecides nodes edges
          simp only [hhost, hcount]
          exact ⟨rfl, hpartly.hostsExist, hpartly.assignment, rfl, rfl⟩
      | ok _ _ =>
          simp only [hhost, hcount]
          split
          · exact ⟨rfl, hcommit⟩
          · split
            · exact ⟨rfl, hcommit⟩
            · exact ⟨rfl, hcommit⟩

/-! ## All calls -/

/-- **The numbering of nodes is immaterial.**  Let edges between the first `n` nodes be placed on any pool, and
let the same edges be placed in a graph of `m` nodes where these have got other numbers, each a different one.
Then each call is answered as before, with the same host and the same rule, only that a placement has the new
numbers for its ends; after each call the pools are equal.  In the end each node has the same host under
either number, and no other node of the second graph has one. -/
theorem numbering_is_immaterial {f : Nat → Nat} {n m : Nat} (hmaps : Set.MapsTo f (Set.Iio n) (Set.Iio m))
    (hinj : Set.InjOn f (Set.Iio n)) (start : Pool) (checked : Bool) {edges : List (Nat × Nat)}
    (hedges : ∀ e ∈ edges, e.1 < n ∧ e.2 < n) :
    let images := edges.map (Prod.map f f)
    let run := fun es => (ofPool n start).callAll checked es
    let renumbered := fun es => (ofPool m start).callAll checked es
    (renumbered images).answers =
        (run edges).answers.map (fun answer => answer.map (Placement.renumber f)) ∧
      (∀ k, (renumbered (images.take k)).placer.pool = (run (edges.take k)).placer.pool) ∧
      (∀ v < n, (renumbered images).placer.assignment.host? (f v) =
        (run edges).placer.assignment.host? v) ∧
      ∀ w ∉ f '' Set.Iio n, (renumbered images).placer.assignment.host? w = none := by
  intro images run renumbered
  have hsame : edges.mapIdx (fun _ => Prod.map f f) = images := mapIdx_const _ edges
  obtain ⟨hanswers, hplacers⟩ :
      (renumbered images).answers =
          (run edges).answers.mapIdx (fun _ answer => answer.map (Placement.renumber f)) ∧
        ∀ k, Renumbered f n m (run (edges.take k)).placer (renumbered (images.take k)).placer :=
    hsame ▸ callAll_lockstep
      (fun _ e he {_ _} h => h.call hmaps hinj (hedges e he).1 (hedges e he).2)
      (renumbered_ofPool f n m start)
  have hlast : Renumbered f n m (run edges).placer (renumbered images).placer := by
    have h := hplacers edges.length
    rwa [List.take_length, List.take_of_length_le (by simp [images])] at h
  refine ⟨hanswers.trans (mapIdx_const _ _), fun k => (hplacers k).pool_eq, ?_, ?_⟩
  · exact hlast.assignment.host?_image
  · exact hlast.assignment.host?_outside

/-- A triangle and a loop, in a graph where the nodes are spread out and come in the other order. -/
theorem numbering_is_immaterial_on_triangle :
    let start : Pool := ⟨Array.replicate 2 {}, 1.5, 1.5, 0.5, 0⟩
    let f := fun v => 13 - 3 * v
    let edges := [(0, 1), (1, 2), (2, 0), (3, 3)]
    let run := (ofPool 4 start).callAll true edges
    let renumbered := (ofPool 14 start).callAll true [(13, 10), (10, 7), (7, 13), (4, 4)]
    (Set.MapsTo f (Set.Iio 4) (Set.Iio 14) ∧ Set.InjOn f (Set.Iio 4) ∧ ∀ e ∈ edges, e.1 < 4 ∧ e.2 < 4) ∧
      renumbered.answers = [.ok ⟨13, 10, 0, .freshPair⟩, .ok ⟨10, 7, 1, .overflow⟩,
        .ok ⟨7, 13, 0, .crossHost⟩, .ok ⟨4, 4, 1, .freshPair⟩] ∧
      renumbered.placer.pool = run.placer.pool ∧ renumbered.placer.assignment.host? 7 = some 1 ∧
      renumbered.placer.assignment.host? 8 = none := by
  intro start f edges run renumbered
  have hmaps : Set.MapsTo f (Set.Iio 4) (Set.Iio 14) := by
    intro v _
    show 13 - 3 * v < 14
    omega
  have hinj : Set.InjOn f (Set.Iio 4) := by
    intro v hv w hw heq
    have hfv : 13 - 3 * v = 13 - 3 * w := heq
    simp only [Set.mem_Iio] at hv hw
    omega
  have hedges : ∀ e ∈ edges, e.1 < 4 ∧ e.2 < 4 := by decide
  have hrun : run.answers = [.ok ⟨0, 1, 0, .freshPair⟩, .ok ⟨1, 2, 1, .overflow⟩,
      .ok ⟨2, 0, 0, .crossHost⟩, .ok ⟨3, 3, 1, .freshPair⟩] := by decide +kernel
  have hhost : run.placer.assignment.host? 2 = some 1 := by decide +kernel
  have hnew : (8 : Nat) ∉ f '' Set.Iio 4 := by
    rintro ⟨v, hv, heq⟩
    have hfv : 13 - 3 * v = 8 := heq
    omega
  obtain ⟨hanswers, hpools, himage, houtside⟩ := numbering_is_immaterial hmaps hinj start true hedges
  refine ⟨⟨hmaps, hinj, hedges⟩, hanswers.trans ?_, hpools 4, (himage 2 (by decide)).trans hhost,
    houtside 8 hnew⟩
  rw [show ((ofPool 4 start).callAll true edges).answers = _ from hrun]
  rfl

end EdgePlacer

end Renumbering

end GraphPlacement
