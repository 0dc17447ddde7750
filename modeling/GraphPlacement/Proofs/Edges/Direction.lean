import GraphPlacement.Proofs.Edges.Calls

/-!
# The direction of an edge

**Asymmetries.** The rules look at the source first, and give it its host first; they take the endpoint
without a host for the target of a join; and they weigh the host of the source against that of the other
end.  None of this shows in what they do.

**One call.** Turning an edge around turns around the order in which its new endpoints get their host, and
nothing else of the decision (`decide?_swap`).  Both orders fill the same slots, so the decision is carried
out with the same result (`commit_reverse`): a call and the turned one differ in how the placement that
is handed back names its ends (`call_swap`).

**A run** therefore goes through the same states whichever of its edges are turned around:
`direction_is_immaterial`.
-/

namespace GraphPlacement

/-- The placement with its ends exchanged. -/
def Placement.reverse (x : Placement) : Placement := ⟨x.dst, x.src, x.host, x.rule⟩

/-- The decision with its new endpoints in the other order. -/
def Decision.reverse (d : Decision) : Decision := { d with fresh := d.fresh.reverse }

namespace EdgePlacer

variable {p q : EdgePlacer} {src dst nodes : Nat} {checked : Bool}

/-! ## One decision -/

theorem ends_swap (src dst : Nat) : ends dst src = (ends src dst).reverse := by
  unfold ends
  by_cases h : src = dst
  · simp [h]
  · simp [h, Ne.symm h]

theorem lighterEdges_swap (a b : Nat) (loadA loadB : Load) :
    lighterEdges b a loadB loadA = lighterEdges a b loadA loadB := by
  unfold lighterEdges
  rcases Nat.lt_trichotomy loadA.edges loadB.edges with h | h | h
  · rw [if_neg (Nat.lt_asymm h), if_pos h, if_pos h]
  · simp only [h, if_neg (Nat.lt_irrefl _), Nat.min_comm]
  · rw [if_pos h, if_neg (Nat.lt_asymm h), if_pos h]

/-- A single new endpoint has no other order. -/
theorem map_reverse_decideBeside? (p : EdgePlacer) (known target : Nat) :
    (p.decideBeside? known target).map Decision.reverse = p.decideBeside? known target := by
  unfold decideBeside?
  split
  · rfl
  · rw [Option.map_map]
    rfl

theorem decideBetween_swap (p : EdgePlacer) (a b : Nat) :
    p.decideBetween b a = (p.decideBetween a b).reverse := by
  unfold decideBetween
  by_cases h : a = b
  · simp [h, Decision.reverse]
  · simp [h, Ne.symm h, Decision.reverse, lighterEdges_swap]

/-- **The decision about a turned edge** names the new endpoints in the other order. -/
theorem decide?_swap (p : EdgePlacer) (src dst : Nat) :
    p.decide? dst src = (p.decide? src dst).map Decision.reverse := by
  unfold decide?
  cases p.assignment.host? src with
  | none =>
      cases p.assignment.host? dst with
      | none =>
          rw [Option.map_map, ends_swap]
          rfl
      | some known => exact (map_reverse_decideBeside? p known src).symm
  | some known =>
      cases p.assignment.host? dst with
      | none => exact (map_reverse_decideBeside? p known dst).symm
      | some other => exact congrArg some (decideBetween_swap p known other)

theorem fillAll_reverse (a : Assignment) (nodes : List Nat) (host : Nat) :
    a.fillAll nodes.reverse host = a.fillAll nodes host :=
  Assignment.fillAll_perm (List.reverse_perm nodes) host a

theorem filled_reverse (p : EdgePlacer) (d : Decision) : p.filled d.reverse = p.filled d := by
  simp [filled, Decision.reverse, fillAll_reverse]

theorem commit_reverse (p : EdgePlacer) (d : Decision) : p.commit d.reverse = p.commit d := by
  simp [commit, Decision.reverse, fillAll_reverse]

theorem count_reverse (d : Decision) :
    count d.reverse.host d.reverse.fresh.length = count d.host d.fresh.length := by
  simp [Decision.reverse]

/-! ## One call -/

/-- **A call for a turned edge** leaves the placer as the call for the edge does, and has the same answer
but for the order of the ends. -/
theorem call_swap (hp : p.HostsExist) (hsrc : src < p.assignment.size) (hdst : dst < p.assignment.size) :
    call checked dst src p = (Placement.reverse <$> call checked src dst) p := by
  rw [Step.map_apply, call_eq hp hdst hsrc, call_eq hp hsrc hdst, decide?_swap]
  cases p.decide? src dst with
  | none => rfl
  | some d =>
      simp only [Option.map_some, commit_reverse, filled_reverse, count_reverse]
      split
      · rfl
      · split
        · rfl
        · split <;> rfl

theorem call_turned {edge : Nat × Nat} (hp : p.HostsExist)
    (hedge : edge.1 < p.assignment.size ∧ edge.2 < p.assignment.size) (turn : Bool) :
    call checked (if turn then edge.swap else edge).1 (if turn then edge.swap else edge).2 p =
      ((if turn then Placement.reverse else id) <$> call checked edge.1 edge.2) p := by
  cases turn with
  | true => exact call_swap hp hedge.1 hedge.2
  | false => exact congrFun (id_map (call checked edge.1 edge.2)).symm p

/-! ## All calls -/

/-- Whether two placers for the edges of a graph are the same. -/
structure Twin (nodes : Nat) (p q : EdgePlacer) : Prop where
  eq : q = p
  hostsExist : p.HostsExist
  size_eq : p.assignment.size = nodes

theorem Twin.call_turned {edge : Nat × Nat} (h : Twin nodes p q) (hedge : edge.1 < nodes ∧ edge.2 < nodes)
    (turn : Bool) :
    Step.outcome (call checked (if turn then edge.swap else edge).1 (if turn then edge.swap else edge).2 q) =
        (Step.outcome (call checked edge.1 edge.2 p)).map (if turn then Placement.reverse else id) ∧
      Twin nodes (Step.after (call checked edge.1 edge.2 p))
        (Step.after (call checked (if turn then edge.swap else edge).1
          (if turn then edge.swap else edge).2 q)) := by
  obtain ⟨rfl, hexist, hsize⟩ := h
  have hkept : Twin nodes (Step.after (call checked edge.1 edge.2 q))
      (Step.after (call checked edge.1 edge.2 q)) :=
    ⟨rfl, hexist.call checked edge.1 edge.2, (size_call hexist checked edge.1 edge.2).trans hsize⟩
  rw [EdgePlacer.call_turned hexist (hsize ▸ hedge), Step.map_apply]
  cases hcall : call checked edge.1 edge.2 q with
  | ok x later =>
      rw [hcall] at hkept
      exact ⟨rfl, hkept⟩
  | error fault later =>
      rw [hcall] at hkept
      exact ⟨rfl, hkept⟩

/-- **The direction of edges is immaterial.**  Let some edges of a graph be placed on any pool, and let the same
edges be placed with any of them turned around.  Then each call is answered as before, with the same host
and the same rule, only that a placement of a turned edge names its ends in the other order; after each
call the placers are equal, and so is what they come to when they finish. -/
theorem direction_is_immaterial (nodes : Nat) (start : Pool) (checked : Bool) {edges : List (Nat × Nat)}
    (hedges : ∀ e ∈ edges, e.1 < nodes ∧ e.2 < nodes) (reversed : Nat → Bool) :
    let turned := edges.mapIdx fun i e => if reversed i then e.swap else e
    let run := fun es => (ofPool nodes start).callAll checked es
    (run turned).answers = (run edges).answers.mapIdx
        (fun i answer => answer.map (if reversed i then Placement.reverse else id)) ∧
      (∀ k, (run (turned.take k)).placer = (run (edges.take k)).placer) ∧
      (run turned).placer.finish = (run edges).placer.finish := by
  intro turned run
  have hstart : Twin nodes (ofPool nodes start) (ofPool nodes start) :=
    ⟨rfl, hostsExist_ofPool nodes start, size_ofPool nodes start⟩
  obtain ⟨hanswers, hplacers⟩ :
      (run turned).answers = (run edges).answers.mapIdx
          (fun i answer => answer.map (if reversed i then Placement.reverse else id)) ∧
        ∀ k, Twin nodes (run (edges.take k)).placer (run (turned.take k)).placer :=
    callAll_lockstep (fun i e he {_ _} h => h.call_turned (hedges e he) (reversed i)) hstart
  have hfinal : (run turned).placer = (run edges).placer := by
    have hlast := (hplacers edges.length).eq
    rwa [List.take_length, List.take_of_length_le (by simp [turned])] at hlast
  exact ⟨hanswers, fun k => (hplacers k).eq, by rw [hfinal]⟩

/-- A triangle, a loop and an edge to a further node, with every second edge turned around. -/
theorem direction_is_immaterial_on_triangle :
    let start : Pool := ⟨Array.replicate 2 {}, 1.5, 1.5, 0.5, 0⟩
    let edges := [(0, 1), (1, 2), (2, 0), (3, 3), (4, 0)]
    let run := (ofPool 5 start).callAll true edges
    let turned := (ofPool 5 start).callAll true [(1, 0), (1, 2), (0, 2), (3, 3), (0, 4)]
    (∀ e ∈ edges, e.1 < 5 ∧ e.2 < 5) ∧
      turned.answers = [.ok ⟨1, 0, 0, .freshPair⟩, .ok ⟨1, 2, 1, .overflow⟩, .ok ⟨0, 2, 0, .crossHost⟩,
        .ok ⟨3, 3, 1, .freshPair⟩, .ok ⟨0, 4, 0, .joinKnown⟩] ∧
      turned.placer = run.placer ∧ turned.placer.finish = run.placer.finish := by
  intro start edges run turned
  have hedges : ∀ e ∈ edges, e.1 < 5 ∧ e.2 < 5 := by decide
  have hrun : run.answers = [.ok ⟨0, 1, 0, .freshPair⟩, .ok ⟨1, 2, 1, .overflow⟩,
      .ok ⟨2, 0, 0, .crossHost⟩, .ok ⟨3, 3, 1, .freshPair⟩, .ok ⟨4, 0, 0, .joinKnown⟩] := by decide +kernel
  obtain ⟨hanswers, hplacers, hfinish⟩ :=
    direction_is_immaterial 5 start true hedges fun i => i % 2 == 0
  refine ⟨hedges, hanswers.trans ?_, hplacers 5, hfinish⟩
  rw [show ((ofPool 5 start).callAll true edges).answers = _ from hrun]
  rfl

end EdgePlacer

end GraphPlacement
