import GraphPlacement.Proofs.Edges.Calls
import GraphPlacement.Proofs.Sizes

/-!
# Which nodes take part in a run

**Taking part.** A node gets a host when an edge that ends in it is placed for the first time, and in no
other way.  So the nodes that have a host are the endpoints of the placements that were made
(`Participation`), also when calls in between were refused: a refused call has done nothing, even if one of
its endpoints was a node of the graph.

**For good.** No call takes a host away or changes it, whatever the call comes to (`le_callAll`).  What a
node is given by the first placement that it is part of, it therefore has in every later state.
-/

namespace GraphPlacement.EdgePlacer

variable {p q : EdgePlacer} {src dst v : Nat} {d : Decision} {x : Placement} {fault : Fault}
variable {xs : List Placement} {checked : Bool}

/-! ## Keeping a host -/

theorem le_call (hp : p.HostsExist) (checked : Bool) (src dst : Nat) :
    p.assignment ≤ (Step.after (call checked src dst p)).assignment := by
  rcases after_call hp checked src dst with
    heq | ⟨-, heq⟩ | ⟨d, hsrc, hdst, hd, heq | ⟨_, -, _, heq⟩⟩ <;> rw [heq]
  · exact Assignment.le_refl _
  · exact Assignment.le_refl _
  · exact le_commit hd hsrc hdst
  · exact Assignment.le_fillAll (hd.allEmpty hsrc hdst) d.host

/-- **No node moves**, however many calls are made. -/
theorem le_callAll (hp : p.HostsExist) (edges : List (Nat × Nat)) :
    p.assignment ≤ (p.callAll checked edges).placer.assignment := by
  induction edges generalizing p with
  | nil => exact Assignment.le_refl _
  | cons edge edges ih =>
      exact Assignment.le_trans (le_call hp checked edge.1 edge.2) (ih (hp.call checked edge.1 edge.2))

/-! ## Taking part -/

/-- A decision leaves the nodes with a host that had one, and the endpoints of its edge. -/
theorem assigned_commit_iff (hd : p.Decides src dst d) (hsrc : src < p.assignment.size)
    (hdst : dst < p.assignment.size) (v : Nat) :
    (∃ host, (p.commit d).assignment.host? v = some host) ↔
      (∃ host, p.assignment.host? v = some host) ∨ v = src ∨ v = dst := by
  rw [host?_commit hd hsrc hdst]
  cases hv : p.assignment.host? v with
  | none =>
      by_cases hend : v = src ∨ v = dst
      · simp [hd.mem_fresh, hv, hend]
      · simp [hd.mem_fresh, hv, hend]
  | some host => simp [hd.mem_fresh, hv]

/-- An edge between nodes that have a host leaves the assignment as it is. -/
theorem assignment_commit_of_settled (hd : p.Decides src dst d)
    (hrule : d.rule = .sameHost ∨ d.rule = .crossHost) : (p.commit d).assignment = p.assignment := by
  cases hd with
  | freshPair | joinKnown | overflow => simp at hrule
  | sameHost | crossHost => rfl

/-- The endpoints of some placements. -/
def endpoints (xs : List Placement) : List Nat := xs.flatMap fun x => [x.src, x.dst]

theorem mem_endpoints : v ∈ endpoints xs ↔ ∃ x ∈ xs, v = x.src ∨ v = x.dst := by
  simp [endpoints]

/-- Whether the nodes that have a host are the endpoints of some placements. -/
structure Participation (xs : List Placement) (p : EdgePlacer) : Prop where
  hostsExist : p.HostsExist
  counted : p.assignment.Counted
  assigned_iff : ∀ v, (∃ host, p.assignment.host? v = some host) ↔ v ∈ endpoints xs

theorem participation_ofPool (nodes : Nat) (start : Pool) : Participation [] (ofPool nodes start) where
  hostsExist := hostsExist_ofPool nodes start
  counted := Assignment.counted_ofSize nodes
  assigned_iff v := by simp [ofPool, endpoints]

theorem Participation.placed (h : Participation xs p) (hcall : call checked src dst p = .ok x q) :
    Participation (xs ++ [x]) q := by
  obtain ⟨hsrc, hdst, d, hd, rfl, rfl⟩ := call_eq_ok h.hostsExist hcall
  refine ⟨h.hostsExist.commit hd hsrc hdst, h.counted.fillAll (hd.allEmpty hsrc hdst) d.host, ?_⟩
  intro v
  rw [assigned_commit_iff hd hsrc hdst, h.assigned_iff]
  simp [endpoints]

theorem Participation.refused (h : Participation xs p) (hcall : call checked src dst p = .error fault q)
    (hreturn : fault.stopsRun = false) : Participation xs q := by
  cases call_eq_error h.hostsExist hcall with
  | noNode => exact h
  | noRoom | overflow => cases hreturn
  | stopped _ _ _ hstop =>
      rw [hstop] at hreturn
      cases hreturn

theorem participation_callAll (nodes : Nat) (start : Pool) (checked : Bool) (edges : List (Nat × Nat))
    (hreturn : ((ofPool nodes start).callAll checked edges).AllReturn) :
    Participation ((ofPool nodes start).callAll checked edges).placed
      ((ofPool nodes start).callAll checked edges).placer :=
  callAll_invariant (fun h hcall => h.placed hcall)
    (fun h hcall hfault => h.refused hcall hfault) edges (participation_ofPool nodes start) hreturn

/-- **Nodes take part for good.**  Over calls on any pool that may succeed or be refused, the nodes that have
a host are the endpoints of the placements that were made, and they are counted once each.  A call that
makes a placement, at any point of any calls, has given both endpoints of its edge a host, which they keep
through all calls that follow; if both had one before, it has changed no host at all. -/
theorem nodes_take_part_for_good (nodes : Nat) (start : Pool) (checked : Bool)
    (edges : List (Nat × Nat)) :
    let run := (ofPool nodes start).callAll checked edges
    let p := run.placer
    (run.AllReturn →
      (∀ v, (∃ host, p.assignment.host? v = some host) ↔ ∃ x ∈ run.placed, v = x.src ∨ v = x.dst) ∧
      p.assignment.assigned = (run.placed.flatMap fun x => [x.src, x.dst]).toFinset.card) ∧
    ∀ src dst x q, call checked src dst p = .ok x q →
      (x.src = src ∧ x.dst = dst) ∧
      (∀ v, v = src ∨ v = dst → ∃ host, q.assignment.host? v = some host ∧
        ∀ later, (q.callAll checked later).placer.assignment.host? v = some host) ∧
      (x.rule = .sameHost ∨ x.rule = .crossHost → q.assignment = p.assignment) := by
  intro run p
  have hexist : p.HostsExist := hostsExist_callAll nodes start checked edges
  refine ⟨fun hreturn => ?_, fun src dst x q hcall => ?_⟩
  · have h : Participation run.placed p := participation_callAll nodes start checked edges hreturn
    refine ⟨fun v => (h.assigned_iff v).trans mem_endpoints, ?_⟩
    rw [h.counted, Assignment.length_pairs_eq_card h.assigned_iff]
    rfl
  · obtain ⟨hsrc, hdst, d, hd, rfl, rfl⟩ := call_eq_ok hexist hcall
    refine ⟨⟨rfl, rfl⟩, fun v hv => ?_, assignment_commit_of_settled hd⟩
    obtain ⟨host, hhost⟩ := (assigned_commit_iff hd hsrc hdst v).mpr (Or.inr hv)
    exact ⟨host, hhost, fun later => le_callAll (hexist.commit hd hsrc hdst) later v host hhost⟩

/-- The second call is refused, so that node 2 takes part in nothing; the call after the first three changes
no host, and node 3 has its own as before when node 2 does take part. -/
theorem nodes_take_part_for_good_on_refusal :
    let start : Pool := ⟨Array.replicate 2 {}, 1.5, 1.5, 0.5, 0⟩
    let run := (ofPool 4 start).callAll true [(0, 1), (2, 9), (1, 3)]
    ((∀ v, (∃ host, run.placer.assignment.host? v = some host) ↔ v = 0 ∨ v = 1 ∨ v = 3) ∧
      run.placer.assignment.assigned = 3) ∧
    ∃ q host, call true 3 0 run.placer = .ok ⟨3, 0, 0, .crossHost⟩ q ∧
      q.assignment = run.placer.assignment ∧ q.assignment.host? 3 = some host ∧
      (q.callAll true [(0, 2)]).placer.assignment.host? 3 = some host := by
  intro start run
  have hreturn : run.AllReturn := by decide +kernel
  have hplaced : run.placed = [⟨0, 1, 0, .freshPair⟩, ⟨1, 3, 1, .overflow⟩] := by decide +kernel
  have hmade : Step.outcome (call true 3 0 run.placer) = .ok ⟨3, 0, 0, .crossHost⟩ := by decide +kernel
  obtain ⟨htake, hkeep⟩ := nodes_take_part_for_good 4 start true [(0, 1), (2, 9), (1, 3)]
  obtain ⟨hassigned, hcount⟩ := htake hreturn
  refine ⟨⟨fun v => ?_, ?_⟩, ?_⟩
  · rw [hassigned, hplaced]
    simp only [List.mem_cons, List.not_mem_nil, or_false, exists_eq_or_imp, exists_eq_left]
    omega
  · rw [hcount, hplaced]
    decide
  · cases hcall : call true 3 0 run.placer with
    | error fault q =>
        rw [hcall] at hmade
        cases hmade
    | ok x q =>
        rw [hcall] at hmade
        cases hmade
        obtain ⟨-, hhosts, hsame⟩ := hkeep 3 0 _ q hcall
        obtain ⟨host, hhost, hlater⟩ := hhosts 3 (Or.inl rfl)
        exact ⟨q, host, rfl, hsame (Or.inr rfl), hhost, hlater [(0, 2)]⟩

end GraphPlacement.EdgePlacer
