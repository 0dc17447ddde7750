import GraphPlacement.Proofs.Edges.Participation

/-!
# Calls that are refused

**Refusals.** A call can be refused for one reason only, which is an endpoint that is no node of the graph;
the source is looked at first.  The placer is then as it was: `call_past_end`.  The other faults that a call
can meet are those of the pool and of the counters, and none of them comes from the edge
(`fault_of_call_eq_error`).  In particular no node is ever given a second host, and no host is looked up that
does not exist.

**Without a trace.** Since a refusal leaves the placer as it was, the calls that follow it cannot tell that it
was made.  The calls for edges of the graph come to the same without the others: `callAll_inGraph`.  If no call
meets another fault, they are the calls that made a placement: `callAll_made`.
-/

namespace GraphPlacement.EdgePlacer

variable {p q : EdgePlacer} {src dst : Nat} {fault : Fault} {checked : Bool}

/-- A call that meets a fault has left the placer as it was, unless the fault is one of the pool. -/
theorem eq_of_call_eq_error (hp : p.HostsExist) (h : call checked src dst p = .error fault q)
    (hroom : fault ≠ .neverRoom) (hfits : fault ≠ .overflow)
    (hcheck : ∀ part cause, fault ≠ .broken part cause) : q = p := by
  by_cases hout : p.assignment.size ≤ src ∨ p.assignment.size ≤ dst
  · rw [call_past_end hout] at h
    cases h
    rfl
  · rcases fault_of_call_eq_error hp (by omega) (by omega) h with ⟨rfl, -⟩ | ⟨rfl, -⟩ | ⟨cause, rfl, -⟩
    · exact absurd rfl hroom
    · exact absurd rfl hfits
    · exact absurd rfl (hcheck _ _)

/-- **The calls that made a placement** come to the same without the others. -/
theorem callAll_made (hp : p.HostsExist) (edges : List (Nat × Nat))
    (hroom : .error .neverRoom ∉ (p.callAll checked edges).answers)
    (hfits : .error .overflow ∉ (p.callAll checked edges).answers)
    (hcheck : ∀ part cause, .error (.broken part cause) ∉ (p.callAll checked edges).answers) :
    p.callAll checked
        (((edges.zip (p.callAll checked edges).answers).filter fun c => c.2.isOk).map Prod.fst) =
      ⟨(p.callAll checked edges).answers.filter Except.isOk, (p.callAll checked edges).placer⟩ := by
  induction edges generalizing p with
  | nil => rfl
  | cons edge edges ih =>
      obtain ⟨src, dst⟩ := edge
      simp only [callAll_cons, List.mem_cons, not_or] at hroom hfits hcheck
      have hrest := ih (hp.call checked src dst) hroom.2 hfits.2 fun part cause => (hcheck part cause).2
      cases hcall : call checked src dst p with
      | ok x q =>
          rw [hcall, Step.after_ok] at hrest
          rw [callAll_cons p, hcall, Step.outcome_ok, Step.after_ok, List.zip_cons_cons,
            List.filter_cons_of_pos rfl, List.filter_cons_of_pos rfl, List.map_cons, callAll_cons, hcall,
            Step.outcome_ok, Step.after_ok, hrest]
      | error fault q =>
          rw [hcall, Step.outcome_error] at hroom hfits hcheck
          have hq : q = p := eq_of_call_eq_error hp hcall (fun heq => hroom.1 (by rw [heq]))
            (fun heq => hfits.1 (by rw [heq])) fun part cause heq => (hcheck part cause).1 (by rw [heq])
          rw [hcall, Step.after_error, hq] at hrest
          rw [callAll_cons p, hcall, Step.outcome_error, Step.after_error, hq, List.zip_cons_cons,
            List.filter_cons_of_neg Bool.false_ne_true, List.filter_cons_of_neg Bool.false_ne_true, hrest]

/-- **The calls for edges of the graph** come to the same without the others, whatever faults they meet. -/
theorem callAll_inGraph (hp : p.HostsExist) {nodes : Nat} (hsize : p.assignment.size = nodes)
    (edges : List (Nat × Nat)) :
    (p.callAll checked (edges.filter fun e => e.1 < nodes ∧ e.2 < nodes)).placed =
        (p.callAll checked edges).placed ∧
      (p.callAll checked (edges.filter fun e => e.1 < nodes ∧ e.2 < nodes)).placer =
        (p.callAll checked edges).placer := by
  induction edges generalizing p with
  | nil => exact ⟨rfl, rfl⟩
  | cons edge edges ih =>
      obtain ⟨src, dst⟩ := edge
      by_cases hin : src < nodes ∧ dst < nodes
      case pos =>
        have hrest := ih (hp.call checked src dst) ((size_call hp checked src dst).trans hsize)
        rw [List.filter_cons_of_pos (by simpa using hin)]
        cases hcall : call checked src dst p with
        | ok x q =>
            rw [hcall, Step.after_ok] at hrest
            rw [placed_cons_of_ok hcall, placed_cons_of_ok hcall, hrest.1, callAll_cons p, callAll_cons p, hcall]
            exact ⟨rfl, hrest.2⟩
        | error fault q =>
            rw [hcall, Step.after_error] at hrest
            rw [placed_cons_of_error hcall, placed_cons_of_error hcall, callAll_cons p, callAll_cons p, hcall]
            exact hrest
      case neg =>
        have hout : p.assignment.size ≤ src ∨ p.assignment.size ≤ dst := by omega
        have hcall := call_past_end hout checked
        rw [List.filter_cons_of_neg (by simpa using hin), placed_cons_of_error hcall,
          callAll_cons p checked (src, dst), hcall]
        exact ih hp hsize

/-- **Refused calls leave no trace.**  In every state that calls on any pool have led to, a call with an
endpoint that is no node of the graph is refused for this endpoint, for the source if both are none, and the
state is as before.  No other call is refused: what it can meet is that the ceiling rises forever, that a
counter overflows, or that the pool fails its check.  So the calls that are refused can be left out: the
others make the same placements and lead to the same state, and if they meet none of these faults, they are
the calls that make a placement, with the same answers. -/
theorem refused_calls_leave_no_trace (nodes : Nat) (start : Pool) (checked : Bool)
    (edges : List (Nat × Nat)) :
    let run := (ofPool nodes start).callAll checked edges
    let kept := (ofPool nodes start).callAll checked (edges.filter fun e => e.1 < nodes ∧ e.2 < nodes)
    (∀ src dst, nodes ≤ src ∨ nodes ≤ dst →
      call checked src dst run.placer =
        .error (.nodeOutOfRange (if nodes ≤ src then src else dst) nodes) run.placer) ∧
    (∀ src dst fault q, call checked src dst run.placer = .error fault q →
      (nodes ≤ src ∨ nodes ≤ dst) ∨ fault = .neverRoom ∧ q.pool.Hopeless ∨
        fault = .overflow ∧ run.placer.Overflows src dst ∨
        ∃ cause, fault = .broken .pool cause ∧ checked = true ∧ q.pool.check = .error cause) ∧
    (kept.placed = run.placed ∧ kept.placer = run.placer) ∧
    (.error .neverRoom ∉ run.answers → .error .overflow ∉ run.answers →
      (∀ part cause, .error (.broken part cause) ∉ run.answers) →
      let made := ((edges.zip run.answers).filter fun c => c.2.isOk).map Prod.fst
      (ofPool nodes start).callAll checked made = ⟨run.answers.filter Except.isOk, run.placer⟩) := by
  intro run kept
  have hp := hostsExist_ofPool nodes start
  have hexist : run.placer.HostsExist := hostsExist_callAll nodes start checked edges
  have hsize : run.placer.assignment.size = nodes := size_callAll_ofPool nodes start checked edges
  refine ⟨fun src dst hout => ?_, fun src dst fault q hcall => ?_,
    callAll_inGraph hp (size_ofPool nodes start) edges, callAll_made hp edges⟩
  · rw [call_past_end (hsize.symm ▸ hout), hsize]
  · by_cases hout : nodes ≤ src ∨ nodes ≤ dst
    · exact Or.inl hout
    · rw [not_or, Nat.not_le, Nat.not_le, ← hsize] at hout
      refine Or.inr ((fault_of_call_eq_error hexist hout.1 hout.2 hcall).imp_right (Or.imp_right ?_))
      rintro ⟨cause, hfault, hchecked, hcheck, -⟩
      exact ⟨cause, hfault, hchecked, hcheck⟩

/-- Two of four calls are refused, for the source of an edge that has no end in the graph and for the target of
one that has: the other two alone lead to the same state. -/
theorem refused_calls_leave_no_trace_on_two_refusals :
    let start : Pool := ⟨Array.replicate 2 {}, 1.5, 1.5, 0.5, 0⟩
    let run := (ofPool 4 start).callAll true [(0, 1), (7, 9), (2, 9), (1, 3)]
    (call true 7 9 run.placer = .error (.nodeOutOfRange 7 4) run.placer ∧
      call true 2 9 run.placer = .error (.nodeOutOfRange 9 4) run.placer) ∧
    (ofPool 4 start).callAll true [(0, 1), (1, 3)] =
      ⟨[.ok ⟨0, 1, 0, .freshPair⟩, .ok ⟨1, 3, 1, .overflow⟩], run.placer⟩ := by
  intro start run
  have hanswers : run.answers = [.ok ⟨0, 1, 0, .freshPair⟩, .error (.nodeOutOfRange 7 4),
      .error (.nodeOutOfRange 9 4), .ok ⟨1, 3, 1, .overflow⟩] := by decide +kernel
  obtain ⟨hrefused, -, -, hmade⟩ :=
    refused_calls_leave_no_trace 4 start true [(0, 1), (7, 9), (2, 9), (1, 3)]
  have hsame := hmade (by rw [hanswers]; decide) (by rw [hanswers]; decide) fun part cause => by
    rw [hanswers]; simp
  refine ⟨⟨hrefused 7 9 (by decide), hrefused 2 9 (by decide)⟩, ?_⟩
  rw [hanswers] at hsame
  exact hsame

end GraphPlacement.EdgePlacer
