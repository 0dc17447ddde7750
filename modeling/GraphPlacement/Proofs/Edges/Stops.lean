import GraphPlacement.Proofs.Edges.Streams

/-!
# What can stop a stream of edges

**From inside.** A stream of edges between nodes of the graph, with a receiver that refuses nothing, can be
stopped in two ways: a call meets a fault, or the final check fails (`Stops`).  Neither has to do with the
edges: whatever is met there stops a run from inside (`Stops.stopsRun`).

**Pools in order.** What is left, as long as nodes and edges can be counted in words, are faults of the pool
alone, which has run out of ceilings or has lost count of them.  So nothing at all stops a run whose pool is in
order after each call (`Stops.not_staysInOrder`): no edge is refused, no node is given a second host, and the
books agree in the end.
-/

namespace GraphPlacement

/-- Whether raising a pool makes room, and its ceiling passes the check that it makes on itself. -/
structure Pool.InOrder (p : Pool) : Prop where
  room : ¬p.Hopeless
  check : p.check = .ok ()

theorem Pool.inOrder_of_isFull {p : Pool} (hroom : p.isFull = false) (hcheck : p.check = .ok ()) :
    p.InOrder := by
  refine ⟨fun hopeless => ?_, hcheck⟩
  have hfull : p.isFull = true := hopeless 0
  rw [hroom] at hfull
  cases hfull

namespace EdgePlacer

variable {p q : EdgePlacer} {src dst nodes : Nat} {fault : Fault} {es : List Edge}
variable {placed : List Placement} {checked : Bool} {start : Pool}

/-! ## Calls -/

/-- A call for an edge of the graph meets no fault but those that stop a run from inside. -/
theorem stopsRun_of_call_eq_error (hp : p.HostsExist) (hsrc : src < p.assignment.size)
    (hdst : dst < p.assignment.size) (h : call checked src dst p = .error fault q) :
    fault.stopsRun = true := by
  rcases fault_of_call_eq_error hp hsrc hdst h with ⟨rfl, -⟩ | ⟨rfl, -⟩ | ⟨cause, rfl, -⟩ <;> rfl

/-- And it meets one only when it leaves a pool that is not in order, unless a counter overflows. -/
theorem not_inOrder_of_call_eq_error (hp : p.HostsExist) (hsrc : src < p.assignment.size)
    (hdst : dst < p.assignment.size) (hfits : ¬p.Overflows src dst)
    (h : call checked src dst p = .error fault q) : ¬q.pool.InOrder := by
  intro hq
  rcases fault_of_call_eq_error hp hsrc hdst h with ⟨-, hopeless⟩ | ⟨-, hlarge⟩ | ⟨cause, -, -, hcheck, -⟩
  · exact hq.room hopeless
  · exact hfits hlarge
  · rw [hq.check] at hcheck
    cases hcheck

/-- Whether the pool is in order at the start, and after each call for one of some edges. -/
def StaysInOrder (nodes : Nat) (start : Pool) (es : List Edge) : Prop :=
  ∀ before, before <+: es.map Edge.ends →
    ((ofPool nodes start).callAll true before).placer.pool.InOrder

/-! ## Ways to be stopped -/

/-- How a stream of edges can be stopped, with the placements that have been made by then. -/
inductive Stops (p : EdgePlacer) (es : List Edge) : Fault → List Placement → Prop
  /-- The call for an edge meets a fault. -/
  | call {before later : List Edge} {e : Edge} {fault : Fault} {q : EdgePlacer}
      (hes : es = before ++ e :: later)
      (hmade : (p.callAll true (before.map Edge.ends)).AllMade)
      (hcall : EdgePlacer.call true e.src e.dst (p.callAll true (before.map Edge.ends)).placer =
        .error fault q) :
      Stops p es fault (p.callAll true (before.map Edge.ends)).placed
  /-- All edges are placed, but the final check fails. -/
  | finish {fault : Fault} (hmade : (p.callAll true (es.map Edge.ends)).AllMade)
      (hfinish : (p.callAll true (es.map Edge.ends)).placer.finish = .error fault) :
      Stops p es fault (p.callAll true (es.map Edge.ends)).placed

theorem Stops.stopsRun (hp : p.HostsExist)
    (hfits : ∀ e ∈ es, e.src < p.assignment.size ∧ e.dst < p.assignment.size)
    (h : Stops p es fault placed) : fault.stopsRun = true := by
  cases h with
  | @call before later e fault q hes hmade hcall =>
      have hexist := callAll_keeps (fun src dst h => h.call true src dst) (before.map Edge.ends) hp
      have hsize : (p.callAll true (before.map Edge.ends)).placer.assignment.size = p.assignment.size :=
        size_callAll hp _
      have he := hfits e (by simp [hes])
      rw [← hsize] at he
      exact stopsRun_of_call_eq_error hexist he.1 he.2 hcall
  | finish hmade hfinish =>
      rw [EdgePlacer.finish, demand] at hfinish
      cases hcheck : (p.callAll true (es.map Edge.ends)).placer.check with
      | ok _ =>
          rw [hcheck] at hfinish
          cases hfinish
      | error cause =>
          rw [hcheck] at hfinish
          cases hfinish
          rfl

/-- The call after some that have made a placement meets no overflow, if the hosts were empty at the start and
there are no more nodes and edges than words. -/
theorem not_overflows_of_allMade {before : List Edge} (hempty : start.totalNodes = 0 ∧ start.totalEdges = 0)
    (hnodes : nodes < UInt64.size) (hedges : before.length + 1 < UInt64.size) (hsrc : src < nodes)
    (hdst : dst < nodes) (hmade : ((ofPool nodes start).callAll true (before.map Edge.ends)).AllMade) :
    ¬((ofPool nodes start).callAll true (before.map Edge.ends)).placer.Overflows src dst := by
  have hbooks := books_callAll nodes start true (before.map Edge.ends) hmade.allReturn
  have hsize := size_callAll_ofPool nodes start true (before.map Edge.ends)
  have hlength := hbooks.edges.symm.trans (edges_of_allMade nodes start hmade)
  rw [List.length_map] at hlength
  rw [← hsize] at hnodes hsrc hdst
  exact hbooks.not_overflows hempty hnodes (hlength ▸ hedges) hsrc hdst

/-- **A stream of edges on empty hosts is stopped** only when the pool is not in order at some point. -/
theorem Stops.not_staysInOrder (hempty : start.totalNodes = 0 ∧ start.totalEdges = 0)
    (hnodes : nodes < UInt64.size) (hedges : es.length < UInt64.size)
    (hfits : ∀ e ∈ es, e.src < nodes ∧ e.dst < nodes) (h : Stops (ofPool nodes start) es fault placed) :
    ¬StaysInOrder nodes start es := by
  intro horder
  cases h with
  | @call before later e fault q hes hmade hcall =>
      have hexist := hostsExist_callAll nodes start true (before.map Edge.ends)
      have hsize := size_callAll_ofPool nodes start true (before.map Edge.ends)
      have he := hfits e (by simp [hes])
      have hlength : before.length + 1 < UInt64.size := by
        rw [hes, List.length_append, List.length_cons] at hedges
        omega
      have hcounted := not_overflows_of_allMade hempty hnodes hlength he.1 he.2 hmade
      rw [← hsize] at he
      have hafter := horder (before.map Edge.ends ++ [e.ends]) ⟨later.map Edge.ends, by simp [hes]⟩
      rw [callAll_append] at hafter
      change (Step.after (EdgePlacer.call true e.src e.dst _)).pool.InOrder at hafter
      rw [hcall] at hafter
      exact not_inOrder_of_call_eq_error hexist he.1 he.2 hcounted hcall hafter
  | finish hmade hfinish =>
      have hbooks := books_callAll nodes start true (es.map Edge.ends) hmade.allReturn
      have hcheck := (hbooks.check_eq_ok_iff (horder _ List.prefix_rfl).check).mpr hempty
      rw [finish_eq_ok_iff.mpr ⟨hcheck, rfl⟩] at hfinish
      cases hfinish

end EdgePlacer

/-! ## Streams -/

namespace StreamRun

variable {ρ : Type} {receiver : Receiver ρ} {take : ρ → Placement → ρ} {run next done : StreamRun ρ}
variable {entry : Except Fault Edge} {stream : List (Except Fault Edge)} {es : List Edge} {e : Edge}
variable {fault : Fault}

theorem placeEdge_eq_error (h : placeEdge e run = .error fault next) :
    EdgePlacer.call true e.src e.dst run.placer = .error fault next.placer ∧
      next.received = run.received := by
  rcases Step.bind_eq_error.mp h with hget | ⟨_, _, hget, h⟩
  · cases hget
  cases hget
  rcases Step.bind_eq_error.mp h with htell | ⟨_, _, htell, h⟩
  · cases htell
  cases htell
  obtain ⟨placer, hcall, rfl⟩ := Step.onPart_eq_error.mp h
  exact ⟨hcall, rfl⟩

/-- An item fails if it is no edge, if the call for its edge fails, or if the receiver refuses the
placement. -/
theorem item_eq_error (h : item receiver entry run = .error fault next) :
    entry = .error fault ∧ next.received = run.received ∨
      ∃ e, entry = .ok e ∧
        (EdgePlacer.call true e.src e.dst run.placer = .error fault next.placer ∧
            next.received = run.received ∨
          ∃ x q, EdgePlacer.call true e.src e.dst run.placer = .ok x q ∧
            receiver x run.received = .error fault next.received) := by
  rcases Step.bind_eq_error.mp h with hentry | ⟨e, _, hentry, hrest⟩
  · obtain ⟨hfault, rfl⟩ := Step.ofExcept_eq_error.mp hentry
    exact Or.inl ⟨hfault, rfl⟩
  · obtain ⟨hedge, rfl⟩ := Step.ofExcept_eq_ok.mp hentry
    refine Or.inr ⟨e, hedge, ?_⟩
    rcases Step.bind_eq_error.mp hrest with hplace | ⟨x, placed, hplace, hhand⟩
    · exact Or.inl (placeEdge_eq_error hplace)
    · obtain ⟨hcall, hsame⟩ := placeEdge_eq_ok hplace
      obtain ⟨received, hrefuse, rfl⟩ := Step.onPart_eq_error.mp hhand
      exact Or.inr ⟨x, placed.placer, hcall, hsame ▸ hrefuse⟩

/-- Items that are not gone through to their end are so up to the first one that fails. -/
theorem forM_item_eq_error (h : stream.forM (item receiver) run = .error fault done) :
    ∃ (es : List Edge) (entry : Except Fault Edge) (later : List (Except Fault Edge)) (middle : StreamRun ρ),
      stream = es.map Except.ok ++ entry :: later ∧
      middle.placer = (run.placer.callAll true (es.map Edge.ends)).placer ∧
      (run.placer.callAll true (es.map Edge.ends)).AllMade ∧
      (run.placer.callAll true (es.map Edge.ends)).placed.forM receiver run.received =
        .ok () middle.received ∧
      item receiver entry middle = .error fault done := by
  obtain ⟨before, entry, later, middle, rfl, hbefore, hentry⟩ := Step.forM_eq_error h
  obtain ⟨es, rfl, hplacer, hmade, htaken⟩ := forM_item_eq_ok hbefore
  exact ⟨es, entry, later, middle, rfl, hplacer, hmade, htaken, hentry⟩

theorem close_eq_error (h : close run = .error fault done) :
    run.placer.finish = .error fault ∧ done.received = run.received := by
  rcases Step.bind_eq_error.mp h with hget | ⟨_, _, hget, hrest⟩
  · cases hget
  cases hget
  rcases Step.bind_eq_error.mp hrest with hdo | ⟨_, _, -, htell⟩
  · obtain ⟨hfinish, rfl⟩ := Step.ofExcept_eq_error.mp hdo
    exact ⟨hfinish, rfl⟩
  · rcases Step.bind_eq_error.mp htell with htell | ⟨_, _, -, hpure⟩
    · cases htell
    · cases hpure

theorem all_eq_error (htakes : Takes receiver take)
    (h : all receiver (es.map Except.ok) run = .error fault done) :
    ∃ placed, EdgePlacer.Stops run.placer es fault placed ∧
      done.received = placed.foldl take run.received := by
  rcases Step.bind_eq_error.mp h with hitems | ⟨_, middle, hitems, hclose⟩
  · obtain ⟨before', entry, later', middle, hsplit, hplacer, hmade, hreceived, hentry⟩ :=
      forM_item_eq_error hitems
    obtain ⟨before, rest, rfl, hbefore, hrest⟩ := List.map_eq_append_iff.mp hsplit
    obtain ⟨e, later, rfl, rfl, -⟩ := List.map_eq_cons_iff.mp hrest
    obtain rfl : before = before' := Step.map_ok_inj hbefore
    rw [htakes.forM_eq, EStateM.Result.ok.injEq] at hreceived
    rcases item_eq_error hentry with ⟨hbad, -⟩ | ⟨_, he, ⟨hcall, hkept⟩ | ⟨x, q, -, hrefuse⟩⟩
    · cases hbad
    · cases he
      rw [hplacer] at hcall
      exact ⟨_, .call rfl hmade hcall, hkept.trans hreceived.2.symm⟩
    · rw [htakes] at hrefuse
      cases hrefuse
  · obtain ⟨es', hsame, hplacer, hmade, hreceived⟩ := forM_item_eq_ok hitems
    obtain rfl : es = es' := Step.map_ok_inj hsame
    rw [htakes.forM_eq, EStateM.Result.ok.injEq] at hreceived
    obtain ⟨hfinish, hkept⟩ := close_eq_error hclose
    rw [hplacer] at hfinish
    exact ⟨_, .finish hmade hfinish, hkept.trans hreceived.2.symm⟩

end StreamRun

namespace EdgePlacer

variable {ρ : Type} {receiver : Receiver ρ} {take : ρ → Placement → ρ} {initial : ρ}
variable {cfg : Config} {nodes : Nat} {es : List Edge} {fault : Fault}

/-- Placing a stream of edges fails for want of hosts to place them on, or is stopped. -/
theorem placeStream_eq_error (htakes : Takes receiver take)
    (h : (placeStream cfg nodes (es.map Except.ok) receiver initial).result = .error fault) :
    (Pool.ofConfig cfg nodes = .error fault ∧
      (placeStream cfg nodes (es.map Except.ok) receiver initial).received = initial) ∨
    ∃ start placed, Pool.ofConfig cfg nodes = .ok start ∧ Stops (ofPool nodes start) es fault placed ∧
      (placeStream cfg nodes (es.map Except.ok) receiver initial).received = placed.foldl take initial := by
  cases hstart : Pool.ofConfig cfg nodes with
  | error cause =>
      rw [placeStream_of_fault hstart] at h ⊢
      cases h
      exact Or.inl ⟨rfl, rfl⟩
  | ok start =>
      obtain ⟨hresult, hreceived⟩ := placeStream_of_pool hstart (es.map Except.ok) receiver initial
      rw [hresult] at h
      refine Or.inr ?_
      cases hall : StreamRun.all receiver (es.map Except.ok)
          ⟨ofPool nodes start, initial, #[(ofPool nodes start).startEvent nodes]⟩ with
      | ok outcome done =>
          rw [hall] at h
          cases h
      | error cause done =>
          rw [hall] at h hreceived
          cases h
          obtain ⟨placed, hstops, hkept⟩ := StreamRun.all_eq_error htakes hall
          exact ⟨start, placed, rfl, hstops, hreceived.trans hkept⟩

end EdgePlacer

end GraphPlacement
