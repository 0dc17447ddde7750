import GraphPlacement.Proofs.Edges.Calls
import Mathlib.Algebra.Order.BigOperators.Group.List
import Mathlib.Algebra.Order.Group.Nat

/-!
# The books of a run

**Two books.** Which node is on which host is kept in the assignment, and how many nodes and edges each
host has is kept in the pool.  No call compares the two host by host, but every call keeps them in step:
what a host has gained since the start is the number of its nodes and the number of edges placed on it.

**Invariant.** `Books` says so for the placements made up to now.  Only a call that stops the run from
inside breaks it, since then an edge has been counted whose placement was never given back.

**No overflow.** On hosts that were empty at the start a counter counts no more than there are nodes or edges, so
it overflows only when there are too many of these for a word: `Books.not_overflows`.

**The final check** compares totals only.  It passes exactly when the hosts were empty at the start,
because it holds the gains against everything the hosts have: `Books.check_eq_ok_iff`.
-/

namespace GraphPlacement.EdgePlacer

variable {p q : EdgePlacer} {src dst : Nat} {d : Decision} {x : Placement} {fault : Fault}
variable {start : Pool} {xs : List Placement} {checked : Bool}

/-- Whether the books of a placer are those at the start with the nodes of its assignment and some
placements added. -/
structure Books (start : Pool) (xs : List Placement) (p : EdgePlacer) : Prop where
  counted : p.assignment.Counted
  hostsExist : p.HostsExist
  loads : ∀ host : Nat, p.pool.loads[host]? = start.loads[host]?.map fun load : Load =>
    ⟨load.nodes + p.assignment.nodesOn host, load.edges + xs.countP fun x => x.host = host⟩
  edges : p.edges = xs.length
  totalNodes : p.pool.totalNodes = start.totalNodes + p.assignment.assigned
  totalEdges : p.pool.totalEdges = start.totalEdges + xs.length

theorem books_ofPool (nodes : Nat) (start : Pool) : Books start [] (ofPool nodes start) where
  counted := Assignment.counted_ofSize nodes
  hostsExist := hostsExist_ofPool nodes start
  loads host := by
    cases h : start.loads[host]? <;> simp [ofPool, h]
  edges := rfl
  totalNodes := rfl
  totalEdges := rfl

/-! ## One call -/

theorem loads_commit (hd : p.Decides src dst d) (host : Nat) :
    (p.commit d).pool.loads[host]? =
      p.pool.loads[host]?.map fun load =>
        ⟨load.nodes + (if d.host = host then d.fresh.length else 0),
          load.edges + if d.host = host then 1 else 0⟩ := by
  rw [commit, Pool.loads_raise, Pool.loads_carry, hd.loads_eq]

theorem totalNodes_commit (hp : p.HostsExist) (hd : p.Decides src dst d) :
    (p.commit d).pool.totalNodes = p.pool.totalNodes + d.fresh.length := by
  have hhost : d.host < d.pool.hosts := by
    rw [Pool.hosts, hd.loads_eq]
    exact hd.host_lt hp
  rw [commit, Pool.totalNodes_raise, Pool.totalNodes_carry hhost, Pool.totalNodes, hd.loads_eq]
  rfl

theorem totalEdges_commit (hp : p.HostsExist) (hd : p.Decides src dst d) :
    (p.commit d).pool.totalEdges = p.pool.totalEdges + 1 := by
  have hhost : d.host < d.pool.hosts := by
    rw [Pool.hosts, hd.loads_eq]
    exact hd.host_lt hp
  rw [commit, Pool.totalEdges_raise, Pool.totalEdges_carry hhost, Pool.totalEdges, hd.loads_eq]
  rfl

/-- A call that makes a placement enters it in the books. -/
theorem Books.placed (h : Books start xs p) (hcall : call checked src dst p = .ok x q) :
    Books start (xs ++ [x]) q := by
  obtain ⟨hsrc, hdst, d, hd, rfl, rfl⟩ := call_eq_ok h.hostsExist hcall
  have hempty := hd.allEmpty hsrc hdst
  refine ⟨?_, ?_, ?_, ?_, ?_, ?_⟩
  · exact h.counted.fillAll hempty d.host
  · exact h.hostsExist.commit hd hsrc hdst
  · intro host
    rw [loads_commit hd, h.loads, Option.map_map]
    have hnodes : (p.commit d).assignment.nodesOn host =
        p.assignment.nodesOn host + if d.host = host then d.fresh.length else 0 :=
      Assignment.nodesOn_fillAll hempty d.host host
    simp [Function.comp_def, hnodes, List.countP_append, List.countP_cons, Nat.add_assoc]
  · simp [commit, h.edges]
  · rw [totalNodes_commit h.hostsExist hd, h.totalNodes, commit, Assignment.assigned_fillAll,
      Nat.add_assoc]
  · rw [totalEdges_commit h.hostsExist hd, h.totalEdges, List.length_append, List.length_singleton,
      Nat.add_assoc]

theorem Books.refused (h : Books start xs p) (hcall : call checked src dst p = .error fault q)
    (hreturn : fault.stopsRun = false) : Books start xs q := by
  cases call_eq_error h.hostsExist hcall with
  | noNode => exact h
  | noRoom | overflow => cases hreturn
  | stopped _ _ _ hstop =>
      rw [hstop] at hreturn
      cases hreturn

/-! ## Counters that do not overflow -/

/-- On hosts that were empty at the start no counter overflows while nodes and edges can be counted in words. -/
theorem Books.not_overflows (h : Books start xs p)
    (hempty : start.totalNodes = 0 ∧ start.totalEdges = 0) (hnodes : p.assignment.size < UInt64.size)
    (hedges : xs.length + 1 < UInt64.size) (hsrc : src < p.assignment.size)
    (hdst : dst < p.assignment.size) : ¬p.Overflows src dst := by
  rintro ⟨d, load, hd, hload, hlarge⟩
  have hassigned : (p.commit d).assignment.assigned ≤ p.assignment.size :=
    size_commit p d ▸ (h.counted.fillAll (hd.allEmpty hsrc hdst) d.host).assigned_le_size
  have htotal : (p.commit d).assignment.assigned = p.assignment.assigned + d.fresh.length := by
    rw [commit, Assignment.assigned_fillAll]
  have hmem := List.mem_of_getElem? ((Array.getElem?_toList ..).trans hload)
  have hloadNodes : load.nodes ≤ p.pool.totalNodes := List.le_sum_of_mem (List.mem_map_of_mem hmem)
  have hloadEdges : load.edges ≤ p.pool.totalEdges := List.le_sum_of_mem (List.mem_map_of_mem hmem)
  have htotalNodes := h.totalNodes
  have htotalEdges := h.totalEdges
  have hcount := h.edges
  omega

/-! ## The final check -/

theorem check_eq_ok_iff : p.check = .ok () ↔
    p.pool.check = .ok () ∧ p.HostsExist ∧ p.pool.totalNodes = p.assignment.assigned ∧
      p.pool.totalEdges = p.edges := by
  unfold check
  cases hpool : p.pool.check with
  | error cause => simp [bind, Except.bind]
  | ok _ =>
      cases hhosts : p.assignment.checkHosts p.pool.hosts with
      | error cause =>
          have hmissing : ¬p.HostsExist := fun hp => by
            rw [Assignment.checkHosts_eq_ok_iff.mpr hp] at hhosts
            cases hhosts
          simp [bind, Except.bind, hmissing]
      | ok _ =>
          have hp : p.HostsExist := Assignment.checkHosts_eq_ok_iff.mp hhosts
          by_cases hnodes : p.pool.totalNodes = p.assignment.assigned <;>
            by_cases hedges : p.pool.totalEdges = p.edges <;>
              simp [bind, Except.bind, hp, hnodes, hedges, throw, throwThe, MonadExceptOf.throw,
                pure, Except.pure]

theorem finish_eq_ok_iff {outcome : EdgeOutcome} :
    p.finish = .ok outcome ↔ p.check = .ok () ∧ outcome = p.outcome := by
  cases h : p.check <;>
    simp [finish, demand, h, bind, Except.bind, pure, Except.pure, eq_comm]

/-- The final check passes exactly when the hosts were empty at the start. -/
theorem Books.check_eq_ok_iff (h : Books start xs p) (hpool : p.pool.check = .ok ()) :
    p.check = .ok () ↔ start.totalNodes = 0 ∧ start.totalEdges = 0 := by
  have hnodes := h.totalNodes
  have hedges := h.totalEdges
  have hcount := h.edges
  rw [EdgePlacer.check_eq_ok_iff]
  constructor
  · rintro ⟨-, -, hn, he⟩
    omega
  · rintro ⟨hn, he⟩
    exact ⟨hpool, h.hostsExist, by omega, by omega⟩

/-! ## All calls -/

theorem books_callAll (nodes : Nat) (start : Pool) (checked : Bool) (edges : List (Nat × Nat))
    (hreturn : ((ofPool nodes start).callAll checked edges).AllReturn) :
    Books start ((ofPool nodes start).callAll checked edges).placed
      ((ofPool nodes start).callAll checked edges).placer :=
  callAll_invariant (fun h hcall => h.placed hcall)
    (fun h hcall hfault => h.refused hcall hfault) edges (books_ofPool nodes start) hreturn

/-- A run in which all calls make a placement has counted an edge for each call. -/
theorem edges_of_allMade (nodes : Nat) (start : Pool) {edges : List (Nat × Nat)}
    (hmade : ((ofPool nodes start).callAll checked edges).AllMade) :
    ((ofPool nodes start).callAll checked edges).placer.edges = edges.length := by
  have hbooks := books_callAll nodes start checked edges hmade.allReturn
  have hlength := congrArg List.length (ends_of_allMade (hostsExist_ofPool nodes start) hmade)
  rw [List.length_map] at hlength
  exact hbooks.edges.trans hlength

/-- **The books of a run** from any pool, over calls that may succeed or fail and may check the pool or
not: each host has gained as many nodes as the assignment has on it and as many edges as were placed on
it, the edges are counted right and the hosts exist.  So if the ceiling is in order, the final check
passes, and the run can be finished, exactly when the hosts were empty at the start. -/
theorem run_keeps_books (nodes : Nat) (start : Pool) (checked : Bool) (edges : List (Nat × Nat))
    (hreturn : ((ofPool nodes start).callAll checked edges).AllReturn) :
    let run := (ofPool nodes start).callAll checked edges
    let p := run.placer
    (∀ host : Nat, p.pool.loads[host]? = start.loads[host]?.map fun load : Load =>
      ⟨load.nodes + p.assignment.nodesOn host,
        load.edges + run.placed.countP fun x => x.host = host⟩) ∧
    p.edges = run.placed.length ∧
    (∀ v host, p.assignment.host? v = some host → host < p.pool.hosts) ∧
    (p.pool.check = .ok () →
      (p.check = .ok () ↔ start.totalNodes = 0 ∧ start.totalEdges = 0) ∧
      ((∃ outcome, p.finish = .ok outcome) ↔ start.totalNodes = 0 ∧ start.totalEdges = 0)) := by
  have h := books_callAll nodes start checked edges hreturn
  refine ⟨h.loads, h.edges, h.hostsExist, fun hpool => ⟨h.check_eq_ok_iff hpool, ?_⟩⟩
  rw [← h.check_eq_ok_iff hpool]
  constructor
  · rintro ⟨outcome, hfinish⟩
    exact (finish_eq_ok_iff.mp hfinish).1
  · intro hcheck
    exact ⟨_, finish_eq_ok_iff.mpr ⟨hcheck, rfl⟩⟩

/-- On hosts of which one holds a node and an edge already, calls do come back, but the run cannot be
finished. -/
theorem run_keeps_books_on_filled_pool :
    let start : Pool := ⟨#[⟨1, 1⟩, ⟨0, 0⟩], 2.0, 2.0, 1.0, 0⟩
    let run := (ofPool 3 start).callAll true [(0, 1), (1, 1), (2, 0), (3, 0)]
    run.placer.edges = 3 ∧ ¬∃ outcome, run.placer.finish = .ok outcome := by
  intro start run
  have hreturn : run.AllReturn := by decide +kernel
  have hpool : run.placer.pool.check = .ok () := by decide +kernel
  obtain ⟨-, hedges, -, hcheck⟩ := run_keeps_books 3 start true _ hreturn
  have hmade : run.placed.length = 3 := by decide +kernel
  refine ⟨hedges.trans hmade, fun hfinish => ?_⟩
  exact absurd ((hcheck hpool).2.mp hfinish).1 (by decide)

end GraphPlacement.EdgePlacer
