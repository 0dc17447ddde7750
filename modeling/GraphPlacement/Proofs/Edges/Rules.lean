import GraphPlacement.Proofs.Edges.Books
import GraphPlacement.Proofs.Edges.HostOfRecord
import GraphPlacement.Proofs.Lightest

/-!
# The rules as they are told

**Prescription.** `Prescribes` tells the rules without the way in which they are worked out: what is known of
the endpoints, which host is named by that, how many nodes the host gains, and the pool in which it is looked
for.  The hosts that it names by an order are those that are least in it, and not what a search comes to.

**No raise in between.** A node that joins a known host, or that overflows, is placed under the ceiling as it
stands.  That is so in states that a run has led to and not in all: after each placement the pool is raised,
so that it has room or never will have.  It is also why a node that overflows comes to another host than the
one that had no room.

**Frame.** A call changes the hosts of the endpoints that had none, what is counted on the host that is named,
the number of edges, and the ceiling if no host has room afterwards: `call_follows_rules`.
-/

namespace GraphPlacement.EdgePlacer

variable {p q : EdgePlacer} {src dst known : Nat} {d : Decision} {xs : List Placement}

/-! ## The rules -/

/-- Whether exactly one endpoint of an edge has a host, which is `known`. -/
def OneKnown (p : EdgePlacer) (src dst known : Nat) : Prop :=
  p.assignment.host? src = some known ∧ p.assignment.host? dst = none ∨
    p.assignment.host? src = none ∧ p.assignment.host? dst = some known

/-- What the rules prescribe for an edge: the host that counts it and the rule by which, with the number of
nodes that the host gains and the pool that it is looked for in. -/
inductive Prescribes (p : EdgePlacer) (src dst : Nat) : Nat → Rule → Nat → Pool → Prop
  /-- Neither endpoint has a host: both come to the lightest one under the ceiling that makes room. -/
  | freshPair {host : Nat} {inForce : Pool} (hsrc : p.assignment.host? src = none)
      (hdst : p.assignment.host? dst = none) (hrises : p.pool.RisesTo inForce)
      (hlight : inForce.IsLightest host) :
      Prescribes p src dst host .freshPair (if src = dst then 1 else 2) inForce
  /-- One endpoint has a host with room: the other comes there too. -/
  | joinKnown {known : Nat} (hknown : p.OneKnown src dst known)
      (hroom : p.pool.accepts? known = some true) :
      Prescribes p src dst known .joinKnown 1 p.pool
  /-- One endpoint has a host without room: the other comes to the lightest one, which is not the same. -/
  | overflow {known host : Nat} (hknown : p.OneKnown src dst known)
      (hroom : p.pool.accepts? known = some false) (hlight : p.pool.IsLightest host) (hne : host ≠ known) :
      Prescribes p src dst host .overflow 1 p.pool
  /-- Both endpoints have the same host. -/
  | sameHost {host : Nat} (hsrc : p.assignment.host? src = some host)
      (hdst : p.assignment.host? dst = some host) : Prescribes p src dst host .sameHost 0 p.pool
  /-- The endpoints have two hosts: the one with fewer edges counts the edge, the first of two with as many. -/
  | crossHost {host other : Nat} {load load' : Load}
      (hends : p.assignment.host? src = some host ∧ p.assignment.host? dst = some other ∨
        p.assignment.host? src = some other ∧ p.assignment.host? dst = some host)
      (hload : p.pool.loads[host]? = some load) (hload' : p.pool.loads[other]? = some load')
      (hfirst : toLex (load.edges, host) < toLex (load'.edges, other)) :
      Prescribes p src dst host .crossHost 0 p.pool

/-! ## Decisions follow the rules -/

theorem length_ends (src dst : Nat) : (ends src dst).length = if src = dst then 1 else 2 := by
  unfold ends
  split <;> rfl

/-- Of two hosts the one with fewer edges comes first, and of two with as many the lower one. -/
theorem lighterEdges_first {a b : Nat} (hne : a ≠ b) (loadA loadB : Load) :
    lighterEdges a b loadA loadB = a ∧ toLex (loadA.edges, a) < toLex (loadB.edges, b) ∨
      lighterEdges a b loadA loadB = b ∧ toLex (loadB.edges, b) < toLex (loadA.edges, a) := by
  simp only [lighterEdges, Prod.Lex.toLex_lt_toLex]
  split
  case isTrue hlt => exact Or.inl ⟨rfl, Or.inl hlt⟩
  case isFalse hnot =>
    split
    case isTrue hlt => exact Or.inr ⟨rfl, Or.inl hlt⟩
    case isFalse hnot' => omega

theorem oneKnown_of_ends {target : Nat}
    (hends : src = target ∧ p.assignment.host? dst = some known ∨
      dst = target ∧ p.assignment.host? src = some known)
    (hnone : p.assignment.host? target = none) : p.OneKnown src dst known := by
  rcases hends with ⟨rfl, hknown⟩ | ⟨rfl, hknown⟩
  · exact Or.inr ⟨hnone, hknown⟩
  · exact Or.inl ⟨hknown, hnone⟩

theorem OneKnown.exists_node (h : p.OneKnown src dst known) : ∃ v, p.assignment.host? v = some known := by
  rcases h with ⟨hsrc, -⟩ | ⟨-, hdst⟩
  · exact ⟨src, hsrc⟩
  · exact ⟨dst, hdst⟩

/-- A decision in a state that a run has led to is what the rules prescribe. -/
theorem Recording.prescribes {hosts : Nat} (h : Recording hosts xs p) (hd : p.Decides src dst d) :
    p.Prescribes src dst d.host d.rule d.fresh.length d.pool := by
  cases hd with
  | @freshPair host hsrc hdst hlight =>
      have hroom := Pool.isFull_of_accepts? (Pool.accepts?_of_lightest? hlight)
      show Prescribes p src dst host .freshPair (ends src dst).length p.pool.raise
      rw [length_ends]
      exact .freshPair hsrc hdst (Pool.risesTo_raise hroom) (Pool.isLightest_of_lightest? hlight)
  | joinKnown hends hnone hroom => exact .joinKnown (oneKnown_of_ends hends hnone) hroom
  | @overflow known target host hends hnone hroom hlight =>
      have hknown := oneKnown_of_ends hends hnone
      obtain ⟨v, hv⟩ := hknown.exists_node
      have hopeless := h.hopeless ⟨v, known, hv⟩
      have hne := overflow_ne_known hopeless hroom hlight
      have hnoroom : p.pool.accepts? known = some false := by
        obtain ⟨room, haccepts⟩ := Pool.accepts?_of_lt_hosts (h.hostsExist v known hv)
        cases room with
        | true => exact absurd haccepts hroom
        | false => exact haccepts
      have hstill := Pool.raise_eq_self hopeless hlight
      rw [hstill] at hlight ⊢
      exact .overflow hknown hnoroom (Pool.isLightest_of_lightest? hlight) hne
  | sameHost hsrc hdst => exact .sameHost hsrc hdst
  | @crossHost a b hsrc hdst hne =>
      obtain ⟨loadA, hloadA⟩ : ∃ load, p.pool.loads[a]? = some load :=
        ⟨_, Array.getElem?_eq_getElem (h.hostsExist src a hsrc)⟩
      obtain ⟨loadB, hloadB⟩ : ∃ load, p.pool.loads[b]? = some load :=
        ⟨_, Array.getElem?_eq_getElem (h.hostsExist dst b hdst)⟩
      rw [Array.getD_eq_getD_getElem?, Array.getD_eq_getD_getElem?, hloadA, hloadB]
      show Prescribes p src dst (lighterEdges a b loadA loadB) _ _ _
      rcases lighterEdges_first hne loadA loadB with ⟨heq, hfirst⟩ | ⟨heq, hfirst⟩
      · rw [heq]
        exact .crossHost (Or.inl ⟨hsrc, hdst⟩) hloadA hloadB hfirst
      · rw [heq]
        exact .crossHost (Or.inr ⟨hsrc, hdst⟩) hloadB hloadA hfirst

/-! ## Calls follow the rules -/

/-- **A call follows the rules.**  In every state that calls on any pool have led to without an overflow, a
call for an edge of the graph makes a placement, if no counter overflows in it either, it does not raise the
ceiling forever and its check of the pool passes.  Host and rule are those that the rules prescribe.  Of all
nodes, the endpoints that had no host get this one; of all hosts, this one gains the nodes prescribed, which
are the endpoints that it gets, and an edge; one edge more is counted; and the ceiling rises as often as it
takes to make room again. -/
theorem call_follows_rules (nodes : Nat) (start : Pool) (checked : Bool) (edges : List (Nat × Nat))
    (src dst : Nat) (hsrc : src < nodes) (hdst : dst < nodes)
    (hfits : .error .overflow ∉ ((ofPool nodes start).callAll checked (edges ++ [(src, dst)])).answers) :
    let p := ((ofPool nodes start).callAll checked edges).placer
    let after := Step.after (call checked src dst p)
    ¬after.pool.Hopeless → (checked = true → after.pool.check = .ok ()) →
    ∃ host rule gain inForce q, call checked src dst p = .ok ⟨src, dst, host, rule⟩ q ∧
      p.Prescribes src dst host rule gain inForce ∧ host < p.pool.hosts ∧
      (∀ v, q.assignment.host? v =
        if (v = src ∨ v = dst) ∧ p.assignment.host? v = none then some host else p.assignment.host? v) ∧
      (∀ other : Nat, q.pool.loads[other]? = p.pool.loads[other]?.map fun load : Load =>
        if other = host then ⟨load.nodes + gain, load.edges + 1⟩ else load) ∧
      q.edges = p.edges + 1 ∧
      (inForce.carry host gain).RisesTo q.pool := by
  intro p after hroom hcheck
  have hempty := hostsExist_ofPool nodes start
  simp only [callAll_append, callAll_cons, List.mem_append, List.mem_cons, not_or] at hfits
  obtain ⟨hbefore, hnow, -⟩ := hfits
  have hrun : Recording start.hosts _ p := recording_callAll nodes start checked edges hbefore
  have hsize : p.assignment.size = nodes := size_callAll_ofPool nodes start checked edges
  rw [← hsize] at hsrc hdst
  obtain ⟨x, q, hcall⟩ := exists_call_eq_ok hrun.hostsExist hsrc hdst hroom (Ne.symm hnow) hcheck
  obtain ⟨-, -, d, hd, rfl, rfl⟩ := call_eq_ok hrun.hostsExist hcall
  have hfull := isFull_of_call_eq_ok hrun.hostsExist hcall
  refine ⟨d.host, d.rule, d.fresh.length, d.pool, _, hcall, hrun.prescribes hd,
    hd.host_lt hrun.hostsExist, fun v => ?_, fun other => ?_, rfl, Pool.risesTo_raise hfull⟩
  · simp only [host?_commit hd hsrc hdst, hd.mem_fresh]
  · rw [loads_commit hd]
    by_cases hother : other = d.host
    · simp [hother]
    · simp [hother, Ne.symm hother]

/-- The host of node 1 has no room, so that node 2 overflows to the other host. -/
theorem call_follows_rules_on_overflow :
    let start : Pool := ⟨Array.replicate 2 {}, 1.5, 1.5, 0.5, 0⟩
    let p := ((ofPool 3 start).callAll true [(0, 1)]).placer
    ∃ gain inForce q, call true 1 2 p = .ok ⟨1, 2, 1, .overflow⟩ q ∧
      p.Prescribes 1 2 1 .overflow gain inForce ∧ q.edges = p.edges + 1 ∧
      q.pool.loads[0]? = p.pool.loads[0]? ∧ (inForce.carry 1 gain).RisesTo q.pool := by
  intro start p
  have hroom : (Step.after (call true 1 2 p)).pool.isFull = false := by decide +kernel
  have hcheck : (Step.after (call true 1 2 p)).pool.check = .ok () := by decide +kernel
  have hmade : Step.outcome (call true 1 2 p) = .ok ⟨1, 2, 1, .overflow⟩ := by decide +kernel
  obtain ⟨host, rule, gain, inForce, q, hcall, hrule, -, -, hloads, hedges, hrises⟩ :=
    call_follows_rules 3 start true [(0, 1)] 1 2 (by decide) (by decide) (by decide +kernel)
      (fun hopeless => Bool.false_ne_true (hroom.symm.trans (hopeless 0))) fun _ => hcheck
  rw [show call true 1 2 p = _ from hcall, Step.outcome_ok] at hmade
  cases hmade
  have hkept := hloads 0
  simp only [if_neg (show (0 : Nat) ≠ 1 by decide), Option.map_id'] at hkept
  exact ⟨gain, inForce, q, hcall, hrule, hedges, hkept, hrises⟩

end GraphPlacement.EdgePlacer
