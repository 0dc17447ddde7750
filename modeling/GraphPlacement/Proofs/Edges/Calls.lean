import GraphPlacement.EdgePlacer.Calls
import GraphPlacement.Proofs.Edges.Decisions

/-!
# What a call does, and what all calls keep

**One call.** A call that makes a placement has carried out the decision about its edge
(`call_eq_ok`).  A call that makes none leaves the placer in one of four ways, the cases of `Refusal`;
only the first of them is an answer, the others stop the run from inside.  None of this depends on
whether the calls check the pool.

**All calls.** `callAll_invariant` is the induction over the calls, made once: what each call keeps,
between the placements so far and the placer, a whole run keeps.  `callAll_lockstep` is the same for two
runs that are made side by side.
-/

namespace GraphPlacement.EdgePlacer

variable {p q : EdgePlacer} {src dst : Nat} {d : Decision} {x : Placement} {fault : Fault}
variable {checked : Bool}

/-! ## One call -/

theorem accept_past_end (h : p.assignment.size ≤ src ∨ p.assignment.size ≤ dst) :
    accept src dst p =
      .error (.nodeOutOfRange (if p.assignment.size ≤ src then src else dst) p.assignment.size) p := by
  by_cases hsrc : p.assignment.size ≤ src
  · simp [accept, Step.bind_apply, requireNode_apply, hsrc]
  · have hdst : p.assignment.size ≤ dst := h.resolve_left hsrc
    simp [accept, Step.bind_apply, requireNode_apply, hsrc, hdst]

/-- How a call can leave a placer when it makes no placement. -/
inductive Refusal (p : EdgePlacer) (src dst : Nat) : Fault → EdgePlacer → Prop
  /-- An endpoint is no node of the graph: nothing has been done. -/
  | noNode {node : Nat} (h : p.assignment.size ≤ node) :
      Refusal p src dst (.nodeOutOfRange node p.assignment.size) p
  /-- There is no decision: the ceiling has been raised in vain. -/
  | noRoom (h : p.pool.raise.isFull = true) :
      Refusal p src dst .neverRoom { p with pool := p.pool.raise }
  /-- The host could not count the edge, or the nodes that had just got it. -/
  | overflow {d : Decision} {nodes edges : Nat} (hsrc : src < p.assignment.size)
      (hdst : dst < p.assignment.size) (hd : p.Decides src dst d) (hnodes : nodes ≤ d.fresh.length) :
      Refusal p src dst .overflow (p.partly d nodes edges)
  /-- The decision has been carried out, but then the run was stopped. -/
  | stopped {d : Decision} {fault : Fault} (hsrc : src < p.assignment.size)
      (hdst : dst < p.assignment.size) (hd : p.Decides src dst d) (h : fault.stopsRun = true) :
      Refusal p src dst fault (p.commit d)

/-- Whether the host that is decided on for an edge cannot count it, or the run cannot. -/
def Overflows (p : EdgePlacer) (src dst : Nat) : Prop :=
  ∃ d load, p.Decides src dst d ∧ p.pool.loads[d.host]? = some load ∧
    (UInt64.size ≤ load.nodes + d.fresh.length ∨ UInt64.size ≤ load.edges + 1 ∨ UInt64.size ≤ p.edges + 1)

theorem overflows_of_count_eq_error (hp : p.HostsExist) (hd : p.Decides src dst d)
    (h : count d.host d.fresh.length (p.filled d) = .error fault q) : p.Overflows src dst := by
  obtain ⟨load, hload⟩ : ∃ load, p.pool.loads[d.host]? = some load :=
    ⟨_, Array.getElem?_eq_getElem (hd.host_lt hp)⟩
  refine ⟨d, load, hd, hload, ?_⟩
  by_contra hfits
  simp only [not_or, Nat.not_le] at hfits
  have hfilled : (p.filled d).pool.loads[d.host]? = some load := by
    rw [← hload, ← hd.loads_eq]
    rfl
  obtain ⟨q', hok⟩ := count_of_lt hfilled hfits.1 hfits.2.1 hfits.2.2
  cases hok.symm.trans h

/-- Only when room is needed can there be no decision, and then there is none to be had. -/
theorem isFull_raise_of_decide? (h : p.decide? src dst = none) : p.pool.raise.isFull = true := by
  rw [← Pool.lightest?_eq_none_iff]
  unfold decide? at h
  split at h
  · exact Option.map_eq_none_iff.mp h
  · unfold decideBeside? at h
    split at h
    · cases h
    · exact Option.map_eq_none_iff.mp h
  · unfold decideBeside? at h
    split at h
    · cases h
    · exact Option.map_eq_none_iff.mp h
  · cases h

/-- A call for an edge between nodes of the graph is to accept it and then to check the pool. -/
theorem call_eq (hp : p.HostsExist) (hsrc : src < p.assignment.size)
    (hdst : dst < p.assignment.size) :
    call checked src dst p =
      match p.decide? src dst with
      | none => .error .neverRoom { p with pool := p.pool.raise }
      | some d =>
        match count d.host d.fresh.length (p.filled d) with
        | .error fault q => .error fault q
        | .ok _ _ =>
          if (p.commit d).pool.isFull then .error .neverRoom (p.commit d)
          else match if checked then (p.commit d).pool.check else .ok () with
            | .ok _ => .ok ⟨src, dst, d.host, d.rule⟩ (p.commit d)
            | .error cause => .error (.broken .pool cause) (p.commit d) := by
  cases checked with
  | false => exact accept_eq hp hsrc hdst
  | true =>
      show place src dst p = _
      rw [place, Step.bind_apply, accept_eq hp hsrc hdst]
      cases p.decide? src dst with
      | none => rfl
      | some d =>
          cases hcount : count d.host d.fresh.length (p.filled d) with
          | error fault q => simp [hcount]
          | ok _ _ =>
              cases hfull : (p.commit d).pool.isFull with
              | true => simp [hcount, hfull]
              | false =>
                  cases hcheck : (p.commit d).pool.check <;>
                    simp [hcount, hfull, Step.bind_apply, Step.map_apply, hcheck, demand]

/-- A call with an endpoint that is no node of the graph reports it, the source first. -/
theorem call_past_end (h : p.assignment.size ≤ src ∨ p.assignment.size ≤ dst) (checked : Bool) :
    call checked src dst p =
      .error (.nodeOutOfRange (if p.assignment.size ≤ src then src else dst) p.assignment.size) p := by
  have haccept := accept_past_end h
  cases checked with
  | false => exact haccept
  | true => simp [call, place, Step.bind_apply, haccept]

/-- **A call that makes a placement** carries out the decision about its edge. -/
theorem call_eq_ok (hp : p.HostsExist) (h : call checked src dst p = .ok x q) :
    src < p.assignment.size ∧ dst < p.assignment.size ∧
      ∃ d, p.Decides src dst d ∧ x = ⟨src, dst, d.host, d.rule⟩ ∧ q = p.commit d := by
  have hin : src < p.assignment.size ∧ dst < p.assignment.size := by
    by_contra hin
    have hout : p.assignment.size ≤ src ∨ p.assignment.size ≤ dst := by omega
    rw [call_past_end hout] at h
    cases h
  rw [call_eq hp hin.1 hin.2] at h
  split at h
  case h_1 => cases h
  case h_2 d hd =>
    split at h
    case h_1 => cases h
    case h_2 =>
      split at h
      case isTrue => cases h
      case isFalse =>
        split at h
        case h_1 =>
          cases h
          exact ⟨hin.1, hin.2, d, decides_of_decide? hd, rfl, rfl⟩
        case h_2 => cases h

/-- A call that makes a placement leaves room on some host. -/
theorem isFull_of_call_eq_ok (hp : p.HostsExist) (h : call checked src dst p = .ok x q) :
    q.pool.isFull = false := by
  obtain ⟨hsrc, hdst, -⟩ := call_eq_ok hp h
  rw [call_eq hp hsrc hdst] at h
  split at h
  case h_1 => cases h
  case h_2 d hd =>
    split at h
    case h_1 => cases h
    case h_2 =>
      split at h
      case isTrue => cases h
      case isFalse hroom =>
        split at h
        case h_1 =>
          cases h
          exact Bool.eq_false_iff.mpr hroom
        case h_2 => cases h

/-- A call that checks the pool makes a placement only if the check passes. -/
theorem check_of_call_eq_ok (h : call true src dst p = .ok x q) : q.pool.check = .ok () := by
  have hplace : place src dst p = .ok x q := h
  obtain ⟨_, m, -, hrest⟩ := Step.bind_eq_ok.mp hplace
  obtain ⟨_, _, hget, hrest⟩ := Step.bind_eq_ok.mp hrest
  cases hget
  obtain ⟨_, _, hdemand, hreturn⟩ := Step.bind_eq_ok.mp hrest
  cases hreturn
  obtain ⟨hverdict, rfl⟩ := Step.ofExcept_eq_ok.mp hdemand
  cases hcheck : m.pool.check with
  | ok _ => rfl
  | error cause =>
      rw [hcheck] at hverdict
      cases hverdict

/-- **A call that makes none** leaves the placer in one of four ways. -/
theorem call_eq_error (hp : p.HostsExist) (h : call checked src dst p = .error fault q) :
    Refusal p src dst fault q := by
  by_cases hin : src < p.assignment.size ∧ dst < p.assignment.size
  case neg =>
    have hout : p.assignment.size ≤ src ∨ p.assignment.size ≤ dst := by omega
    rw [call_past_end hout] at h
    cases h
    refine .noNode ?_
    split <;> omega
  case pos =>
    rw [call_eq hp hin.1 hin.2] at h
    split at h
    case h_1 hd =>
      cases h
      exact .noRoom (isFull_raise_of_decide? hd)
    case h_2 d hd =>
      have hdecides := decides_of_decide? hd
      split at h
      case h_1 hcount =>
        cases h
        obtain ⟨nodes, hnodes, edges, -, rfl, rfl⟩ := count_eq_error (hdecides.host_lt_pool hp) hcount
        exact .overflow hin.1 hin.2 hdecides hnodes
      case h_2 =>
        split at h
        case isTrue =>
          cases h
          exact .stopped hin.1 hin.2 hdecides rfl
        case isFalse =>
          split at h
          case h_1 => cases h
          case h_2 =>
            cases h
            exact .stopped hin.1 hin.2 hdecides rfl

/-- A call for an edge of the graph meets a fault only when no raise will make room any more, when a counter
overflows, or when the check that it makes on the pool fails, without which it would have made a placement. -/
theorem fault_of_call_eq_error (hp : p.HostsExist) (hsrc : src < p.assignment.size)
    (hdst : dst < p.assignment.size) (h : call checked src dst p = .error fault q) :
    fault = .neverRoom ∧ q.pool.Hopeless ∨ fault = .overflow ∧ p.Overflows src dst ∨
      ∃ cause, fault = .broken .pool cause ∧ checked = true ∧ q.pool.check = .error cause ∧
        ∃ x, call false src dst p = .ok x q := by
  rw [call_eq hp hsrc hdst] at h
  split at h
  case h_1 hd =>
    cases h
    exact Or.inl ⟨rfl, Pool.hopeless_raise (isFull_raise_of_decide? hd)⟩
  case h_2 d hd =>
    have hdecides := decides_of_decide? hd
    split at h
    case h_1 hcount =>
      cases h
      obtain ⟨_, -, _, -, rfl, -⟩ := count_eq_error (hdecides.host_lt_pool hp) hcount
      exact Or.inr (Or.inl ⟨rfl, overflows_of_count_eq_error hp hdecides hcount⟩)
    case h_2 =>
      split at h
      case isTrue hfull =>
        cases h
        exact Or.inl ⟨rfl, Pool.hopeless_raise hfull⟩
      case isFalse hroom =>
        cases checked with
        | false => cases h
        | true =>
            split at h
            case h_1 => cases h
            case h_2 hcount _ cause hcheck =>
              cases h
              refine Or.inr (Or.inr ⟨cause, rfl, rfl, hcheck, ⟨src, dst, d.host, d.rule⟩, ?_⟩)
              rw [call_eq hp hsrc hdst, hd]
              simp [hcount, hroom]

/-- So it makes a placement if raising comes to an end, no counter overflows and the check passes. -/
theorem exists_call_eq_ok (hp : p.HostsExist) (hsrc : src < p.assignment.size)
    (hdst : dst < p.assignment.size) (hroom : ¬(Step.after (call checked src dst p)).pool.Hopeless)
    (hfits : Step.outcome (call checked src dst p) ≠ .error .overflow)
    (hcheck : checked = true → (Step.after (call checked src dst p)).pool.check = .ok ()) :
    ∃ x q, call checked src dst p = .ok x q := by
  cases hcall : call checked src dst p with
  | ok x q => exact ⟨x, q, rfl⟩
  | error fault q =>
      rw [hcall] at hroom hfits hcheck
      rcases fault_of_call_eq_error hp hsrc hdst hcall with
        ⟨-, hopeless⟩ | ⟨rfl, -⟩ | ⟨cause, -, hchecked, hfails, -⟩
      · exact absurd hopeless hroom
      · exact absurd rfl hfits
      · rw [show q.pool.check = .ok () from hcheck hchecked] at hfails
        cases hfails

/-- **After a call** the placer is as before, its pool has been raised in vain, a decision has been carried out,
or one has been carried out until a counter overflowed. -/
theorem after_call (hp : p.HostsExist) (checked : Bool) (src dst : Nat) :
    Step.after (call checked src dst p) = p ∨
      p.pool.raise.isFull = true ∧
        Step.after (call checked src dst p) = { p with pool := p.pool.raise } ∨
      ∃ d, src < p.assignment.size ∧ dst < p.assignment.size ∧ p.Decides src dst d ∧
        (Step.after (call checked src dst p) = p.commit d ∨
          ∃ nodes ≤ d.fresh.length, ∃ edges, Step.after (call checked src dst p) = p.partly d nodes edges) := by
  cases hcall : call checked src dst p with
  | ok x q =>
      obtain ⟨hsrc, hdst, d, hd, -, rfl⟩ := call_eq_ok hp hcall
      exact Or.inr (Or.inr ⟨d, hsrc, hdst, hd, Or.inl rfl⟩)
  | error fault q =>
      cases call_eq_error hp hcall with
      | noNode => exact Or.inl rfl
      | noRoom hfull => exact Or.inr (Or.inl ⟨hfull, rfl⟩)
      | overflow hsrc hdst hd hnodes => exact Or.inr (Or.inr ⟨_, hsrc, hdst, hd, Or.inr ⟨_, hnodes, _, rfl⟩⟩)
      | stopped hsrc hdst hd _ => exact Or.inr (Or.inr ⟨_, hsrc, hdst, hd, Or.inl rfl⟩)

/-! ## What carrying out a decision keeps -/

@[simp] theorem size_commit (p : EdgePlacer) (d : Decision) :
    (p.commit d).assignment.size = p.assignment.size := by simp [commit]

theorem hosts_commit (h : p.Decides src dst d) : (p.commit d).pool.hosts = p.pool.hosts := by
  simp [commit, Pool.hosts, Pool.carry, h.loads_eq]

theorem host?_commit (hd : p.Decides src dst d) (hsrc : src < p.assignment.size)
    (hdst : dst < p.assignment.size) (v : Nat) :
    (p.commit d).assignment.host? v =
      if v ∈ d.fresh then some d.host else p.assignment.host? v :=
  Assignment.host?_fillAll (hd.allEmpty hsrc hdst) d.host v

theorem le_commit (hd : p.Decides src dst d) (hsrc : src < p.assignment.size)
    (hdst : dst < p.assignment.size) : p.assignment ≤ (p.commit d).assignment :=
  Assignment.le_fillAll (hd.allEmpty hsrc hdst) d.host

theorem HostsExist.commit (hp : p.HostsExist) (hd : p.Decides src dst d)
    (hsrc : src < p.assignment.size) (hdst : dst < p.assignment.size) : (p.commit d).HostsExist := by
  intro v host hv
  rw [host?_commit hd hsrc hdst] at hv
  rw [hosts_commit hd]
  split at hv
  · cases hv
    exact hd.host_lt hp
  · exact hp v host hv

/-- What has been counted makes no difference to which hosts there are. -/
theorem HostsExist.partly (hp : p.HostsExist) (hd : p.Decides src dst d) (hsrc : src < p.assignment.size)
    (hdst : dst < p.assignment.size) (nodes edges : Nat) : (p.partly d nodes edges).HostsExist := by
  have hhosts : (p.partly d nodes edges).pool.hosts = (p.commit d).pool.hosts := by
    simp [EdgePlacer.partly, EdgePlacer.commit, Pool.hosts_gain, Pool.hosts_raise]
  intro v host hv
  rw [hhosts]
  exact hp.commit hd hsrc hdst v host hv

theorem HostsExist.call (hp : p.HostsExist) (checked : Bool) (src dst : Nat) :
    (Step.after (call checked src dst p)).HostsExist := by
  rcases after_call hp checked src dst with
    heq | ⟨-, heq⟩ | ⟨d, hsrc, hdst, hd, heq | ⟨_, -, _, heq⟩⟩ <;> rw [heq]
  · exact hp
  · simpa [HostsExist] using hp
  · exact hp.commit hd hsrc hdst
  · exact hp.partly hd hsrc hdst _ _

theorem size_call (hp : p.HostsExist) (checked : Bool) (src dst : Nat) :
    (Step.after (call checked src dst p)).assignment.size = p.assignment.size := by
  rcases after_call hp checked src dst with
    heq | ⟨-, heq⟩ | ⟨d, -, -, -, heq | ⟨_, -, _, heq⟩⟩ <;> rw [heq]
  · exact size_commit p d
  · exact Assignment.size_fillAll d.fresh

@[simp] theorem size_ofPool (nodes : Nat) (pool : Pool) : (ofPool nodes pool).assignment.size = nodes :=
  Assignment.size_ofSize nodes

theorem hostsExist_ofPool (nodes : Nat) (start : Pool) : (ofPool nodes start).HostsExist := by
  intro v host hv
  simp [ofPool] at hv

/-! ## All calls -/

@[simp] theorem placed_nil (p : EdgePlacer) : (p.callAll checked []).placed = [] := rfl

theorem placed_cons_of_ok (h : call checked src dst p = .ok x q) (edges : List (Nat × Nat)) :
    (p.callAll checked ((src, dst) :: edges)).placed = x :: (q.callAll checked edges).placed := by
  simp [callAll, Calls.placed, h, Except.toOption]

theorem placed_cons_of_error (h : call checked src dst p = .error fault q) (edges : List (Nat × Nat)) :
    (p.callAll checked ((src, dst) :: edges)).placed = (q.callAll checked edges).placed := by
  simp only [callAll, Calls.placed, h, Step.outcome_error, Step.after_error]
  rfl

/-- **What each call keeps, a run keeps.**  `Inv` relates the placements that have been made to the
placer; `Met` is what is known of the faults that the calls meet. -/
theorem callAll_invariant {Inv : List Placement → EdgePlacer → Prop} {Met : Fault → Prop}
    (hplaced : ∀ {xs p q src dst x}, Inv xs p → call checked src dst p = .ok x q → Inv (xs ++ [x]) q)
    (hrefused : ∀ {xs p q src dst fault}, Inv xs p → call checked src dst p = .error fault q →
      Met fault → Inv xs q)
    (edges : List (Nat × Nat)) {xs : List Placement} {p : EdgePlacer} (hinv : Inv xs p)
    (hmet : ∀ fault, .error fault ∈ (p.callAll checked edges).answers → Met fault) :
    Inv (xs ++ (p.callAll checked edges).placed) (p.callAll checked edges).placer := by
  induction edges generalizing p xs with
  | nil =>
      rw [placed_nil, List.append_nil]
      exact hinv
  | cons edge edges ih =>
      obtain ⟨src, dst⟩ := edge
      have hlater : ∀ fault, .error fault ∈
          ((Step.after (call checked src dst p)).callAll checked edges).answers → Met fault :=
        fun fault hfault => hmet fault (List.mem_cons_of_mem _ hfault)
      cases hcall : call checked src dst p with
      | ok x q =>
          rw [hcall] at hlater
          have hdone := ih (hplaced hinv hcall) hlater
          rw [placed_cons_of_ok hcall, callAll, hcall]
          simpa using hdone
      | error fault q =>
          have hfault : Met fault := hmet fault (by simp [callAll, hcall])
          rw [hcall] at hlater
          have hdone := ih (hrefused hinv hcall hfault) hlater
          rw [placed_cons_of_error hcall, callAll, hcall]
          exact hdone

/-- What each call keeps of the placer alone, a run keeps. -/
theorem callAll_keeps {Inv : EdgePlacer → Prop}
    (hkeeps : ∀ {p} src dst, Inv p → Inv (Step.after (call checked src dst p)))
    (edges : List (Nat × Nat)) (hp : Inv p) : Inv (p.callAll checked edges).placer := by
  induction edges generalizing p with
  | nil => exact hp
  | cons edge edges ih => exact ih (hkeeps edge.1 edge.2 hp)

/-- Calls that come later go on from where the earlier ones have led. -/
theorem callAll_append (p : EdgePlacer) (checked : Bool) (edges later : List (Nat × Nat)) :
    p.callAll checked (edges ++ later) =
      ⟨(p.callAll checked edges).answers ++ ((p.callAll checked edges).placer.callAll checked later).answers,
        ((p.callAll checked edges).placer.callAll checked later).placer⟩ := by
  induction edges generalizing p with
  | nil => rfl
  | cons edge edges ih => simp only [List.cons_append, callAll, ih]

theorem size_callAll (hp : p.HostsExist) (edges : List (Nat × Nat)) :
    (p.callAll checked edges).placer.assignment.size = p.assignment.size := by
  induction edges generalizing p with
  | nil => rfl
  | cons edge edges ih =>
      exact (ih (hp.call checked edge.1 edge.2)).trans (size_call hp checked edge.1 edge.2)

theorem size_callAll_ofPool (nodes : Nat) (start : Pool) (checked : Bool) (edges : List (Nat × Nat)) :
    ((ofPool nodes start).callAll checked edges).placer.assignment.size = nodes :=
  (size_callAll (hostsExist_ofPool nodes start) edges).trans (size_ofPool nodes start)

theorem hostsExist_callAll (nodes : Nat) (start : Pool) (checked : Bool) (edges : List (Nat × Nat)) :
    ((ofPool nodes start).callAll checked edges).placer.HostsExist :=
  callAll_keeps (fun src dst h => h.call checked src dst) edges (hostsExist_ofPool nodes start)

/-! ## Two runs at once -/

theorem callAll_cons (p : EdgePlacer) (checked : Bool) (edge : Nat × Nat) (edges : List (Nat × Nat)) :
    p.callAll checked (edge :: edges) =
      ⟨Step.outcome (call checked edge.1 edge.2 p) ::
          ((Step.after (call checked edge.1 edge.2 p)).callAll checked edges).answers,
        ((Step.after (call checked edge.1 edge.2 p)).callAll checked edges).placer⟩ := rfl

/-- **Two runs in lockstep.**  The second makes the calls of the first with their edges changed.  If a call
and the changed one keep two placers related and their answers differ by `turn` only, then so do the runs:
in their answers, and in what is related after any number of calls. -/
theorem callAll_lockstep {Rel : EdgePlacer → EdgePlacer → Prop} {change : Nat → Nat × Nat → Nat × Nat}
    {turn : Nat → Placement → Placement} {edges : List (Nat × Nat)}
    (hstep : ∀ i, ∀ e ∈ edges, ∀ {p q}, Rel p q →
      Step.outcome (call checked (change i e).1 (change i e).2 q) =
        (Step.outcome (call checked e.1 e.2 p)).map (turn i) ∧
      Rel (Step.after (call checked e.1 e.2 p)) (Step.after (call checked (change i e).1 (change i e).2 q)))
    (hrel : Rel p q) :
    (q.callAll checked (edges.mapIdx change)).answers =
        (p.callAll checked edges).answers.mapIdx (fun i answer => answer.map (turn i)) ∧
      ∀ k, Rel (p.callAll checked (edges.take k)).placer
        (q.callAll checked ((edges.mapIdx change).take k)).placer := by
  induction edges generalizing p q change turn with
  | nil => exact ⟨rfl, fun k => by simpa [callAll] using hrel⟩
  | cons edge edges ih =>
      obtain ⟨hanswer, hafter⟩ := hstep 0 edge List.mem_cons_self hrel
      obtain ⟨hanswers, hlater⟩ :=
        ih (fun i e he => hstep (i + 1) e (List.mem_cons_of_mem _ he)) hafter
      rw [List.mapIdx_cons]
      refine ⟨?_, fun k => ?_⟩
      · rw [callAll_cons, callAll_cons, List.mapIdx_cons, hanswer, hanswers]
      · cases k with
        | zero => exact hrel
        | succ k => exact hlater k

/-! ## Calls that all make a placement -/

theorem allMade_cons {edge : Nat × Nat} {edges : List (Nat × Nat)} :
    (p.callAll checked (edge :: edges)).AllMade ↔
      ∃ x q, call checked edge.1 edge.2 p = .ok x q ∧ (q.callAll checked edges).AllMade := by
  rw [callAll_cons]
  cases hcall : call checked edge.1 edge.2 p with
  | ok x q => simp [Calls.AllMade]
  | error fault q =>
      constructor
      · intro hmade
        exact absurd List.mem_cons_self (hmade fault)
      · rintro ⟨_, _, hnone, -⟩
        cases hnone

theorem check_of_allMade {edges : List (Nat × Nat)} (hp : p.pool.check = .ok ())
    (hmade : (p.callAll true edges).AllMade) : (p.callAll true edges).placer.pool.check = .ok () := by
  induction edges generalizing p with
  | nil => exact hp
  | cons edge edges ih =>
      obtain ⟨x, q, hcall, hlater⟩ := allMade_cons.mp hmade
      rw [callAll_cons, hcall]
      exact ih (check_of_call_eq_ok hcall) hlater

theorem ends_of_allMade (hp : p.HostsExist) {edges : List (Nat × Nat)}
    (hmade : (p.callAll checked edges).AllMade) :
    (p.callAll checked edges).placed.map (fun x => x.placed.ends) = edges := by
  induction edges generalizing p with
  | nil => rfl
  | cons edge edges ih =>
      obtain ⟨x, q, hcall, hlater⟩ := allMade_cons.mp hmade
      obtain ⟨hsrc, hdst, d, hd, rfl, rfl⟩ := call_eq_ok hp hcall
      rw [placed_cons_of_ok hcall, List.map_cons, ih (hp.commit hd hsrc hdst) hlater]
      rfl

end GraphPlacement.EdgePlacer
