import GraphPlacement.EdgePlacer
import GraphPlacement.Proofs.Ceiling
import GraphPlacement.Proofs.Loads
import GraphPlacement.Proofs.Slots
import GraphPlacement.Proofs.Steps

/-!
# What the rules decide

**Decisions.** The rules only look at a placer; what they come to is a `Decision`: the host, the rule,
the endpoints that get their host now, and the pool with room in which the host was found.  There is no
decision exactly when room is needed and cannot be made.

**Commitment.** Carrying out a decision is the same whatever rule made it (`EdgePlacer.commit`): the new
endpoints get the host, the host carries the edge and the new nodes, and the pool is raised.  So one
statement about `commit` stands for the five rules.

**Counting.** A counter that is too large for a word stops the run when the endpoints have their host already:
`count` is the part of a placement that this can happen in, and `count_cases` says how far it has come then.

**Equations.** `accept_eq` says what accepting an edge comes to, and with which state, in every case
there is.  Nothing after it has to look at the steps of the rules again.
-/

namespace GraphPlacement

/-- What the rules come to about an edge. -/
structure Decision where
  host : Nat
  rule : Rule
  /-- The endpoints that get their host now. -/
  fresh : List Nat
  /-- The pool in which the host was found. -/
  pool : Pool

namespace EdgePlacer

variable {p q : EdgePlacer} {src dst known target host : Nat} {d : Decision}

/-! ## The decisions -/

/-- The endpoints of an edge without repetition. -/
def ends (src dst : Nat) : List Nat := if src = dst then [src] else [src, dst]

/-- What is decided for an edge between a node on `known` and a node without a host. -/
def decideBeside? (p : EdgePlacer) (known target : Nat) : Option Decision :=
  if p.pool.accepts? known = some true then some ⟨known, .joinKnown, [target], p.pool⟩
  else p.pool.raise.lightest?.map fun host => ⟨host, .overflow, [target], p.pool.raise⟩

/-- What is decided for an edge between nodes on two hosts, which may be the same. -/
def decideBetween (p : EdgePlacer) (a b : Nat) : Decision :=
  if a = b then ⟨a, .sameHost, [], p.pool⟩
  else ⟨lighterEdges a b (p.pool.loads.getD a {}) (p.pool.loads.getD b {}), .crossHost, [], p.pool⟩

/-- What is decided for an edge, unless room is needed that cannot be made. -/
def decide? (p : EdgePlacer) (src dst : Nat) : Option Decision :=
  match p.assignment.host? src, p.assignment.host? dst with
  | none, none =>
    p.pool.raise.lightest?.map fun host => ⟨host, .freshPair, ends src dst, p.pool.raise⟩
  | some known, none => p.decideBeside? known dst
  | none, some known => p.decideBeside? known src
  | some a, some b => some (p.decideBetween a b)

/-- The placer after a decision has been carried out. -/
def commit (p : EdgePlacer) (d : Decision) : EdgePlacer :=
  ⟨p.assignment.fillAll d.fresh d.host, (d.pool.carry d.host d.fresh.length).raise, p.edges + 1⟩

/-- The placer when the new endpoints of an edge have their host and nothing has been counted yet. -/
def filled (p : EdgePlacer) (d : Decision) : EdgePlacer :=
  ⟨p.assignment.fillAll d.fresh d.host, d.pool, p.edges⟩

/-- Counts nodes that have got their host; there may be none. -/
def countNodes (host nodes : Nat) : Step EdgePlacer Unit :=
  if nodes = 0 then pure () else onPool (Pool.addNodes host nodes)

/-- Counts an edge and the nodes that have got their host by it. -/
def count (host nodes : Nat) : Step EdgePlacer Unit := do
  countNodes host nodes
  onPool (Pool.addEdge host)
  countEdge

/-- Whether every node that has a host has one that exists. -/
def HostsExist (p : EdgePlacer) : Prop :=
  ∀ v host, p.assignment.host? v = some host → host < p.pool.hosts

/-! ## The steps of the rules -/

theorem onPool_apply {α : Type} (step : Step Pool α) (p : EdgePlacer) :
    onPool step p =
      match step p.pool with
      | .ok a pool => .ok a { p with pool }
      | .error fault pool => .error fault { p with pool } := by
  cases h : step p.pool <;> simp [onPool, Step.onPart, h]

theorem onAssignment_apply {α : Type} (step : Step Assignment α) (p : EdgePlacer) :
    onAssignment step p =
      match step p.assignment with
      | .ok a assignment => .ok a { p with assignment }
      | .error fault assignment => .error fault { p with assignment } := by
  cases h : step p.assignment <;> simp [onAssignment, Step.onPart, h]

/-- The placer when the new endpoints of an edge have their host and a part of what the host gains has been
counted. -/
def partly (p : EdgePlacer) (d : Decision) (nodes edges : Nat) : EdgePlacer :=
  ⟨p.assignment.fillAll d.fresh d.host, d.pool.gain d.host nodes edges, p.edges⟩

/-- What is left of a rule when the new endpoints have their host: to count them, and to tell the host. -/
def settleOn (d : Decision) : Step EdgePlacer (Nat × Rule) := do
  countNodes d.host d.fresh.length
  return (d.host, d.rule)

theorem placeFresh_eq (hsrc : src < p.assignment.size) (hdst : dst < p.assignment.size)
    (hnosrc : p.assignment.host? src = none) (hnodst : p.assignment.host? dst = none) :
    placeFresh src dst p =
      match p.pool.raise.lightest? with
      | none => .error .neverRoom { p with pool := p.pool.raise }
      | some host =>
        let d : Decision := ⟨host, .freshPair, ends src dst, p.pool.raise⟩
        settleOn d (p.filled d) := by
  cases h : p.pool.raise.lightest? with
  | none =>
      have hmake := Pool.makeRoom_eq_error.mpr ⟨rfl, rfl, Pool.lightest?_eq_none_iff.mp h⟩
      simp [placeFresh, Step.bind_apply, onPool_apply, hmake]
  | some host =>
      have hmake := Pool.makeRoom_eq_ok.mpr ⟨rfl, h⟩
      have hfill := Assignment.assign_eq_fill hsrc hnosrc host
      by_cases heq : src = dst
      · subst heq
        simp [placeFresh, Step.bind_apply, Step.map_apply, onPool_apply, onAssignment_apply, hmake, hfill,
          settleOn, countNodes, filled, Assignment.fillAll, ends]
      · have hstill : (p.assignment.fill src host).host? dst = none := by
          rw [Assignment.host?_fill hsrc, if_neg (Ne.symm heq), hnodst]
        have hfits : dst < (p.assignment.fill src host).size := by simpa using hdst
        have hfill' := Assignment.assign_eq_fill hfits hstill host
        simp [placeFresh, Step.bind_apply, Step.map_apply, onPool_apply, onAssignment_apply, hmake, hfill, hfill',
          settleOn, countNodes, filled, Assignment.fillAll, ends, heq]

theorem placeBeside_eq (hknown : known < p.pool.hosts) (htarget : target < p.assignment.size)
    (hnone : p.assignment.host? target = none) :
    placeBeside known target p =
      match p.decideBeside? known target with
      | none => .error .neverRoom { p with pool := p.pool.raise }
      | some d => settleOn d (p.filled d) := by
  have hfill := Assignment.assign_eq_fill htarget hnone
  obtain ⟨room, hroom⟩ := Pool.accepts?_of_lt_hosts hknown
  cases room with
  | true =>
      simp [placeBeside, decideBeside?, hroom, Step.bind_apply, Step.map_apply, onPool_apply, onAssignment_apply,
        hfill, settleOn, countNodes, filled, Assignment.fillAll]
  | false =>
      cases h : p.pool.raise.lightest? with
      | none =>
          have hmake := Pool.makeRoom_eq_error.mpr ⟨rfl, rfl, Pool.lightest?_eq_none_iff.mp h⟩
          simp [placeBeside, decideBeside?, hroom, h, Step.bind_apply, onPool_apply, hmake]
      | some host =>
          have hmake := Pool.makeRoom_eq_ok.mpr ⟨rfl, h⟩
          simp [placeBeside, decideBeside?, hroom, h, Step.bind_apply, Step.map_apply, onPool_apply,
            onAssignment_apply, hmake, hfill, settleOn, countNodes, filled, Assignment.fillAll]

theorem placeBetween_eq {a b : Nat} (ha : a < p.pool.hosts) (hb : b < p.pool.hosts) :
    placeBetween a b p =
      .ok ((p.decideBetween a b).host, (p.decideBetween a b).rule) p := by
  have hloads : a < p.pool.loads.size ∧ b < p.pool.loads.size := ⟨ha, hb⟩
  by_cases heq : a = b
  · simp [placeBetween, decideBetween, heq]
  · simp [placeBetween, decideBetween, heq, Step.bind_apply, Pool.loadOf, hloads]

/-- Endpoints that have a host already are not counted again. -/
theorem settleOn_decideBetween (p : EdgePlacer) (a b : Nat) :
    settleOn (p.decideBetween a b) (p.filled (p.decideBetween a b)) =
      .ok ((p.decideBetween a b).host, (p.decideBetween a b).rule) p := by
  unfold decideBetween
  split <;> rfl

/-- **Settling an edge** comes to the decision about it. -/
theorem settle_eq (hp : p.HostsExist) (hsrc : src < p.assignment.size)
    (hdst : dst < p.assignment.size) :
    settle src dst p =
      match p.decide? src dst with
      | none => .error .neverRoom { p with pool := p.pool.raise }
      | some d => settleOn d (p.filled d) := by
  cases ha : p.assignment.host? src with
  | none =>
      cases hb : p.assignment.host? dst with
      | none =>
          simp only [settle, decide?, Step.bind_apply, Step.get_apply, ha, hb]
          rw [placeFresh_eq hsrc hdst ha hb]
          cases p.pool.raise.lightest? <;> rfl
      | some known =>
          simp only [settle, decide?, Step.bind_apply, Step.get_apply, ha, hb]
          exact placeBeside_eq (hp _ _ hb) hsrc ha
  | some known =>
      cases hb : p.assignment.host? dst with
      | none =>
          simp only [settle, decide?, Step.bind_apply, Step.get_apply, ha, hb]
          exact placeBeside_eq (hp _ _ ha) hdst hb
      | some other =>
          simp only [settle, decide?, Step.bind_apply, Step.get_apply, ha, hb]
          rw [placeBetween_eq (hp _ _ ha) (hp _ _ hb), settleOn_decideBetween]

/-! ## Facts about decisions -/

theorem mem_ends {v : Nat} : v ∈ ends src dst ↔ v = src ∨ v = dst := by
  unfold ends
  split
  case isTrue heq => simp [heq]
  case isFalse => simp

/-- What a decision is, by the rule that made it. -/
inductive Decides (p : EdgePlacer) (src dst : Nat) : Decision → Prop
  | freshPair {host : Nat} (hsrc : p.assignment.host? src = none)
      (hdst : p.assignment.host? dst = none) (hlight : p.pool.raise.lightest? = some host) :
      Decides p src dst ⟨host, .freshPair, ends src dst, p.pool.raise⟩
  | joinKnown {known target : Nat}
      (hends : src = target ∧ p.assignment.host? dst = some known ∨
        dst = target ∧ p.assignment.host? src = some known)
      (hnone : p.assignment.host? target = none) (hroom : p.pool.accepts? known = some true) :
      Decides p src dst ⟨known, .joinKnown, [target], p.pool⟩
  | overflow {known target host : Nat}
      (hends : src = target ∧ p.assignment.host? dst = some known ∨
        dst = target ∧ p.assignment.host? src = some known)
      (hnone : p.assignment.host? target = none) (hroom : p.pool.accepts? known ≠ some true)
      (hlight : p.pool.raise.lightest? = some host) :
      Decides p src dst ⟨host, .overflow, [target], p.pool.raise⟩
  | sameHost {a : Nat} (hsrc : p.assignment.host? src = some a)
      (hdst : p.assignment.host? dst = some a) : Decides p src dst ⟨a, .sameHost, [], p.pool⟩
  | crossHost {a b : Nat} (hsrc : p.assignment.host? src = some a)
      (hdst : p.assignment.host? dst = some b) (hne : a ≠ b) :
      Decides p src dst
        ⟨lighterEdges a b (p.pool.loads.getD a {}) (p.pool.loads.getD b {}), .crossHost, [], p.pool⟩

/-- A decision about a node beside a known one is to join or to overflow. -/
theorem decides_of_decideBeside?
    (hends : src = target ∧ p.assignment.host? dst = some known ∨
      dst = target ∧ p.assignment.host? src = some known)
    (hnone : p.assignment.host? target = none) (h : p.decideBeside? known target = some d) :
    Decides p src dst d := by
  unfold decideBeside? at h
  split at h
  case isTrue hroom =>
    cases h
    exact .joinKnown hends hnone hroom
  case isFalse hroom =>
    obtain ⟨host, hlight, rfl⟩ := Option.map_eq_some_iff.mp h
    exact .overflow hends hnone hroom hlight

theorem decides_of_decide? (h : p.decide? src dst = some d) : Decides p src dst d := by
  unfold decide? at h
  cases ha : p.assignment.host? src with
  | none =>
      cases hb : p.assignment.host? dst with
      | none =>
          simp only [ha, hb] at h
          obtain ⟨host, hlight, rfl⟩ := Option.map_eq_some_iff.mp h
          exact .freshPair ha hb hlight
      | some known =>
          simp only [ha, hb] at h
          exact decides_of_decideBeside? (.inl ⟨rfl, hb⟩) ha h
  | some known =>
      cases hb : p.assignment.host? dst with
      | none =>
          simp only [ha, hb] at h
          exact decides_of_decideBeside? (.inr ⟨rfl, ha⟩) hb h
      | some other =>
          simp only [ha, hb, Option.some.injEq, decideBetween] at h
          split at h
          case isTrue heq =>
            subst h heq
            exact .sameHost ha hb
          case isFalse hne =>
            subst h
            exact .crossHost ha hb hne

theorem lighterEdges_mem (a b : Nat) (loadA loadB : Load) :
    lighterEdges a b loadA loadB = a ∨ lighterEdges a b loadA loadB = b := by
  unfold lighterEdges
  split
  · exact .inl rfl
  · split
    · exact .inr rfl
    · rcases Nat.le_total a b with h | h
      · exact .inl (Nat.min_eq_left h)
      · exact .inr (Nat.min_eq_right h)

theorem Decides.pool_eq (h : Decides p src dst d) : d.pool = p.pool ∨ d.pool = p.pool.raise := by
  cases h with
  | freshPair => exact .inr rfl
  | joinKnown => exact .inl rfl
  | overflow => exact .inr rfl
  | sameHost => exact .inl rfl
  | crossHost => exact .inl rfl

theorem Decides.loads_eq (h : Decides p src dst d) : d.pool.loads = p.pool.loads := by
  rcases h.pool_eq with heq | heq <;> simp [heq]

theorem Decides.host_lt (hp : p.HostsExist) (h : Decides p src dst d) : d.host < p.pool.hosts := by
  cases h with
  | freshPair _ _ hlight | overflow _ _ _ hlight =>
      simpa using Pool.lt_hosts_of_accepts? (Pool.accepts?_of_lightest? hlight)
  | joinKnown _ _ hroom => exact Pool.lt_hosts_of_accepts? hroom
  | sameHost hsrc _ => exact hp _ _ hsrc
  | crossHost hsrc hdst _ =>
      show lighterEdges _ _ _ _ < _
      rcases lighterEdges_mem _ _ _ _ with heq | heq
      · rw [heq]
        exact hp _ _ hsrc
      · rw [heq]
        exact hp _ _ hdst

/-- Endpoints get their host where there is room. -/
theorem Decides.accepts (h : Decides p src dst d) (hfresh : d.fresh ≠ []) :
    d.pool.accepts? d.host = some true := by
  cases h with
  | freshPair _ _ hlight | overflow _ _ _ hlight => exact Pool.accepts?_of_lightest? hlight
  | joinKnown _ _ hroom => exact hroom
  | sameHost | crossHost => exact absurd rfl hfresh

theorem Decides.length_fresh_le (h : Decides p src dst d) : d.fresh.length ≤ 2 := by
  cases h with
  | freshPair =>
      show (ends src dst).length ≤ 2
      unfold ends
      split <;> simp
  | joinKnown | overflow => exact Nat.le_succ 1
  | sameHost | crossHost => exact Nat.zero_le 2

theorem Decides.mem_fresh (h : Decides p src dst d) {v : Nat} :
    v ∈ d.fresh ↔ (v = src ∨ v = dst) ∧ p.assignment.host? v = none := by
  cases h with
  | freshPair hsrc hdst _ =>
      constructor
      · intro hv
        rcases mem_ends.mp hv with rfl | rfl
        · exact ⟨Or.inl rfl, hsrc⟩
        · exact ⟨Or.inr rfl, hdst⟩
      · intro hv
        exact mem_ends.mpr hv.1
  | joinKnown hends hnone _ | overflow hends hnone _ _ =>
      rw [List.mem_singleton]
      constructor
      · rintro rfl
        rcases hends with ⟨rfl, -⟩ | ⟨rfl, -⟩
        · exact ⟨Or.inl rfl, hnone⟩
        · exact ⟨Or.inr rfl, hnone⟩
      · rintro ⟨hv, hempty⟩
        rcases hends with ⟨rfl, hknown⟩ | ⟨rfl, hknown⟩
        · rcases hv with rfl | rfl
          · rfl
          · simp [hempty] at hknown
        · rcases hv with rfl | rfl
          · simp [hempty] at hknown
          · rfl
  | sameHost hsrc hdst | crossHost hsrc hdst _ =>
      simp only [List.not_mem_nil, false_iff]
      rintro ⟨rfl | rfl, hempty⟩
      · simp [hempty] at hsrc
      · simp [hempty] at hdst

theorem Decides.nodup_fresh (h : Decides p src dst d) : d.fresh.Nodup := by
  cases h with
  | freshPair =>
      show (ends src dst).Nodup
      unfold ends
      split
      case isTrue => exact List.nodup_singleton _
      case isFalse hne => simp [hne]
  | joinKnown | overflow => exact List.nodup_singleton _
  | sameHost | crossHost => exact List.nodup_nil

theorem Decides.allEmpty (h : Decides p src dst d) (hsrc : src < p.assignment.size)
    (hdst : dst < p.assignment.size) : p.assignment.AllEmpty d.fresh where
  nodup := h.nodup_fresh
  lt_size v hv := by
    rcases (h.mem_fresh.mp hv).1 with rfl | rfl
    · exact hsrc
    · exact hdst
  host?_eq_none v hv := (h.mem_fresh.mp hv).2

/-! ## Carrying a decision out -/

theorem countNodes_cases (h : host < p.pool.hosts) (nodes : Nat) :
    countNodes host nodes p = .ok () { p with pool := p.pool.gain host nodes 0 } ∨
      countNodes host nodes p = .error .overflow p := by
  unfold countNodes
  split
  case isTrue hzero =>
    refine Or.inl ?_
    rw [hzero, Pool.gain_zero]
    rfl
  case isFalse =>
    rw [onPool_apply]
    rcases Pool.addNodes_cases h nodes with hcount | hcount <;> rw [hcount]
    · exact Or.inl rfl
    · exact Or.inr rfl

theorem countEdge_cases (p : EdgePlacer) :
    countEdge p = .ok () { p with edges := p.edges + 1 } ∨ countEdge p = .error .overflow p := by
  rw [countEdge, Step.bind_apply, Step.get_apply]
  rcases Nat.lt_or_ge (p.edges + 1) UInt64.size with hfits | hlarge
  · exact Or.inl (by simp [Overflow.word_of_lt hfits, Step.bind_apply])
  · exact Or.inr (by simp [Overflow.word_stops_of_le hlarge, Step.bind_apply])

/-- **Counting an edge** on a host makes it carry the edge and the nodes, or stops when a part of this has been
counted. -/
theorem count_cases (h : host < p.pool.hosts) (nodes : Nat) :
    count host nodes p = .ok () ⟨p.assignment, p.pool.carry host nodes, p.edges + 1⟩ ∨
      ∃ some ≤ nodes, ∃ edges ≤ 1,
        count host nodes p = .error .overflow { p with pool := p.pool.gain host some edges } := by
  rcases countNodes_cases h nodes with hnodes | hnodes
  case inr =>
    refine Or.inr ⟨0, Nat.zero_le _, 0, Nat.zero_le _, ?_⟩
    rw [count, Step.bind_of_error hnodes, Pool.gain_zero]
  case inl =>
    have hgained : host < (p.pool.gain host nodes 0).hosts := by rwa [Pool.hosts_gain]
    have hedge := Pool.addEdge_cases hgained
    rw [count, Step.bind_of_ok hnodes, Step.bind_apply, onPool_apply]
    rcases hedge with hedge | hedge <;> rw [hedge]
    case inr => exact Or.inr ⟨nodes, Nat.le_refl _, 0, Nat.zero_le _, rfl⟩
    case inl =>
      simp only [Pool.gain_gain, Nat.add_zero, Nat.zero_add]
      rcases countEdge_cases ⟨p.assignment, p.pool.gain host nodes 1, p.edges⟩ with htotal | htotal <;>
        rw [htotal]
      · exact Or.inl rfl
      · exact Or.inr ⟨nodes, Nat.le_refl _, 1, Nat.le_refl _, rfl⟩

theorem requireNode_apply (node : Nat) (p : EdgePlacer) :
    requireNode node p =
      if p.assignment.size ≤ node then
        .error (.nodeOutOfRange node p.assignment.size) p
      else .ok () p := by
  rw [requireNode, Step.bind_apply, Step.get_apply]
  show (if p.assignment.size ≤ node then _ else _ : Step EdgePlacer Unit) p = _
  split <;> rfl

theorem count_eq_error {nodes : Nat} {fault : Fault} (h : host < p.pool.hosts)
    (hcount : count host nodes p = .error fault q) :
    ∃ some ≤ nodes, ∃ edges ≤ 1, fault = .overflow ∧ q = { p with pool := p.pool.gain host some edges } := by
  rcases count_cases h nodes with hall | ⟨some, hsome, edges, hedges, hpart⟩
  · cases hall.symm.trans hcount
  · cases hpart.symm.trans hcount
    exact ⟨some, hsome, edges, hedges, rfl, rfl⟩

/-- What fits into the counters is counted. -/
theorem count_of_lt {load : Load} {nodes : Nat} (hload : p.pool.loads[host]? = some load)
    (hnodes : load.nodes + nodes < UInt64.size) (hedges : load.edges + 1 < UInt64.size)
    (htotal : p.edges + 1 < UInt64.size) : ∃ q, count host nodes p = .ok () q := by
  have hfirst : countNodes host nodes p = .ok () { p with pool := p.pool.gain host nodes 0 } := by
    unfold countNodes
    split
    case isTrue hzero => rw [hzero, Pool.gain_zero, Step.pure_apply]
    case isFalse => rw [onPool_apply, Pool.addNodes, Pool.addNodes_of_lt hload hnodes]
  have hgained : (p.pool.gain host nodes 0).loads[host]? = some ⟨load.nodes + nodes, load.edges⟩ := by
    simp [Pool.gain, Array.getElem?_modify, hload]
  rw [count, Step.bind_of_ok hfirst, Step.bind_apply, onPool_apply, Pool.addEdge,
    Pool.addEdge_of_lt hgained hedges]
  simp [countEdge, Overflow.word_of_lt htotal, Step.bind_apply]

theorem Decides.host_lt_pool (hp : p.HostsExist) (h : Decides p src dst d) : d.host < d.pool.hosts := by
  rw [Pool.hosts, h.loads_eq]
  exact h.host_lt hp

/-- What comes after a decision and the counting of its edge comes after both counts. -/
theorem settleOn_bind {α : Type} (d : Decision) (next : Nat × Rule → Step EdgePlacer α) :
    (settleOn d >>= fun settled => onPool (Pool.addEdge settled.1) >>= fun _ =>
      countEdge >>= fun _ => next settled) =
      count d.host d.fresh.length >>= fun _ => next (d.host, d.rule) := by
  simp only [settleOn, count, bind_assoc, pure_bind]

/-- **Accepting an edge** between nodes of the graph is to carry out the decision about it, and fails
only for want of room or because a counter overflows. -/
theorem accept_eq (hp : p.HostsExist) (hsrc : src < p.assignment.size)
    (hdst : dst < p.assignment.size) :
    accept src dst p =
      match p.decide? src dst with
      | none => .error .neverRoom { p with pool := p.pool.raise }
      | some d =>
        match count d.host d.fresh.length (p.filled d) with
        | .error fault q => .error fault q
        | .ok _ _ =>
          if (p.commit d).pool.isFull then .error .neverRoom (p.commit d)
          else .ok ⟨src, dst, d.host, d.rule⟩ (p.commit d) := by
  have hin : requireNode src p = .ok () p ∧ requireNode dst p = .ok () p := by
    simp [requireNode_apply, Nat.not_le.mpr hsrc, Nat.not_le.mpr hdst]
  cases h : p.decide? src dst with
  | none => simp [accept, Step.bind_apply, hin, settle_eq hp hsrc hdst, h]
  | some d =>
      have hhost := (decides_of_decide? h).host_lt_pool hp
      have hraise : ∀ q : Pool, Pool.raiseIfFull q =
          if q.raise.isFull then .error .neverRoom q.raise else .ok q.isFull q.raise := fun _ => rfl
      have hsettle : settle src dst p = settleOn d (p.filled d) := by rw [settle_eq hp hsrc hdst, h]
      rw [accept, Step.bind_of_ok hin.1, Step.bind_of_ok hin.2, Step.bind_congr_apply hsettle, settleOn_bind,
        Step.bind_apply]
      rcases count_cases (p := p.filled d) hhost d.fresh.length with hcount | ⟨_, -, _, -, hcount⟩
      · simp only [hcount, Step.bind_apply, onPool_apply, hraise]
        show _ = if (d.pool.carry d.host d.fresh.length).raise.isFull then _ else _
        cases hfull : (d.pool.carry d.host d.fresh.length).raise.isFull <;> simp [filled, hfull, commit]
      · simp only [hcount]

end EdgePlacer

end GraphPlacement
