import GraphPlacement.Proofs.Borrowing
import GraphPlacement.Proofs.Edges.Calls

/-!
# Where edges are counted

**Timing.** A rule is chosen when an edge comes, but cuts and borrowed endpoints are counted at the end.
The two agree because nodes never move: what `Recorded` says of a placement holds on from the call that
made it.

**Hosts of record.** An edge is counted on the host of one of its endpoints, and the endpoints are on two
hosts exactly when one of the rules for that was used.  So an edge borrows one endpoint if it is cut and
none otherwise.

**Overflow.** An overflow must not end on the host that had no room.  It cannot, unless the ceiling rises
in between; and it does not rise, since a pool is raised after every placement and has room then, or
else is hopeless and gives no host at all (`Recording.hopeless`).
-/

namespace GraphPlacement

/-- Whether a placement uses a rule that leaves its endpoints on two hosts. -/
def Placement.crosses (x : Placement) : Bool := x.rule = .overflow || x.rule = .crossHost

namespace Assignment

variable {a b : Assignment} {hosts : Nat} {x : Placement} {xs : List Placement}

/-- Whether an assignment bears out a placement: the edge is counted on the host of an endpoint, and the
rule tells whether the endpoints are on two hosts. -/
structure Recorded (a : Assignment) (hosts : Nat) (x : Placement) : Prop where
  host_lt : x.host < hosts
  ends : ∃ hostSrc hostDst, a.host? x.src = some hostSrc ∧ a.host? x.dst = some hostDst ∧
    (x.host = hostSrc ∨ x.host = hostDst) ∧ (hostSrc ≠ hostDst ↔ x.crosses = true)

/-- A placement that is borne out stays so, since no node moves. -/
theorem Recorded.mono (h : a.Recorded hosts x) (hab : a ≤ b) : b.Recorded hosts x := by
  obtain ⟨hostSrc, hostDst, hsrc, hdst, hhost, hcross⟩ := h.ends
  exact ⟨h.host_lt, hostSrc, hostDst, hab _ _ hsrc, hab _ _ hdst, hhost, hcross⟩

/-! ## Counting at the end -/

theorem Recorded.fits (h : a.Recorded hosts x) : x.host < hosts ∧ x.src < a.size ∧ x.dst < a.size := by
  obtain ⟨hostSrc, hostDst, hsrc, hdst, -⟩ := h.ends
  exact ⟨h.host_lt, lt_size_of_host? hsrc, lt_size_of_host? hdst⟩

theorem Recorded.atEnd (h : a.Recorded hosts x) : a.AtEnd x.placed := by
  obtain ⟨hostSrc, hostDst, hsrc, hdst, hhost, -⟩ := h.ends
  simpa [AtEnd, Placement.placed, hsrc, hdst, eq_comm] using hhost

/-- The edge of a placement is evaluated, and cut if it crosses. -/
theorem Recorded.isCut? (h : a.Recorded hosts x) : a.isCut? x.src x.dst = some x.crosses := by
  obtain ⟨hostSrc, hostDst, hsrc, hdst, -, hcross⟩ := h.ends
  cases hrule : x.crosses <;> simp_all [Assignment.isCut?]

theorem cutsAmong_of_recorded (h : ∀ x ∈ xs, a.Recorded hosts x) :
    a.cutsAmong (xs.map fun x => x.placed.ends) = ⟨xs.countP Placement.crosses, xs.length, 0⟩ := by
  have hcut : ∀ x ∈ xs, a.isCut? x.placed.ends.1 x.placed.ends.2 = some x.crosses := fun x hx => (h x hx).isCut?
  rw [cutsAmong, List.countP_map, List.countP_map, List.countP_map, Tally.mk.injEq]
  refine ⟨List.countP_congr fun x hx => ?_, List.countP_eq_length.mpr fun x hx => ?_,
    List.countP_eq_zero.mpr fun x hx => ?_⟩ <;> simp [hcut x hx]

theorem tally_of_recorded (h : ∀ x ∈ xs, a.Recorded hosts x) (t : Tally) :
    a.tallyFrom t (xs.map fun x => x.placed.ends) =
      .ok ⟨t.cut + xs.countP Placement.crosses, t.evaluated + xs.length, t.skipped⟩ := by
  have hfits : ∀ e ∈ xs.map fun x => x.placed.ends, e.1 < a.size ∧ e.2 < a.size :=
    List.forall_mem_map.mpr fun x hx => (h x hx).fits.2
  rw [tallyFrom_eq, tally_eq_ok_iff.mpr ⟨hfits, rfl⟩, cutsAmong_of_recorded h]
  rfl

theorem borrowed_of_recorded (h : ∀ x ∈ xs, a.Recorded hosts x) :
    a.borrowed hosts (xs.map Placement.placed) = .ok (xs.countP Placement.crosses) := by
  refine borrowed_eq_ok.mpr ⟨List.forall_mem_map.mpr fun x hx => (h x hx).fits, ?_⟩
  have hends : ∀ p ∈ xs.map Placement.placed, a.mustBorrow p = a.borrowedEnds p :=
    List.forall_mem_map.mpr fun x hx => (a.mustBorrow_le_and_eq_iff x.placed).2.mpr (h x hx).atEnd
  calc xs.countP Placement.crosses
      = (a.cutsAmong ((xs.map Placement.placed).map Placed.ends)).cut := by
        rw [List.map_map]
        exact congrArg Tally.cut (cutsAmong_of_recorded h).symm
    _ = ((xs.map Placement.placed).map a.mustBorrow).sum := cut_eq_sum a _
    _ = ((xs.map Placement.placed).map a.borrowedEnds).sum := congrArg List.sum (List.map_congr_left hends)

end Assignment

namespace EdgePlacer

variable {p q : EdgePlacer} {src dst : Nat} {d : Decision} {x : Placement} {fault : Fault}
variable {start : Pool} {xs : List Placement} {checked : Bool}

/-! ## One call -/

/-- What holds between the placements of a run and the placer. -/
structure Recording (hosts : Nat) (xs : List Placement) (p : EdgePlacer) : Prop where
  hostsExist : p.HostsExist
  hosts_eq : p.pool.hosts = hosts
  recorded : ∀ x ∈ xs, p.assignment.Recorded hosts x
  /-- Once a node has a host, there is room, or there never will be. -/
  hopeless : (∃ v host, p.assignment.host? v = some host) → p.pool.isFull = true → p.pool.Hopeless

theorem recording_ofPool (nodes : Nat) (start : Pool) :
    Recording start.hosts [] (ofPool nodes start) where
  hostsExist := hostsExist_ofPool nodes start
  hosts_eq := rfl
  recorded := by simp
  hopeless := by
    rintro ⟨v, host, hv⟩
    simp [ofPool] at hv

/-- An overflow does not end on the host that had no room. -/
theorem overflow_ne_known {known host : Nat}
    (hopeless : p.pool.isFull = true → p.pool.Hopeless) (hroom : p.pool.accepts? known ≠ some true)
    (hlight : p.pool.raise.lightest? = some host) : host ≠ known := by
  rintro rfl
  rw [Pool.raise_eq_self hopeless hlight] at hlight
  exact hroom (Pool.accepts?_of_lightest? hlight)

/-- The assignment after a decision bears out the placement that the decision makes. -/
theorem Recording.recorded_commit {hosts : Nat} (h : Recording hosts xs p)
    (hd : p.Decides src dst d) (hsrc : src < p.assignment.size) (hdst : dst < p.assignment.size) :
    (p.commit d).assignment.Recorded hosts ⟨src, dst, d.host, d.rule⟩ := by
  have hlt : d.host < hosts := h.hosts_eq ▸ hd.host_lt h.hostsExist
  have hfresh : ∀ v ∈ d.fresh, (p.commit d).assignment.host? v = some d.host := by
    intro v hv
    rw [host?_commit hd hsrc hdst, if_pos hv]
  have hkept := le_commit hd hsrc hdst
  refine ⟨hlt, ?_⟩
  cases hd with
  | freshPair hnosrc hnodst hlight =>
      have hends := hfresh src (mem_ends.mpr (Or.inl rfl))
      have hends' := hfresh dst (mem_ends.mpr (Or.inr rfl))
      exact ⟨_, _, hends, hends', Or.inl rfl, by simp [Placement.crosses]⟩
  | joinKnown hends hnone hroom =>
      have htarget := hfresh _ List.mem_cons_self
      rcases hends with ⟨rfl, hknown⟩ | ⟨rfl, hknown⟩
      · exact ⟨_, _, htarget, hkept _ _ hknown, Or.inl rfl, by simp [Placement.crosses]⟩
      · exact ⟨_, _, hkept _ _ hknown, htarget, Or.inl rfl, by simp [Placement.crosses]⟩
  | overflow hends hnone hroom hlight =>
      have htarget := hfresh _ List.mem_cons_self
      rcases hends with ⟨rfl, hknown⟩ | ⟨rfl, hknown⟩
      · have hne := overflow_ne_known (h.hopeless ⟨_, _, hknown⟩) hroom hlight
        exact ⟨_, _, htarget, hkept _ _ hknown, Or.inl rfl, by simp [Placement.crosses, hne]⟩
      · have hne := overflow_ne_known (h.hopeless ⟨_, _, hknown⟩) hroom hlight
        exact ⟨_, _, hkept _ _ hknown, htarget, Or.inr rfl, by simp [Placement.crosses, hne.symm]⟩
  | sameHost hhostSrc hhostDst =>
      exact ⟨_, _, hkept _ _ hhostSrc, hkept _ _ hhostDst, Or.inl rfl, by simp [Placement.crosses]⟩
  | crossHost hhostSrc hhostDst hne =>
      exact ⟨_, _, hkept _ _ hhostSrc, hkept _ _ hhostDst, lighterEdges_mem _ _ _ _,
        by simp [Placement.crosses, hne]⟩

theorem Recording.commit {hosts : Nat} (h : Recording hosts xs p) (hd : p.Decides src dst d)
    (hsrc : src < p.assignment.size) (hdst : dst < p.assignment.size) :
    Recording hosts xs (p.commit d) where
  hostsExist := h.hostsExist.commit hd hsrc hdst
  hosts_eq := (hosts_commit hd).trans h.hosts_eq
  recorded x hx := (h.recorded x hx).mono (le_commit hd hsrc hdst)
  hopeless _ hfull := Pool.hopeless_raise hfull

/-- A call that makes a placement has it borne out. -/
theorem Recording.placed {hosts : Nat} (h : Recording hosts xs p)
    (hcall : call checked src dst p = .ok x q) : Recording hosts (xs ++ [x]) q := by
  obtain ⟨hsrc, hdst, d, hd, rfl, rfl⟩ := call_eq_ok h.hostsExist hcall
  have hbefore := h.commit hd hsrc hdst
  refine ⟨hbefore.hostsExist, hbefore.hosts_eq, ?_, hbefore.hopeless⟩
  intro x hx
  rcases List.mem_append.mp hx with hx | hx
  · exact hbefore.recorded x hx
  · rw [List.mem_singleton.mp hx]
    exact h.recorded_commit hd hsrc hdst

theorem Recording.refused {hosts : Nat} (h : Recording hosts xs p)
    (hcall : call checked src dst p = .error fault q) (hfits : fault ≠ .overflow) : Recording hosts xs q := by
  cases call_eq_error h.hostsExist hcall with
  | noNode => exact h
  | noRoom hfull =>
      refine ⟨?_, ?_, h.recorded, fun _ _ => Pool.hopeless_raise hfull⟩
      · simpa [HostsExist] using h.hostsExist
      · simpa using h.hosts_eq
  | overflow => exact absurd rfl hfits
  | stopped hsrc hdst hd _ => exact h.commit hd hsrc hdst

/-! ## All calls -/

theorem recording_callAll (nodes : Nat) (start : Pool) (checked : Bool) (edges : List (Nat × Nat))
    (hfits : .error .overflow ∉ ((ofPool nodes start).callAll checked edges).answers) :
    Recording start.hosts ((ofPool nodes start).callAll checked edges).placed
      ((ofPool nodes start).callAll checked edges).placer :=
  callAll_invariant (fun h hcall => h.placed hcall)
    (fun h hcall hfault => h.refused hcall hfault) edges (recording_ofPool nodes start)
    (fun fault hfault (heq : fault = .overflow) => hfits (heq ▸ hfault))

/-- **Every edge is counted where one of its endpoints is.**  Over the placements that any calls on any pool
have made, in which no counter has overflowed, all edges are evaluated and none is skipped; and the cut edges
are as many as the borrowed endpoints, which are as many as the placements by a rule for two hosts. -/
theorem cut_eq_borrowed_eq_crossing (nodes : Nat) (start : Pool) (checked : Bool)
    (edges : List (Nat × Nat))
    (hfits : .error .overflow ∉ ((ofPool nodes start).callAll checked edges).answers) :
    let run := (ofPool nodes start).callAll checked edges
    let a := run.placer.assignment
    let crossing := run.placed.countP fun x => x.rule = .overflow ∨ x.rule = .crossHost
    a.tally (run.placed.map fun x => (x.src, x.dst)) = .ok ⟨crossing, run.placed.length, 0⟩ ∧
      a.borrowed start.hosts (run.placed.map Placement.placed) = .ok crossing := by
  intro run a crossing
  have h : ∀ x ∈ run.placed, a.Recorded start.hosts x :=
    (recording_callAll nodes start checked edges hfits).recorded
  have hcrossing : run.placed.countP Placement.crosses = crossing := by
    refine List.countP_congr fun x _ => ?_
    simp [Placement.crosses]
  rw [← hcrossing]
  refine ⟨?_, Assignment.borrowed_of_recorded h⟩
  have htally := Assignment.tally_of_recorded h {}
  simp only [Nat.zero_add] at htally
  exact htally

/-- A triangle on two hosts with a ceiling of two: its first edge fills host 0, its second overflows to host 1, and
its third runs between them.  An edge that ends at no node is refused in between. -/
theorem cut_eq_borrowed_eq_crossing_on_triangle :
    let start : Pool := ⟨#[{}, {}], 2.0, 2.0, 1.0, 0⟩
    let run := (ofPool 3 start).callAll true [(0, 1), (1, 2), (9, 0), (2, 0)]
    .error .overflow ∉ run.answers ∧
      run.placed.map Placement.rule = [.freshPair, .overflow, .crossHost] ∧
      run.placer.assignment.tally (run.placed.map fun x => (x.src, x.dst)) = .ok ⟨2, 3, 0⟩ ∧
      run.placer.assignment.borrowed 2 (run.placed.map Placement.placed) = .ok 2 := by
  intro start run
  have hfits : .error .overflow ∉ run.answers := by decide +kernel
  have hrules : run.placed.map Placement.rule = [.freshPair, .overflow, .crossHost] := by decide +kernel
  obtain ⟨htally, hborrowed⟩ := cut_eq_borrowed_eq_crossing 3 start true [(0, 1), (1, 2), (9, 0), (2, 0)] hfits
  have hcrossing : (run.placed.countP fun x => x.rule = .overflow ∨ x.rule = .crossHost) = 2 := by decide +kernel
  have hlength : run.placed.length = 3 := by decide +kernel
  refine ⟨hfits, hrules, ?_, ?_⟩
  · rw [← hcrossing, ← hlength]
    exact htally
  · exact hborrowed.trans (congrArg Except.ok hcrossing)

end EdgePlacer

end GraphPlacement
