import GraphPlacement.Proofs.Edges.Books
import GraphPlacement.Proofs.Floats.Counts
import GraphPlacement.Proofs.Ladder

/-!
# Ceilings with headroom

**Limit.** A ceiling is a float, but it is held against counts of nodes, so what matters of it is how many
counts are below it.  If that limit times the number of hosts exceeds the number of nodes, the hosts
cannot all have reached the ceiling (`Headroom.isFull_eq_false`): together they would have more nodes
than there are.

**Bound.** So the ceiling is never raised.  And a host that takes new nodes had room, which means less
than the limit, and takes two at most: no host ever has more than one node above the limit.
-/

namespace GraphPlacement

namespace EdgePlacer

variable {p : EdgePlacer} {src dst : Nat} {d : Decision} {ceiling : Float} {limit nodes hosts : Nat}

/-- Whether a placer is under its first ceiling, with no node counted that has no host. -/
structure Headroom (ceiling : Float) (limit nodes hosts : Nat) (p : EdgePlacer) : Prop where
  hostsExist : p.HostsExist
  counted : p.assignment.Counted
  size_eq : p.assignment.size = nodes
  hosts_eq : p.pool.hosts = hosts
  totalNodes_le : p.pool.totalNodes ≤ p.assignment.assigned
  ceiling_eq : p.pool.ceiling = ceiling
  raises_eq : p.pool.raises = 0
  nodes_le : ∀ load ∈ p.pool.loads, load.nodes ≤ limit + 1

section Fits

variable (hlimit : ∀ count : Nat, count.toFloat < ceiling ↔ count < limit)
variable (hfits : nodes < limit * hosts)
include hlimit hfits

/-- Some host has room, as long as not more nodes are counted than there are. -/
theorem isFull_eq_false_of_totalNodes_le {q : Pool} (hceiling : q.ceiling = ceiling)
    (hhosts : q.hosts = hosts) (htotal : q.totalNodes ≤ nodes) : q.isFull = false := by
  by_contra hfull
  rw [Pool.isFull_eq_false_iff, hceiling] at hfull
  have hreached : ∀ load ∈ q.loads, limit ≤ load.nodes := by
    intro load hload
    exact Nat.le_of_not_lt fun hlt => hfull ⟨load, hload, (hlimit load.nodes).mpr hlt⟩
  have hmany := Pool.mul_hosts_le_totalNodes hreached
  rw [hhosts] at hmany
  omega

theorem Headroom.raise_eq (h : Headroom ceiling limit nodes hosts p) : p.pool.raise = p.pool := by
  refine Pool.raise_of_not_isFull ?_
  refine isFull_eq_false_of_totalNodes_le hlimit hfits h.ceiling_eq h.hosts_eq (h.totalNodes_le.trans ?_)
  rw [← h.size_eq]
  exact h.counted.assigned_le_size

/-- What a decision has changed while it is carried out leaves headroom, however much of it has been counted. -/
theorem Headroom.partly (h : Headroom ceiling limit nodes hosts p) (hd : p.Decides src dst d)
    (hsrc : src < p.assignment.size) (hdst : dst < p.assignment.size) {gained : Nat}
    (hgained : gained ≤ d.fresh.length) (edges : Nat) :
    Headroom ceiling limit nodes hosts (p.partly d gained edges) := by
  -- there was room before, so the host was found without a raise
  have hpool : d.pool = p.pool := by
    rcases hd.pool_eq with heq | heq
    · exact heq
    · rw [heq, h.raise_eq hlimit hfits]
  refine ⟨h.hostsExist.partly hd hsrc hdst gained edges, h.counted.fillAll (hd.allEmpty hsrc hdst) d.host,
    (Assignment.size_fillAll d.fresh).trans h.size_eq, ?_, ?_, ?_, ?_, ?_⟩
  · exact (Pool.hosts_gain d.host gained edges d.pool).trans (hpool ▸ h.hosts_eq)
  · show (d.pool.gain d.host gained edges).totalNodes ≤ (p.assignment.fillAll d.fresh d.host).assigned
    rw [Pool.totalNodes_gain (hd.host_lt_pool h.hostsExist), Assignment.assigned_fillAll, hpool]
    exact Nat.add_le_add h.totalNodes_le hgained
  · exact (congrArg Pool.ceiling hpool).trans h.ceiling_eq
  · exact (congrArg Pool.raises hpool).trans h.raises_eq
  · intro load hload
    obtain ⟨host, hhost⟩ := Array.mem_iff_getElem?.mp hload
    rw [EdgePlacer.partly, Pool.loads_gain, hpool, Option.map_eq_some_iff] at hhost
    obtain ⟨before, hbefore, rfl⟩ := hhost
    have hsmall := h.nodes_le before (Array.mem_of_getElem? hbefore)
    show before.nodes + _ ≤ limit + 1
    split
    case isFalse => exact hsmall
    case isTrue heq =>
      subst heq
      by_cases hfresh : d.fresh = []
      · simp [hfresh] at hgained
        omega
      · -- a host that takes nodes was below the limit, and takes two at most
        have haccepts := hd.accepts hfresh
        rw [hpool, Pool.accepts?, hbefore, Option.map_some, Option.some.injEq,
          Pool.hasRoom_eq_true_iff, h.ceiling_eq, hlimit] at haccepts
        have htwo := hd.length_fresh_le
        omega

theorem Headroom.commit (h : Headroom ceiling limit nodes hosts p) (hd : p.Decides src dst d)
    (hsrc : src < p.assignment.size) (hdst : dst < p.assignment.size) :
    Headroom ceiling limit nodes hosts (p.commit d) := by
  -- all has been counted and there is room still, so that the raise at the end does nothing
  have hcounted := h.partly hlimit hfits hd hsrc hdst (Nat.le_refl _) 1
  have hpool : (p.commit d).pool = (p.partly d d.fresh.length 1).pool := by
    have hkept := hcounted.raise_eq hlimit hfits
    simp only [EdgePlacer.partly, Pool.gain_one] at hkept
    simp only [EdgePlacer.partly, EdgePlacer.commit, Pool.gain_one, hkept]
  refine ⟨h.hostsExist.commit hd hsrc hdst, hcounted.counted, hcounted.size_eq, ?_, ?_, ?_, ?_, ?_⟩ <;>
    rw [hpool]
  · exact hcounted.hosts_eq
  · exact hcounted.totalNodes_le
  · exact hcounted.ceiling_eq
  · exact hcounted.raises_eq
  · exact hcounted.nodes_le

theorem Headroom.call (h : Headroom ceiling limit nodes hosts p) (checked : Bool) (src dst : Nat) :
    Headroom ceiling limit nodes hosts (Step.after (call checked src dst p)) := by
  rcases after_call h.hostsExist checked src dst with
    heq | ⟨-, heq⟩ | ⟨d, hsrc, hdst, hd, heq | ⟨gained, hgained, edges, heq⟩⟩ <;> rw [heq]
  · exact h
  · rw [h.raise_eq hlimit hfits]
    exact h
  · exact h.commit hlimit hfits hd hsrc hdst
  · exact h.partly hlimit hfits hd hsrc hdst hgained edges

theorem Headroom.callAll (h : Headroom ceiling limit nodes hosts p) (checked : Bool)
    (edges : List (Nat × Nat)) : Headroom ceiling limit nodes hosts (p.callAll checked edges).placer :=
  callAll_keeps (fun src dst h => h.call hlimit hfits checked src dst) edges h

end Fits

theorem headroom_ofPool {rise : Float} {start : Pool}
    (hstart : Pool.ofCeiling hosts ceiling rise = .ok start) (limit nodes : Nat) :
    Headroom ceiling limit nodes hosts (ofPool nodes start) := by
  have hexist := hostsExist_ofPool nodes start
  have hcounted := Assignment.counted_ofSize nodes
  obtain ⟨-, rfl⟩ := Pool.ofCeiling_eq_ok.mp hstart
  refine ⟨hexist, hcounted, Assignment.size_ofSize nodes, ?_, ?_, rfl, rfl, ?_⟩
  · simp [ofPool, Pool.hosts]
  · show ((Array.replicate hosts ({} : Load)).toList.map Load.nodes).sum ≤ 0
    simp
  · intro load hload
    have hload : load ∈ Array.replicate hosts ({} : Load) := hload
    rw [Array.eq_of_mem_replicate hload]
    exact Nat.zero_le _

/-- **A ceiling with room for all nodes is never raised.**  A first ceiling sets a limit, which is how many
counts of nodes are below it.  If the hosts are empty and fewer nodes are to be placed than the limit
allows on all hosts together, then whatever calls are made, the ceiling stays as it is, and no host has
more than one node above the limit. -/
theorem ceiling_with_headroom_is_kept {hosts : Nat} {ceiling rise : Float} {start : Pool}
    (hstart : Pool.ofCeiling hosts ceiling rise = .ok start) :
    ∃ limit, (∀ count : Nat, count.toFloat < ceiling ↔ count < limit) ∧
      ∀ nodes < limit * hosts, ∀ (checked : Bool) (edges : List (Nat × Nat)),
        let p := ((ofPool nodes start).callAll checked edges).placer
        p.pool.raises = 0 ∧ p.pool.ceiling = ceiling ∧
          ∀ load ∈ p.pool.loads, load.nodes ≤ limit + 1 := by
  obtain ⟨limit, hlimit⟩ := Rounding.exists_limit ceiling
  refine ⟨limit, hlimit, fun nodes hfits checked edges => ?_⟩
  have h := (headroom_ofPool hstart limit nodes).callAll hlimit hfits checked edges
  exact ⟨h.raises_eq, h.ceiling_eq, h.nodes_le⟩

/-- Three hosts under a ceiling of one and a half take five nodes, and the last two of them go to a host
that has one already: the bound is reached. -/
theorem ceiling_with_headroom_is_kept_on_three_hosts :
    let start : Pool := ⟨Array.replicate 3 {}, 1.5, 1.5, 0.5, 0⟩
    let edges := [(0, 0), (1, 1), (5, 0), (2, 2), (3, 4), (4, 1)]
    let p := ((ofPool 5 start).callAll true edges).placer
    p.pool.raises = 0 ∧ (∀ load ∈ p.pool.loads, load.nodes ≤ 3) ∧ p.pool.loads[0]? = some ⟨3, 2⟩ := by
  intro start edges
  have hstart : Pool.ofCeiling 3 1.5 0.5 = .ok start :=
    Pool.ofCeiling_eq_ok.mpr ⟨by decide +kernel, rfl⟩
  obtain ⟨limit, hlimit, hkept⟩ := ceiling_with_headroom_is_kept hstart
  have htwo : limit = 2 := by
    have hone : (1 : Nat).toFloat < 1.5 ∧ ¬(2 : Nat).toFloat < 1.5 := by decide +kernel
    rw [hlimit, hlimit] at hone
    omega
  subst htwo
  obtain ⟨hraises, -, hnodes⟩ := hkept 5 (by decide) true edges
  refine ⟨hraises, hnodes, ?_⟩
  decide +kernel

end EdgePlacer

end GraphPlacement
