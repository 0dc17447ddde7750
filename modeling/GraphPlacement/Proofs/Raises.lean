import GraphPlacement.Proofs.Ladder
import GraphPlacement.Proofs.Lightest

/-!
# The fewest raises that make room

**Rises on top.** How often a pool has to be raised can be told without raising it: add the rise to its
ceiling, one addition after the other, and see whether a host would have room then (`RoomAfter`).  The sums
are sums of floats, so that twenty tenths come to more than two, where twenty times a tenth does not.

**Fewest.** Raising a pool takes the least number of such additions, however far the ceiling is below what
the hosts hold (`raise_eq_iterate`).  A pool that no number of additions helps is the one that is hopeless.

**Starting over.** A host can be looked for in a loop: if there is none, raise and look again
(`makeRoom_eq_retry`).  After a raise there is room, so the loop ends with the second look, and a second
raise has nothing to do: `room_is_made_by_fewest_raises`.
-/

namespace GraphPlacement.Pool

variable {p q : Pool} {n j : Nat}

/-! ## Room after raises -/

/-- Whether some host would have room under the ceiling with so many rises added to it. -/
def RoomAfter (p : Pool) (n : Nat) : Prop :=
  ∃ load ∈ p.loads, load.nodes.toFloat < rung p.ceiling p.rise n

instance (p : Pool) : DecidablePred p.RoomAfter := fun n =>
  inferInstanceAs (Decidable (∃ load ∈ p.loads, load.nodes.toFloat < rung p.ceiling p.rise n))

theorem rung_eq_iterate (ceiling rise : Float) (n : Nat) :
    rung ceiling rise n = (· + rise)^[n] ceiling := by
  induction n with
  | zero => rfl
  | succ n ih => rw [rung, ih, Function.iterate_succ_apply']

/-- Raises lift a pool from rung to rung, are counted, and leave all else as it is. -/
theorem raiseOnce_iterate_eq_rung (n : Nat) (p : Pool) :
    raiseOnce^[n] p = { p with ceiling := rung p.ceiling p.rise n, raises := p.raises + n } := by
  rw [raiseOnce_iterate, rung_eq_iterate]

theorem isFull_iterate_eq_false_iff : (raiseOnce^[n] p).isFull = false ↔ p.RoomAfter n := by
  rw [raiseOnce_iterate_eq_rung]
  exact isFull_eq_false_iff

theorem isFull_iterate_eq_true_iff : (raiseOnce^[n] p).isFull = true ↔ ¬p.RoomAfter n := by
  rw [← isFull_iterate_eq_false_iff, Bool.not_eq_false]

theorem hopeless_iff : p.Hopeless ↔ ∀ n, ¬p.RoomAfter n :=
  forall_congr' fun _ => isFull_iterate_eq_true_iff

theorem rung_of_lost_rise {ceiling rise : Float} (hlost : ceiling + rise = ceiling) (n : Nat) :
    rung ceiling rise n = ceiling := by
  induction n with
  | zero => rfl
  | succ n ih => rw [rung, ih, hlost]

/-- A full pool whose rise is lost when it is added to the ceiling is hopeless. -/
theorem hopeless_of_lost_rise (hlost : p.ceiling + p.rise = p.ceiling) (hfull : p.isFull = true) : p.Hopeless := by
  refine hopeless_iff.mpr fun n => ?_
  rintro ⟨load, hload, hbelow⟩
  rw [rung_of_lost_rise hlost] at hbelow
  rw [isFull_eq_false_iff.mpr ⟨load, hload, hbelow⟩] at hfull
  cases hfull

/-! ## The fewest raises -/

/-- A pool rises to where the fewest raises that make room lead. -/
theorem risesTo_iff : p.RisesTo q ↔ ∃ n, IsLeast {n | p.RoomAfter n} n ∧ q = raiseOnce^[n] p := by
  constructor
  · rintro ⟨n, rfl, hroom, hbefore⟩
    refine ⟨n, ⟨isFull_iterate_eq_false_iff.mp hroom, fun i hi => ?_⟩, rfl⟩
    exact Nat.le_of_not_lt fun hlt => isFull_iterate_eq_true_iff.mp (hbefore i hlt) hi
  · rintro ⟨n, ⟨hroom, hleast⟩, rfl⟩
    refine ⟨n, rfl, isFull_iterate_eq_false_iff.mpr hroom, fun i hlt => ?_⟩
    exact isFull_iterate_eq_true_iff.mpr fun hi => Nat.not_lt_of_le (hleast hi) hlt

/-- Raising does not give up where some number of raises makes room. -/
theorem isFull_raise_of_roomAfter (h : p.RoomAfter n) : p.raise.isFull = false :=
  Bool.eq_false_iff.mpr fun hfull => hopeless_iff.mp (hopeless_of_isFull_raise hfull) n h

theorem raise_eq_iterate (h : IsLeast {n | p.RoomAfter n} j) : p.raise = raiseOnce^[j] p := by
  obtain ⟨n, hn, heq⟩ := risesTo_iff.mp (risesTo_raise (isFull_raise_of_roomAfter h.1))
  rw [heq, hn.unique h]

/-- A pool is full if it takes a raise to make room. -/
theorem isFull_eq_decide (h : IsLeast {n | p.RoomAfter n} j) : p.isFull = decide (0 < j) := by
  have hfull : p.isFull = true ↔ ¬p.RoomAfter 0 := isFull_iterate_eq_true_iff (n := 0)
  have hpos : ¬p.RoomAfter 0 ↔ 0 < j := by
    constructor
    · intro hnone
      exact Nat.pos_of_ne_zero fun hzero => hnone (hzero ▸ h.1)
    · intro hpos hroom
      exact Nat.not_lt_of_le (h.2 hroom) hpos
  rw [Bool.eq_iff_iff, hfull, hpos, decide_eq_true_iff]

/-! ## Making room -/

theorem lightest?_eq_none_iff_accepts? :
    p.lightest? = none ↔ ∀ host, p.accepts? host ≠ some true := by
  rw [lightest?_eq_none_iff, ← Bool.not_eq_false, ← exists_accepts?_iff, not_exists]

/-- Making room is looking for a host and, if there is none, raising and starting over. -/
theorem makeRoom_eq_retry (p : Pool) :
    makeRoom p =
      match p.lightest? with
      | some host => .ok host p
      | none => (raiseIfFull >>= fun _ => makeRoom) p := by
  cases hlight : p.lightest? with
  | some host => simp only [makeRoom, hlight]
  | none =>
      cases hraised : raiseIfFull p with
      | ok answer raised =>
          obtain ⟨-, rfl, hroom⟩ := raiseIfFull_eq_ok.mp hraised
          obtain ⟨host, hfound⟩ := exists_lightest? hroom
          rw [Step.bind_of_ok hraised]
          simp only [makeRoom, hlight, hfound]
      | error fault raised =>
          obtain ⟨rfl, rfl, hfull⟩ := raiseIfFull_eq_error.mp hraised
          rw [Step.bind_of_error hraised]
          exact makeRoom_eq_error.mpr ⟨rfl, rfl, hfull⟩

/-- **Room is made by the fewest raises.**  No host is found if none has room, and otherwise the one that is
least by nodes, edges and place among those with room.  Add the rise to the ceiling until a host would have
room, and let `j` be the least number of additions that does it.  Raising if full makes that many raises,
counts them, tells whether there was any, and changes nothing else; done again at once, it does nothing.
Making room, which is a loop around that, leaves the pool in the same state, and comes to the host that is
found in it. -/
theorem room_is_made_by_fewest_raises (p : Pool) :
    (p.lightest? = none ↔ ∀ host, p.accepts? host ≠ some true) ∧
    (∀ host, p.lightest? = some host ↔ p.IsLightest host) ∧
    (makeRoom p = match p.lightest? with
      | some host => .ok host p
      | none => (raiseIfFull >>= fun _ => makeRoom) p) ∧
    ∀ j, IsLeast {n | p.RoomAfter n} j →
      let raised := raiseOnce^[j] p
      raised = { p with ceiling := rung p.ceiling p.rise j, raises := p.raises + j } ∧
      raiseIfFull p = .ok (decide (0 < j)) raised ∧
      raiseIfFull raised = .ok false raised ∧
      ∃ host, raised.lightest? = some host ∧ makeRoom p = .ok host raised := by
  refine ⟨lightest?_eq_none_iff_accepts?, fun host => lightest?_eq_some_iff, makeRoom_eq_retry p,
    fun j hj => ?_⟩
  intro raised
  have hraise : p.raise = raised := raise_eq_iterate hj
  have hroom : raised.isFull = false := isFull_iterate_eq_false_iff.mpr hj.1
  have hstill : raised.raise = raised := raise_of_not_isFull hroom
  refine ⟨raiseOnce_iterate_eq_rung j p, ?_, ?_, ?_⟩
  · exact raiseIfFull_eq_ok.mpr ⟨(isFull_eq_decide hj).symm, hraise.symm, hraise ▸ hroom⟩
  · exact raiseIfFull_eq_ok.mpr ⟨hroom.symm, hstill.symm, hstill.symm ▸ hroom⟩
  · obtain ⟨host, hlight⟩ := exists_lightest? hroom
    exact ⟨host, hlight, makeRoom_eq_ok.mpr ⟨hraise.symm, hraise ▸ hlight⟩⟩

/-- Four hosts under a ceiling of zero that rises by a tenth.  Hosts 1 and 3 hold the same, host 0 has more
edges, and host 2 has a node more, so that twenty raises leave no room on it. -/
theorem room_is_made_by_fewest_raises_on_four_hosts :
    let p : Pool := ⟨#[⟨2, 3⟩, ⟨2, 1⟩, ⟨3, 0⟩, ⟨2, 1⟩], 0.0, 0.0, 0.1, 0⟩
    let raised : Pool := { p with ceiling := rung 0.0 0.1 20, raises := 20 }
    IsLeast {n | p.RoomAfter n} 20 ∧ p.lightest? = none ∧
      raiseIfFull p = .ok true raised ∧ raiseIfFull raised = .ok false raised ∧
      makeRoom p = .ok 1 raised ∧ raised.IsLightest 1 := by
  intro p raised
  have hleast : IsLeast {n | p.RoomAfter n} 20 := by
    refine ⟨show p.RoomAfter 20 by decide +kernel, fun n hn => Nat.le_of_not_lt fun hlt => ?_⟩
    have hbelow : ∀ n < 20, ¬p.RoomAfter n := by decide +kernel
    exact hbelow n hlt hn
  obtain ⟨hnone, -, -, hraises⟩ := room_is_made_by_fewest_raises p
  obtain ⟨heq, hraised, hagain, host, hlight, hmade⟩ := hraises 20 hleast
  rw [show raiseOnce^[20] p = raised from heq] at hraised hagain hlight hmade
  have hone : raised.lightest? = some 1 := by decide +kernel
  obtain rfl : host = 1 := Option.some.inj (hlight.symm.trans hone)
  refine ⟨hleast, hnone.mpr fun host => ?_, hraised, hagain, hmade, lightest?_eq_some_iff.mp hlight⟩
  rcases Nat.lt_or_ge host 4 with hlt | hge
  · revert host
    decide +kernel
  · simp [accepts?, p, hge]

end GraphPlacement.Pool
