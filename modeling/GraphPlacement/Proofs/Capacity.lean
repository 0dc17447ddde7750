import GraphPlacement.Pool
import GraphPlacement.Proofs.Steps
import Mathlib.Logic.Basic

/-!
# What a configuration allows

**Shares.** A configuration without a fault has an even share, a capacity and a rise for every graph that
has nodes, and for no other.

**Opening a pool.** A pool looks at its numbers once more: not at those of the configuration, which have
been checked, but at the ceiling and the rise that are reckoned from them (`Pool.ofConfig_eq_error`).
-/

namespace GraphPlacement

variable {cfg : Config} {nodes : Nat} {x : Float} {fault : Fault}

namespace Config

theorem hosts_ne_zero (h : cfg.validate = .ok ()) : cfg.hosts ≠ 0 := by
  intro hzero
  rw [validate, if_pos hzero] at h
  cases h

theorem slack_in_range (h : cfg.validate = .ok ()) : cfg.slack.isFinite = true ∧ ¬cfg.slack < 0.0 := by
  by_cases hbad : (!cfg.slack.isFinite || cfg.slack < 0.0) = true
  · rw [validate, if_neg (hosts_ne_zero h), if_pos hbad] at h
    cases h
  · simpa using hbad

theorem evenShare_eq_ok : cfg.evenShare nodes = .ok x ↔
    cfg.validate = .ok () ∧ nodes ≠ 0 ∧ x = nodes.toFloat / cfg.hosts.toFloat := by
  unfold evenShare
  cases cfg.validate with
  | error fault => simp [bind, Except.bind]
  | ok _ => by_cases hnodes : nodes = 0 <;> simp [hnodes, bind, Except.bind, pure, Except.pure, eq_comm]

theorem capacity_eq_ok : cfg.capacity nodes = .ok x ↔ cfg.validate = .ok () ∧ nodes ≠ 0 ∧
    x = nodes.toFloat / cfg.hosts.toFloat * (1.0 + cfg.slack) := by
  rw [capacity, Step.except_bind_eq_ok]
  constructor
  · rintro ⟨share, hshare, h⟩
    cases h
    obtain ⟨hvalid, hnodes, rfl⟩ := evenShare_eq_ok.mp hshare
    exact ⟨hvalid, hnodes, rfl⟩
  · rintro ⟨hvalid, hnodes, rfl⟩
    exact ⟨_, evenShare_eq_ok.mpr ⟨hvalid, hnodes, rfl⟩, rfl⟩

theorem exists_capacity_iff : (∃ x, cfg.capacity nodes = .ok x) ↔ cfg.validate = .ok () ∧ nodes ≠ 0 := by
  simp [capacity_eq_ok]

/-- There is a rise where there is a capacity. -/
theorem exists_rise (h : cfg.capacity nodes = .ok x) : ∃ rise, cfg.rise nodes = .ok rise := by
  obtain ⟨hvalid, hnodes, -⟩ := capacity_eq_ok.mp h
  rw [rise, evenShare_eq_ok.mpr ⟨hvalid, hnodes, rfl⟩]
  exact ⟨_, rfl⟩

end Config

namespace Pool

/-- Whether a ceiling can be that of a pool. -/
def CeilingInRange (ceiling : Float) : Prop := ceiling.isFinite = true ∧ ¬ceiling < 0.0

/-- Whether a rise can be that of a pool. -/
def RiseInRange (rise : Float) : Prop := rise.isFinite = true ∧ ¬rise ≤ 0.0

/-- **A pool that cannot be opened** for a capacity that there is has a ceiling or a rise out of range. -/
theorem ofConfig_eq_error (hcapacity : cfg.capacity nodes = .ok x)
    (h : ofConfig cfg nodes = .error fault) : ∃ rise, cfg.rise nodes = .ok rise ∧
      ((fault = .badParameter .ceiling x ∧ ¬CeilingInRange x) ∨
        (fault = .badParameter .rise rise ∧ ¬RiseInRange rise)) := by
  obtain ⟨rise, hrise⟩ := Config.exists_rise hcapacity
  have hopen : ofConfig cfg nodes = ofCeiling cfg.hosts x rise := by
    rw [ofConfig, hcapacity, hrise]
    rfl
  refine ⟨rise, hrise, ?_⟩
  rw [hopen, ofCeiling, if_neg (Config.hosts_ne_zero (Config.capacity_eq_ok.mp hcapacity).1)] at h
  split at h
  case isTrue hbad =>
    cases h
    exact Or.inl ⟨rfl, by simpa [CeilingInRange, imp_iff_not_or] using hbad⟩
  case isFalse =>
    split at h
    case isTrue hbad =>
      cases h
      exact Or.inr ⟨rfl, by simpa [RiseInRange, imp_iff_not_or] using hbad⟩
    case isFalse => cases h

end Pool

end GraphPlacement
