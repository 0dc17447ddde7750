import GraphPlacement.Proofs.Capacity
import GraphPlacement.Proofs.Floats.Arithmetic
import GraphPlacement.Proofs.Ladder

/-!
# Pools that pass their check

**Two ways to reckon.** A ceiling is raised by one sum of floats after the other.  The check that a pool makes
on itself reckons with a product instead, and allows the two to differ by a millionth.  After many raises they
may differ by more; but a pool that was opened for a graph is not raised often before it has room.

**Shares.** Its first ceiling is an even share of the nodes at least, up to rounding.  While no more nodes are
counted than the graph has, some host has no more than an even share.  So if there is no room, what that host
has is hardly above the first ceiling (`Crowded.near`).

**Few raises.** All rungs that leave that host without room are then next to the first one, and so close to
each other that there are few of them (`Crowded.raises_le`).  For so few raises by so little, both ways to
reckon come to the same up to a millionth: `check_of_room`.
-/

namespace GraphPlacement.Pool

open Rounding

variable {p start : Pool} {ceiling rise : Float} {count raises j : Nat} {cfg : Config} {nodes : Nat}

/-! ## Rungs without room -/

/-- Whether a count has no room on any rung below a number of raises, but has room on that one, while it is hardly
above the first ceiling. -/
structure Crowded (ceiling rise : Float) (count raises : Nat) : Prop where
  isNumber_ceiling : IsNumber ceiling
  isNumber_rise : IsNumber rise
  isNumber_count : IsNumber count.toFloat
  full : ∀ j < raises, ¬count.toFloat < rung ceiling rise j
  room : count.toFloat < rung ceiling rise raises
  near : number count.toFloat ≤ number ceiling + 5 * (number ceiling / 2 ^ 51)
  large : 1 / 2 ≤ number ceiling
  small : number ceiling ≤ 2 ^ 100

namespace Crowded

theorem number_le (h : Crowded ceiling rise count raises) (hj : j < raises)
    (hrung : IsNumber (rung ceiling rise j)) :
    number (rung ceiling rise j) ≤ number ceiling + 5 * (number ceiling / 2 ^ 51) :=
  (not_lt.mp ((lt_iff_number h.isNumber_count hrung).not.mp (h.full j hj))).trans h.near

/-- The second rung is next to the first one, so the rise is very small. -/
theorem rise_le (h : Crowded ceiling rise count raises) (hraises : 1 < raises) :
    number rise ≤ 7 * (number ceiling / 2 ^ 51) := by
  have hrise := number_nonneg rise
  have hlarge := h.large
  have hrounded : IsRounded (number ceiling + number rise) (rung ceiling rise 1).toModel.unpack :=
    (roundsTo_add h.isNumber_ceiling h.isNumber_rise).isRounded_of_not_lt h.isNumber_count (h.full 1 hraises)
  have hle := h.number_le hraises hrounded.unsigned
  have hbelow : _ ≤ number (rung ceiling rise 1) := (hrounded.within (by linarith)).1
  linarith

/-- The next rung is what the sum is rounded to. -/
theorem isRounded_succ (h : Crowded ceiling rise count raises) (hraises : 1 < raises) (hj : j < raises)
    (hrung : IsNumber (rung ceiling rise j)) :
    IsRounded (number (rung ceiling rise j) + number rise) (rung ceiling rise (j + 1)).toModel.unpack := by
  have hle := h.number_le hj hrung
  have hrise := h.rise_le hraises
  have hsmall := h.small
  exact (roundsTo_add hrung h.isNumber_rise).isRounded_of_le (by linarith)

theorem rung_le_succ (h : Crowded ceiling rise count raises) (hraises : 1 < raises) (hj : j < raises)
    (hrung : IsNumber (rung ceiling rise j)) :
    number (rung ceiling rise j) ≤ number (rung ceiling rise (j + 1)) :=
  (h.isRounded_succ hraises hj hrung).le _ hrung (le_add_of_nonneg_right (number_nonneg rise))

/-- All rungs up to the one with room are next to the first one. -/
theorem rung_bounds (h : Crowded ceiling rise count raises) (hraises : 1 < raises) (hj : j ≤ raises) :
    IsNumber (rung ceiling rise j) ∧ number ceiling ≤ number (rung ceiling rise j) ∧
      number (rung ceiling rise j) ≤ number ceiling + 14 * (number ceiling / 2 ^ 51) := by
  have hlarge := h.large
  induction j with
  | zero => exact ⟨h.isNumber_ceiling, le_refl _, by rw [rung]; linarith⟩
  | succ j ih =>
      obtain ⟨hrung, hlow, -⟩ := ih (Nat.le_of_lt hj)
      have hrounded := h.isRounded_succ hraises hj hrung
      have hle := h.number_le hj hrung
      have hrise := h.rise_le hraises
      have hrise' := number_nonneg rise
      have habove : number (rung ceiling rise (j + 1)) ≤ _ := (hrounded.within (by linarith)).2
      exact ⟨hrounded.unsigned, hlow.trans (h.rung_le_succ hraises hj hrung), by linarith⟩

/-- A rung that equals the next one equals all that come later. -/
theorem rung_eq_of_stuck (hstuck : rung ceiling rise (j + 1) = rung ceiling rise j) (k : Nat) :
    rung ceiling rise (j + k) = rung ceiling rise j := by
  induction k with
  | zero => rfl
  | succ k ih =>
      rw [← Nat.add_assoc, rung, ih]
      exact hstuck

/-- Each rung without room is above the first one by a unit of that for each raise. -/
theorem units_le (h : Crowded ceiling rise count raises) (hraises : 1 < raises) (hj : j < raises) :
    number ceiling + j * (number ceiling / 2 ^ 53) ≤ number (rung ceiling rise j) := by
  have hlarge := h.large
  induction j with
  | zero => simp [rung]
  | succ j ih =>
      have hlast : j < raises := by omega
      obtain ⟨hrung, hlow, -⟩ := h.rung_bounds hraises hlast.le
      have hrounded := h.isRounded_succ hraises hlast hrung
      have hlt : number (rung ceiling rise j) < number (rung ceiling rise (j + 1)) := by
        refine lt_of_le_of_ne (h.rung_le_succ hraises hlast hrung) fun heq => h.full j hlast ?_
        -- if the two were equal, the rung with room would be equal to them
        have hstuck := (eq_of_number_eq hrung hrounded.unsigned (by linarith) heq).symm
        have hroom := h.room
        obtain ⟨k, rfl⟩ := Nat.exists_eq_add_of_lt hlast
        rwa [Nat.add_assoc, rung_eq_of_stuck hstuck] at hroom
      have hunit : number (rung ceiling rise j) + number (rung ceiling rise j) / 2 ^ 53 ≤
          number (rung ceiling rise (j + 1)) := succ_magnitude_le hrung hrounded.unsigned hlt
      have hearlier := ih hlast
      push_cast
      linarith

theorem raises_le (h : Crowded ceiling rise count raises) (hraises : 1 < raises) : raises ≤ 21 := by
  obtain ⟨last, rfl⟩ := Nat.exists_eq_add_of_lt hraises
  have hlarge := h.large
  have hlast : last + 1 < 1 + last + 1 := by omega
  have hunits := h.units_le hraises hlast
  have hle := h.number_le hlast (h.rung_bounds hraises hlast.le).1
  by_contra hmany
  have hmany : (21 : ℚ) ≤ last + 1 := by exact_mod_cast (show 21 ≤ last + 1 by omega)
  have hproduct : 21 * (number ceiling / 2 ^ 53) ≤ (last + 1) * (number ceiling / 2 ^ 53) :=
    mul_le_mul_of_nonneg_right hmany (by linarith)
  push_cast at hunits
  linarith

/-- The ceiling that is reckoned by a product is next to the first one as well. -/
theorem expected_bounds (h : Crowded ceiling rise count raises) (hraises : 1 < raises) :
    IsNumber (ceiling + rise * raises.toFloat) ∧ number ceiling ≤ number (ceiling + rise * raises.toFloat) ∧
      number (ceiling + rise * raises.toFloat) ≤ number ceiling + 160 * (number ceiling / 2 ^ 51) := by
  have hlarge := h.large
  have hsmall := h.small
  have hrise := h.rise_le hraises
  have hrise' := number_nonneg rise
  have hfew : (raises : ℚ) ≤ 21 := by exact_mod_cast h.raises_le hraises
  have hone : (1 : ℚ) ≤ raises := by exact_mod_cast hraises.le
  have htimes := (roundsTo_toFloat raises).isRounded_of_le (by linarith)
  have htimes_le : number raises.toFloat ≤ _ := (htimes.within (by linarith)).2
  have hproduct_le : number rise * number raises.toFloat ≤ 7 * (number ceiling / 2 ^ 51) * 22 :=
    mul_le_mul hrise (by linarith) (number_nonneg _) (by linarith)
  have hproduct := (roundsTo_mul h.isNumber_rise htimes.unsigned).isRounded_of_le (by linarith)
  have hproduct_near : number (rise * raises.toFloat) - _ ≤ _ := (abs_le.mp hproduct.near).2
  have hproduct_nonneg := number_nonneg (rise * raises.toFloat)
  have hsum := (roundsTo_add h.isNumber_ceiling hproduct.unsigned).isRounded_of_le (by linarith)
  have hsum_le : number (ceiling + rise * raises.toFloat) ≤ _ := (hsum.within (by linarith)).2
  refine ⟨hsum.unsigned, ?_, by linarith⟩
  exact hsum.le _ h.isNumber_ceiling (le_add_of_nonneg_right hproduct_nonneg)

end Crowded

/-! ## The check -/

theorem unpack_millionth :
    (1e-6 : Float).toModel.unpack = .finite .positive 4722366482869645 (-72) (by decide) := rfl

theorem unpack_one : (1.0 : Float).toModel.unpack = .finite .positive (2 ^ 52) (-52) (by decide) := rfl

theorem isNumber_one : IsNumber 1.0 := by
  rw [IsNumber, unpack_one]
  exact ⟨by decide, by decide, Or.inl (Nat.le_refl _)⟩

theorem number_one : number 1.0 = 1 := by
  rw [number, unpack_one, magnitude]
  norm_num

/-- A difference that is small beside the first ceiling is within the tolerance. -/
theorem not_tolerance_lt {distance : Float} (hexpected : IsNumber p.expectedCeiling)
    (hsmall : number p.expectedCeiling ≤ 2 ^ 101) (hdistance : IsNumber distance)
    (hnear : number distance ≤ number p.expectedCeiling / 10 ^ 7) : ¬p.tolerance < distance := by
  have hmillionth : IsNumber 1e-6 := by
    rw [IsNumber, unpack_millionth]
    exact ⟨by decide, by decide, Or.inl (by decide)⟩
  have hvalue : (9 : ℚ) / 10 ^ 7 ≤ number 1e-6 ∧ number 1e-6 ≤ 1 := by
    rw [number, unpack_millionth, magnitude]
    norm_num
  -- the tolerance is a part of what is expected, or of one if that is more
  obtain ⟨x, hx, hxe, hxone, hxsmall, htolerance⟩ : ∃ x, IsNumber x ∧ number p.expectedCeiling ≤ number x ∧
      1 ≤ number x ∧ number x ≤ 2 ^ 101 ∧ p.tolerance = 1e-6 * x := by
    unfold tolerance
    split
    case isTrue h =>
      have habove := (lt_iff_number isNumber_one hexpected).mp h
      rw [number_one] at habove
      exact ⟨_, hexpected, le_refl _, habove.le, hsmall, rfl⟩
    case isFalse h =>
      have hbelow := not_lt.mp ((lt_iff_number isNumber_one hexpected).not.mp h)
      rw [number_one] at hbelow
      exact ⟨_, isNumber_one, hbelow.trans_eq number_one.symm, number_one.ge, by rw [number_one]; norm_num, rfl⟩
  have hpart : 9 / 10 ^ 7 * number x ≤ number 1e-6 * number x :=
    mul_le_mul_of_nonneg_right hvalue.1 (number_nonneg x)
  have hpart_le : number 1e-6 * number x ≤ 1 * number x :=
    mul_le_mul_of_nonneg_right hvalue.2 (number_nonneg x)
  have hproduct := (roundsTo_mul hmillionth hx).isRounded_of_le (by linarith)
  have hproduct_near : _ ≤ number (1e-6 * x) - _ := (abs_le.mp hproduct.near).1
  rw [htolerance, lt_iff_number hproduct.unsigned hdistance]
  linarith

theorem Crowded.check (h : Crowded ceiling rise count p.raises) (hraises : 1 < p.raises)
    (hbase : p.base = ceiling) (hrise : p.rise = rise) (hceiling : p.ceiling = rung ceiling rise p.raises) :
    ¬p.tolerance < (p.ceiling - p.expectedCeiling).abs := by
  have hlarge := h.large
  have hsmall := h.small
  obtain ⟨hrung, hlow, hhigh⟩ := h.rung_bounds hraises (Nat.le_refl _)
  obtain ⟨hsum, hlow', hhigh'⟩ := h.expected_bounds hraises
  have hexpected : p.expectedCeiling = ceiling + rise * p.raises.toFloat := by rw [expectedCeiling, hbase, hrise]
  rw [← hceiling] at hrung hlow hhigh
  rw [← hexpected] at hsum hlow' hhigh'
  have hclose : |number p.ceiling - number p.expectedCeiling| ≤ 160 * (number ceiling / 2 ^ 51) :=
    abs_le.mpr ⟨by linarith, by linarith⟩
  have hdistance := (roundsTo_distance hrung hsum).isRounded_of_le (by linarith)
  have hdistance_near : number (p.ceiling - p.expectedCeiling).abs - _ ≤ _ := (abs_le.mp hdistance.near).2
  exact not_tolerance_lt hsum (by linarith) hdistance.unsigned (by linarith)

/-! ## Shares -/

/-- What each of some hosts holds is hardly above their even share of the nodes. -/
theorem count_near_share {hosts : Nat} (hcount : count ≠ 0) (hhosts : hosts ≠ 0) (hfits : count * hosts ≤ nodes)
    (hnodes : nodes < UInt64.size) : IsNumber (nodes.toFloat / hosts.toFloat) ∧
      number count.toFloat ≤ number (nodes.toFloat / hosts.toFloat) +
        5 * (number (nodes.toFloat / hosts.toFloat) / 2 ^ 51) ∧
      1 / 2 ≤ number (nodes.toFloat / hosts.toFloat) := by
  have hnodes : (nodes : ℚ) ≤ 2 ^ 64 := by exact_mod_cast hnodes.le
  have hfits : (count : ℚ) * hosts ≤ nodes := by exact_mod_cast hfits
  have hcount : (1 : ℚ) ≤ count := by exact_mod_cast Nat.one_le_iff_ne_zero.mpr hcount
  have hhosts : (1 : ℚ) ≤ hosts := by exact_mod_cast Nat.one_le_iff_ne_zero.mpr hhosts
  have hcount_le : (count : ℚ) ≤ nodes := le_trans (le_mul_of_one_le_right (by linarith) hhosts) hfits
  have hhosts_le : (hosts : ℚ) ≤ nodes := le_trans (le_mul_of_one_le_left (by linarith) hcount) hfits
  have hc := (roundsTo_toFloat count).isRounded_of_le (by linarith)
  have hn := (roundsTo_toFloat nodes).isRounded_of_le (by linarith)
  have hk := (roundsTo_toFloat hosts).isRounded_of_le (by linarith)
  obtain ⟨-, hc_le⟩ : _ ∧ number count.toFloat ≤ _ := hc.within (by linarith)
  obtain ⟨hn_ge, hn_le⟩ : _ ≤ number nodes.toFloat ∧ number nodes.toFloat ≤ _ := hn.within (by linarith)
  obtain ⟨hk_ge, hk_le⟩ : _ ≤ number hosts.toFloat ∧ number hosts.toFloat ≤ _ := hk.within (by linarith)
  have hk_pos : 0 < number hosts.toFloat := by linarith
  -- the quotient of the floats is an even share up to rounding, and a count is no more than that
  have hquotient : (count : ℚ) - 2 * (count / 2 ^ 51) ≤ number nodes.toFloat / number hosts.toFloat := by
    rw [le_div_iff₀ hk_pos]
    calc ((count : ℚ) - 2 * (count / 2 ^ 51)) * number hosts.toFloat
        ≤ (count - 2 * (count / 2 ^ 51)) * (hosts + hosts / 2 ^ 51) :=
          mul_le_mul_of_nonneg_left hk_le (by linarith)
      _ ≤ count * hosts - count * hosts / 2 ^ 51 := by nlinarith
      _ ≤ nodes - nodes / 2 ^ 51 := by linarith
      _ ≤ number nodes.toFloat := hn_ge
  have hquotient_le : number nodes.toFloat / number hosts.toFloat ≤ 2 ^ 200 := by
    rw [div_le_iff₀ hk_pos]
    nlinarith
  have hshare := (roundsTo_div hn.unsigned hk.unsigned (by linarith) hk_pos).isRounded_of_le hquotient_le
  have hshare_ge : _ ≤ number (nodes.toFloat / hosts.toFloat) := (hshare.within (by linarith)).1
  exact ⟨hshare.unsigned, by linarith, by linarith⟩

/-- A capacity is an even share at least. -/
theorem share_le_capacity (h : cfg.capacity nodes = .ok ceiling) (hfinite : ceiling.isFinite = true)
    (hshare : IsNumber (nodes.toFloat / cfg.hosts.toFloat)) :
    number (nodes.toFloat / cfg.hosts.toFloat) ≤ number ceiling := by
  obtain ⟨hvalid, -, rfl⟩ := Config.capacity_eq_ok.mp h
  obtain ⟨hslack, hslack'⟩ := Config.slack_in_range hvalid
  have hslack := isNumber_of_not_lt_zero hslack hslack'
  have hfactor : IsRounded (number 1.0 + number cfg.slack) (1.0 + cfg.slack).toModel.unpack := by
    refine (roundsTo_add isNumber_one hslack).resolve_right fun hinfinite => ?_
    rw [isFinite_mul_infinity hinfinite.2] at hfinite
    cases hfinite
  have hone : number 1.0 ≤ number (1.0 + cfg.slack) :=
    hfactor.le _ isNumber_one (le_add_of_nonneg_right (number_nonneg cfg.slack))
  rw [number_one] at hone
  have hproduct := (roundsTo_mul hshare hfactor.unsigned).isRounded_of_isFinite hfinite
  exact hproduct.le _ hshare (le_mul_of_one_le_right (number_nonneg _) hone)

/-! ## Pools of a configuration -/

theorem hosts_of_leads (h : Leads start p) : p.hosts = start.hosts := by
  induction h with
  | refl => rfl
  | tail _ hturn ih =>
      cases hturn with
      | count host nodes edges => rwa [hosts_gain]
      | raise => exact ih

/-- A pool with room has a least loaded host, which has room. -/
theorem exists_least (hroom : p.isFull = false) :
    ∃ least : Nat, least.toFloat < p.ceiling ∧ (∀ load ∈ p.loads, least ≤ load.nodes) ∧
      ∃ load ∈ p.loads, load.nodes = least := by
  obtain ⟨load, hload, hbelow⟩ := isFull_eq_false_iff.mp hroom
  obtain ⟨least, hleast, hmin⟩ := Finset.exists_min_image p.loads.toList.toFinset Load.nodes
    ⟨load, by simpa using hload⟩
  have hmin : ∀ load ∈ p.loads, least.nodes ≤ load.nodes := fun load hload => hmin load (by simpa using hload)
  exact ⟨least.nodes, toFloat_lt_of_le (hmin load hload) hbelow, hmin, least, by simpa using hleast, rfl⟩

/-- A host that holds nothing has room on the second rung, which is above zero. -/
theorem ne_zero_of_full (hceiling : IsNumber ceiling) (hrise : IsNumber rise) (hpos : 0 < number rise)
    (hcount : IsNumber count.toFloat) (hfull : ¬count.toFloat < rung ceiling rise 1) : count ≠ 0 := by
  rintro rfl
  have hsecond := (roundsTo_add hceiling hrise).isRounded_of_not_lt hcount hfull
  have hle := hsecond.le _ hrise (le_add_of_nonneg_left (number_nonneg ceiling))
  exact hfull ((lt_iff_number hcount hsecond.unsigned).mpr (lt_of_lt_of_le hpos hle))

/-- A pool of a configuration that has been raised more than once before it had room was crowded. -/
theorem exists_crowded (hstart : ofConfig cfg nodes = .ok start) (hnodes : nodes < UInt64.size)
    (hleads : Leads start p) (htotal : p.totalNodes ≤ nodes) (hroom : p.isFull = false) (hraises : 1 < p.raises) :
    ∃ count, Crowded start.base start.rise count p.raises := by
  obtain ⟨ceiling, hcapacity, hopen⟩ := Step.except_bind_eq_ok.mp hstart
  obtain ⟨rise, -, hopen⟩ := Step.except_bind_eq_ok.mp hopen
  have hladder := (onLadder_ofCeiling hopen).leads hleads
  have hhosts := hosts_of_leads hleads
  obtain ⟨⟨hsome, ⟨hfinite, hsign⟩, hrise, hrise'⟩, rfl⟩ := ofCeiling_eq_ok.mp hopen
  have hceiling := isNumber_of_not_lt_zero hfinite hsign
  obtain ⟨hrise, hrise_pos⟩ := number_pos_of_not_le_zero hrise hrise'
  obtain ⟨count, hbelow, hmin, load, hload, rfl⟩ := exists_least hroom
  have hfull (j : Nat) (hj : j < p.raises) : ¬load.nodes.toFloat < rung ceiling rise j :=
    hladder.full_below j hj load hload
  have hfits : load.nodes * cfg.hosts ≤ nodes := by
    have hmany := mul_hosts_le_totalNodes hmin
    rw [hhosts, hosts, Array.size_replicate] at hmany
    exact hmany.trans htotal
  have hwords : (load.nodes : ℚ) ≤ 2 ^ 64 := by
    have hle : load.nodes ≤ nodes := (Nat.le_mul_of_pos_right _ (Nat.pos_of_ne_zero hsome)).trans hfits
    exact_mod_cast hle.trans hnodes.le
  have hcount := (roundsTo_toFloat load.nodes).isRounded_of_le (by linarith)
  have hne := ne_zero_of_full hceiling hrise hrise_pos hcount.unsigned (hfull 1 hraises)
  obtain ⟨hshare, hnear, hlarge⟩ := count_near_share hne hsome hfits hnodes
  have hcapacity := share_le_capacity hcapacity hfinite hshare
  have hfirst : number ceiling ≤ number load.nodes.toFloat :=
    not_lt.mp ((lt_iff_number hcount.unsigned hceiling).not.mp (hfull 0 (by omega)))
  have hcount_near : number load.nodes.toFloat - _ ≤ _ := (abs_le.mp hcount.near).2
  exact ⟨load.nodes, hceiling, hrise, hcount.unsigned, hfull, hladder.ceiling_eq ▸ hbelow, by linarith,
    by linarith, by linarith⟩

/-- A ceiling under which there is room has not fallen below the first one. -/
theorem OnLadder.not_ceiling_lt (h : OnLadder ceiling rise p) (hroom : p.isFull = false) :
    ¬p.ceiling < p.base := by
  intro hlt
  obtain ⟨load, hload, hbelow⟩ := isFull_eq_false_iff.mp hroom
  rcases Nat.eq_zero_or_pos p.raises with hnone | hsome
  · rw [h.ceiling_eq, hnone, rung, h.base_eq] at hlt
    exact not_lt_of_lt hlt hlt
  · have hfull := h.full_below 0 hsome load hload
    rw [rung, ← h.base_eq] at hfull
    exact not_lt_of_lt hbelow (lt_of_lt_of_not_lt hlt (isNaN_of_lt hbelow).1 hfull)

/-- After one raise both ways to reckon come to the very same ceiling. -/
theorem OnLadder.expectedCeiling_eq (h : OnLadder ceiling rise p) (hrise : IsNumber rise) (hone : p.raises = 1) :
    p.expectedCeiling = p.ceiling := by
  rw [expectedCeiling, h.base_eq, h.rise_eq, h.ceiling_eq, hone, mul_one_toFloat hrise]
  rfl

/-- A ceiling that equals the expected one is within the tolerance, whatever it is. -/
theorem not_tolerance_lt_self (p : Pool) (ceiling : Float) : ¬p.tolerance < (ceiling - ceiling).abs := by
  intro hlt
  cases hfinite : ceiling.isFinite with
  | true => exact not_tolerance_lt_zero p (isZero_distance_self hfinite) hlt
  | false =>
      have hnumber := (isNaN_of_lt hlt).2
      rw [isNaN_distance_self hfinite] at hnumber
      cases hnumber

/-- **A pool with room passes its check**, if it was opened for a graph and no more nodes are counted than
this has. -/
theorem check_of_room (hstart : ofConfig cfg nodes = .ok start) (hnodes : nodes < UInt64.size)
    (hleads : Leads start p) (htotal : p.totalNodes ≤ nodes) (hroom : p.isFull = false) : p.check = .ok () := by
  obtain ⟨ceiling, rise, hopen⟩ := exists_ofCeiling hstart
  have hladder := (onLadder_ofCeiling hopen).leads hleads
  rcases Nat.lt_trichotomy p.raises 1 with hnone | hone | hmany
  · obtain ⟨⟨-, ⟨hceiling, -⟩, hrise, -⟩, -⟩ := ofCeiling_eq_ok.mp hopen
    exact hladder.check_eq_ok hceiling hrise (Nat.lt_one_iff.mp hnone)
  · obtain ⟨⟨-, -, hrise, hrise'⟩, -⟩ := ofCeiling_eq_ok.mp hopen
    refine (if_neg (hladder.not_ceiling_lt hroom)).trans (if_neg ?_)
    rw [hladder.expectedCeiling_eq (number_pos_of_not_le_zero hrise hrise').1 hone]
    exact not_tolerance_lt_self p p.ceiling
  · obtain ⟨count, hcrowded⟩ := exists_crowded hstart hnodes hleads htotal hroom hmany
    obtain ⟨-, rfl⟩ := ofCeiling_eq_ok.mp hopen
    refine (if_neg (hladder.not_ceiling_lt hroom)).trans (if_neg ?_)
    exact hcrowded.check hmany hladder.base_eq hladder.rise_eq hladder.ceiling_eq

end GraphPlacement.Pool
