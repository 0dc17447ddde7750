import GraphPlacement.Pool
import Mathlib.Data.Finset.Card
import Mathlib.Logic.Function.Iterate

/-!
# Ceilings and room

**Hopeless pools.** `Pool.raise` gives up after a fixed number of raises, which is one for every value
that a ceiling can take.  So if it leaves a pool full, the ceilings have begun to repeat, and no further
raise will ever make room: `hopeless_of_isFull_raise`.

**Choice.** The lightest host is one that has room (`accepts?_of_lightest?`), and there is one exactly
when the pool is not full (`lightest?_eq_none_iff`).  With that, making room is raising first and choosing
afterwards, whether a raise was needed or not: `makeRoom_eq_ok`.
-/

namespace GraphPlacement

/-! ## Floats are finitely many -/

theorem Float.toBits_injective : Function.Injective Float.toBits := by
  rintro ⟨⟨x, hx⟩⟩ ⟨⟨y, hy⟩⟩ h
  cases show x = y from h
  rfl

/-- A property that holds along as many repetitions as there are floats holds along all of them. -/
theorem iterate_of_le_size {f : Float → Float} {x : Float} {P : Float → Prop}
    (h : ∀ i ≤ UInt64.size, P (f^[i] x)) (n : Nat) : P (f^[n] x) := by
  have hmaps : Set.MapsTo (fun i => (f^[i] x).toBits.toNat)
      (Finset.range (UInt64.size + 1)) (Finset.range UInt64.size) := by
    intro i _
    exact Finset.mem_coe.mpr (Finset.mem_range.mpr (f^[i] x).toBits.toNat_lt)
  have hcard : (Finset.range UInt64.size).card < (Finset.range (UInt64.size + 1)).card := by
    rw [Finset.card_range, Finset.card_range]
    exact Nat.lt_succ_self _
  obtain ⟨a, ha, b, hb, hne, hbits⟩ :=
    Finset.exists_ne_map_eq_of_card_lt_of_maps_to hcard hmaps
  have heq : f^[a] x = f^[b] x := Float.toBits_injective (UInt64.toNat_inj.mp hbits)
  obtain ⟨i, j, hij, hj, hrepeat⟩ : ∃ i j, i < j ∧ j ≤ UInt64.size ∧ f^[i] x = f^[j] x := by
    have ha' := Finset.mem_range.mp ha
    have hb' := Finset.mem_range.mp hb
    rcases Nat.lt_or_gt_of_ne hne with hlt | hlt
    · exact ⟨a, b, hlt, by omega, heq⟩
    · exact ⟨b, a, hlt, by omega, heq.symm⟩
  -- past the second of two equal values, step back by the distance between them
  induction n using Nat.strong_induction_on with
  | _ n ih =>
      rcases Nat.lt_or_ge UInt64.size n with hn | hn
      · have hback : f^[n] x = f^[n - j + i] x := by
          rw [Function.iterate_add_apply, hrepeat, ← Function.iterate_add_apply,
            Nat.sub_add_cancel (by omega)]
        rw [hback]
        exact ih _ (by omega)
      · exact h n hn

namespace Pool

variable {p q : Pool} {host : Nat} {fault : Fault}

/-! ## Raising -/

theorem raiseOnce_iterate (n : Nat) (p : Pool) :
    raiseOnce^[n] p = { p with ceiling := (· + p.rise)^[n] p.ceiling, raises := p.raises + n } := by
  induction n with
  | zero => rfl
  | succ n ih =>
      rw [Function.iterate_succ_apply', ih, raiseOnce, Function.iterate_succ_apply', Nat.add_assoc]

/-- Whether no number of raises makes room. -/
def Hopeless (p : Pool) : Prop := ∀ n, (raiseOnce^[n] p).isFull = true

/-- Raising with a limit is some number of raises, each of them of a full pool; it stops short of the
limit only when there is room. -/
theorem raiseWithin_eq_iterate (limit : Nat) (p : Pool) :
    ∃ n ≤ limit, raiseWithin limit p = raiseOnce^[n] p ∧
      (∀ i < n, (raiseOnce^[i] p).isFull = true) ∧
      (n < limit → (raiseOnce^[n] p).isFull = false) := by
  induction limit generalizing p with
  | zero => exact ⟨0, Nat.le_refl 0, rfl, by simp, by simp⟩
  | succ limit ih =>
      cases hfull : p.isFull with
      | false => exact ⟨0, Nat.zero_le _, by simp [raiseWithin, hfull], by simp, fun _ => hfull⟩
      | true =>
          obtain ⟨n, hn, heq, hbefore, hroom⟩ := ih p.raiseOnce
          refine ⟨n + 1, by omega, ?_, ?_, ?_⟩
          · rw [raiseWithin, if_pos hfull, heq, Function.iterate_succ_apply]
          · intro i hi
            cases i with
            | zero => exact hfull
            | succ i =>
                rw [Function.iterate_succ_apply]
                exact hbefore i (by omega)
          · intro hlt
            rw [Function.iterate_succ_apply]
            exact hroom (by omega)

/-- A pool that raising leaves full stays full however often it is raised. -/
theorem hopeless_of_isFull_raise (h : p.raise.isFull = true) : p.Hopeless := by
  obtain ⟨n, hn, heq, hbefore, hroom⟩ := raiseWithin_eq_iterate raiseLimit p
  have hlimit : n = raiseLimit := by
    refine Nat.le_antisymm hn (Nat.le_of_not_lt fun hlt => ?_)
    rw [raise, heq, hroom hlt] at h
    cases h
  have hsmall : ∀ i ≤ UInt64.size, (raiseOnce^[i] p).isFull = true := by
    intro i hi
    rcases Nat.lt_or_eq_of_le (show i ≤ n from hlimit ▸ hi) with hlt | rfl
    · exact hbefore i hlt
    · rw [← heq]
      exact h
  -- whether a pool is full does not depend on the count of raises, so the ceiling decides
  have hceiling : ∀ i,
      (raiseOnce^[i] p).isFull = { p with ceiling := (· + p.rise)^[i] p.ceiling }.isFull := by
    intro i
    rw [raiseOnce_iterate]
    rfl
  intro i
  rw [hceiling]
  refine iterate_of_le_size (P := fun c => { p with ceiling := c }.isFull = true) ?_ i
  intro j hj
  rw [← hceiling]
  exact hsmall j hj

theorem Hopeless.isFull_raise (h : p.Hopeless) : p.raise.isFull = true := by
  obtain ⟨n, -, heq, -, -⟩ := raiseWithin_eq_iterate raiseLimit p
  rw [raise, heq]
  exact h n

theorem Hopeless.raise (h : p.Hopeless) : p.raise.Hopeless := by
  obtain ⟨n, -, heq, -, -⟩ := raiseWithin_eq_iterate raiseLimit p
  intro i
  rw [Pool.raise, heq, ← Function.iterate_add_apply]
  exact h (i + n)

theorem hopeless_raise (h : p.raise.isFull = true) : p.raise.Hopeless :=
  (hopeless_of_isFull_raise h).raise

@[simp] theorem hosts_raise (p : Pool) : p.raise.hosts = p.hosts := by simp [hosts]

/-! ## Choosing a host -/

theorem isFull_eq_true_iff : p.isFull = true ↔ ∀ load ∈ p.loads, p.hasRoom load = false := by
  rw [isFull, Array.all_eq_true']
  simp

theorem mem_candidates {load : Load} :
    (load, host) ∈ p.candidates ↔ p.loads[host]? = some load ∧ p.hasRoom load = true := by
  simp [candidates, List.mk_mem_zipIdx_iff_getElem?]

theorem candidates_eq_nil_iff : p.candidates = [] ↔ p.isFull = true := by
  rw [isFull_eq_true_iff, List.eq_nil_iff_forall_not_mem]
  constructor
  · intro h load hload
    obtain ⟨host, hhost⟩ := Array.mem_iff_getElem?.mp hload
    refine Bool.eq_false_iff.mpr fun hroom => h (load, host) ?_
    exact mem_candidates.mpr ⟨hhost, hroom⟩
  · rintro h ⟨load, host⟩ hmem
    obtain ⟨hhost, hroom⟩ := mem_candidates.mp hmem
    rw [h load (Array.mem_of_getElem? hhost)] at hroom
    cases hroom

/-- Going through some hosts keeps one of them, or the one there was. -/
theorem foldl_keepLighter (hosts : List (Load × Nat)) (b : Load × Nat) :
    ∃ c, hosts.foldl keepLighter (some b) = some c ∧ (c = b ∨ c ∈ hosts) := by
  induction hosts generalizing b with
  | nil => exact ⟨b, rfl, Or.inl rfl⟩
  | cons host hosts ih =>
      simp only [List.foldl_cons, keepLighter]
      split
      · obtain ⟨c, hc, hmem⟩ := ih host
        exact ⟨c, hc, Or.inr (List.mem_cons.mpr hmem)⟩
      · obtain ⟨c, hc, hmem⟩ := ih b
        exact ⟨c, hc, hmem.imp id (List.mem_cons_of_mem _)⟩

theorem lightest?_eq_none_iff : p.lightest? = none ↔ p.isFull = true := by
  rw [← candidates_eq_nil_iff, lightest?, Option.map_eq_none_iff]
  cases h : p.candidates with
  | nil => simp
  | cons host hosts =>
      obtain ⟨c, hc, -⟩ := foldl_keepLighter hosts host
      simp [keepLighter, hc]

theorem exists_lightest? (h : p.isFull = false) : ∃ host, p.lightest? = some host := by
  refine Option.ne_none_iff_exists'.mp fun hnone => ?_
  rw [lightest?_eq_none_iff.mp hnone] at h
  cases h

/-- What the search comes to is one of the hosts it goes through. -/
theorem mem_candidates_of_foldl {c : Load × Nat} (h : p.candidates.foldl keepLighter none = some c) :
    c ∈ p.candidates := by
  cases hcandidates : p.candidates with
  | nil => simp [hcandidates] at h
  | cons host hosts =>
      obtain ⟨c', hc', hmem⟩ := foldl_keepLighter hosts host
      rw [hcandidates, List.foldl_cons, keepLighter, hc', Option.some.injEq] at h
      exact h ▸ List.mem_cons.mpr hmem

theorem accepts?_of_lightest? (h : p.lightest? = some host) : p.accepts? host = some true := by
  obtain ⟨⟨load, other⟩, hfold, rfl⟩ := Option.map_eq_some_iff.mp h
  obtain ⟨hload, hroom⟩ := mem_candidates.mp (mem_candidates_of_foldl hfold)
  simp [accepts?, hload, hroom]

/-- A pool with room, or one that never will have any, is not raised to find a host. -/
theorem raise_eq_self (hopeless : p.isFull = true → p.Hopeless) (hlight : p.raise.lightest? = some host) :
    p.raise = p := by
  cases hfull : p.isFull with
  | false => exact raise_of_not_isFull hfull
  | true =>
      rw [lightest?_eq_none_iff.mpr (hopeless hfull).isFull_raise] at hlight
      cases hlight

theorem isFull_of_accepts? (h : p.accepts? host = some true) : p.isFull = false := by
  obtain ⟨load, hload, hroom⟩ := Option.map_eq_some_iff.mp h
  refine Bool.eq_false_iff.mpr fun hfull => ?_
  rw [isFull_eq_true_iff.mp hfull load (Array.mem_of_getElem? hload)] at hroom
  cases hroom

/-- A host has room exactly when the pool is not full. -/
theorem exists_accepts?_iff : (∃ host, p.accepts? host = some true) ↔ p.isFull = false := by
  constructor
  · rintro ⟨host, hroom⟩
    exact isFull_of_accepts? hroom
  · intro h
    obtain ⟨host, hlight⟩ := exists_lightest? h
    exact ⟨host, accepts?_of_lightest? hlight⟩

theorem lt_hosts_of_accepts? {answer : Bool} (h : p.accepts? host = some answer) :
    host < p.hosts := by
  obtain ⟨load, hload, -⟩ := Option.map_eq_some_iff.mp h
  exact (Array.getElem?_eq_some_iff.mp hload).1

theorem accepts?_of_lt_hosts (h : host < p.hosts) : ∃ answer, p.accepts? host = some answer := by
  have hlt : host < p.loads.size := h
  simp [accepts?, hlt]

/-! ## Making room -/

/-- Making room is raising and then choosing the lightest host. -/
theorem makeRoom_eq_ok :
    makeRoom p = .ok host q ↔ q = p.raise ∧ p.raise.lightest? = some host := by
  unfold makeRoom
  cases h : p.lightest? with
  | some other =>
      have hroom : p.raise = p := raise_of_not_isFull (isFull_of_accepts? (accepts?_of_lightest? h))
      simp [hroom, h, and_comm, eq_comm]
  | none =>
      cases hraised : p.raise.lightest? with
      | some other => simp [hraised, and_comm, eq_comm]
      | none => simp [hraised]

/-- It fails only if the pool is still full after all raises. -/
theorem makeRoom_eq_error :
    makeRoom p = .error fault q ↔ fault = .neverRoom ∧ q = p.raise ∧ p.raise.isFull = true := by
  unfold makeRoom
  cases h : p.lightest? with
  | some other =>
      have hroom := isFull_of_accepts? (accepts?_of_lightest? h)
      simp [raise_of_not_isFull hroom, hroom]
  | none =>
      rw [← lightest?_eq_none_iff]
      cases hraised : p.raise.lightest? with
      | some other => simp [hraised]
      | none => simp [hraised, eq_comm]

theorem raiseIfFull_eq_ok {answer : Bool} :
    raiseIfFull p = .ok answer q ↔ answer = p.isFull ∧ q = p.raise ∧ p.raise.isFull = false := by
  cases h : p.raise.isFull <;> simp [raiseIfFull, h, eq_comm]

theorem raiseIfFull_eq_error :
    raiseIfFull p = .error fault q ↔ fault = .neverRoom ∧ q = p.raise ∧ p.raise.isFull = true := by
  cases h : p.raise.isFull <;> simp [raiseIfFull, h, eq_comm]

end Pool

end GraphPlacement
