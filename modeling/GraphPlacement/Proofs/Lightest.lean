import GraphPlacement.Proofs.Ceiling
import Mathlib.Data.Prod.Lex

/-!
# The lightest host and the ceiling in force

**Order of hosts.** Hosts are told apart by three keys that are compared one after the other: nodes, edges,
and the place of the host (`Load.keys`).  The search goes through the hosts in ascending order and changes its
mind only for a lighter load, so that the third key never has to be looked at.

**Choice.** What the search comes to is therefore the least host in this order among those that have room,
and nothing else is (`lightest?_eq_some_iff`).

**Ceiling in force.** A pool that is raised takes as many raises as it needs to have room, and not one more:
`risesTo_raise`.
-/

namespace GraphPlacement

/-- What a host is chosen by: fewest nodes, then fewest edges, then the lowest place. -/
def Load.keys (load : Load) (host : Nat) : ℕ ×ₗ ℕ ×ₗ ℕ :=
  toLex (load.nodes, toLex (load.edges, host))

/-- Of two hosts the later one comes first only if its load is lighter. -/
theorem Load.keys_lt_iff {a b : Load} {i j : Nat} (h : i < j) :
    b.keys j < a.keys i ↔ b.lighter a = true := by
  simp only [keys, lighter, Prod.Lex.toLex_lt_toLex, Bool.or_eq_true, Bool.and_eq_true, beq_iff_eq,
    decide_eq_true_eq]
  omega

namespace Pool

variable {p q : Pool} {host other : Nat}

/-! ## The order of hosts -/

/-- Whether a host has room, and no other host with room comes before it. -/
structure IsLightest (p : Pool) (host : Nat) : Prop where
  accepts : p.accepts? host = some true
  least : ∀ {load other load'}, p.loads[host]? = some load → p.loads[other]? = some load' →
    p.hasRoom load' = true → load.keys host ≤ load'.keys other

theorem IsLightest.unique (h : p.IsLightest host) (h' : p.IsLightest other) : host = other := by
  obtain ⟨load, hload, hroom⟩ := Option.map_eq_some_iff.mp h.accepts
  obtain ⟨load', hload', hroom'⟩ := Option.map_eq_some_iff.mp h'.accepts
  have heq : load.keys host = load'.keys other :=
    le_antisymm (h.least hload hload' hroom') (h'.least hload' hload hroom)
  exact (Prod.ext_iff.mp (congrArg ofLex (Prod.ext_iff.mp (congrArg ofLex heq)).2)).2

theorem candidates_ascending (p : Pool) : p.candidates.Pairwise fun x y => x.2 < y.2 := by
  have hindex : p.loads.toList.zipIdx.Pairwise fun x y => x.2 < y.2 := by
    rw [← List.pairwise_map (f := Prod.snd), List.zipIdx_map_snd]
    exact List.pairwise_lt_range'
  exact hindex.filter _

/-- Going through hosts in ascending order leaves the least of them. -/
theorem foldl_keepLighter_least {hosts : List (Load × Nat)} {b c : Load × Nat}
    (hasc : (b :: hosts).Pairwise fun x y => x.2 < y.2)
    (h : hosts.foldl keepLighter (some b) = some c) : ∀ x ∈ b :: hosts, c.1.keys c.2 ≤ x.1.keys x.2 := by
  induction hosts generalizing b with
  | nil =>
      cases h
      simp
  | cons host hosts ih =>
      obtain ⟨hbefore, hlater⟩ := List.pairwise_cons.mp hasc
      have hkeys := Load.keys_lt_iff (a := b.1) (b := host.1) (hbefore host List.mem_cons_self)
      rw [List.foldl_cons, keepLighter] at h
      by_cases hlight : host.1.lighter b.1 = true
      · rw [if_pos hlight] at h
        have hrest := ih hlater h
        refine List.forall_mem_cons.mpr ⟨?_, hrest⟩
        exact (hrest host List.mem_cons_self).trans (hkeys.mpr hlight).le
      · rw [if_neg hlight] at h
        have hrest := ih (List.pairwise_cons.mpr
          ⟨fun x hx => hbefore x (List.mem_cons_of_mem _ hx), (List.pairwise_cons.mp hlater).2⟩) h
        obtain ⟨hb, hhosts⟩ := List.forall_mem_cons.mp hrest
        refine List.forall_mem_cons.mpr ⟨hb, List.forall_mem_cons.mpr ⟨?_, hhosts⟩⟩
        exact hb.trans (le_of_not_gt (hkeys.not.mpr hlight))

theorem isLightest_of_lightest? (h : p.lightest? = some host) : p.IsLightest host := by
  refine ⟨accepts?_of_lightest? h, fun {load other load'} hload hload' hroom => ?_⟩
  obtain ⟨⟨chosen, host⟩, hfold, rfl⟩ := Option.map_eq_some_iff.mp h
  have hchosen := (mem_candidates.mp (mem_candidates_of_foldl hfold)).1
  obtain rfl : chosen = load := Option.some.inj (hchosen.symm.trans hload)
  have hmem : (load', other) ∈ p.candidates := mem_candidates.mpr ⟨hload', hroom⟩
  have hasc := p.candidates_ascending
  cases hcandidates : p.candidates with
  | nil => simp [hcandidates] at hmem
  | cons first hosts =>
      rw [hcandidates] at hmem hasc
      rw [hcandidates, List.foldl_cons, keepLighter] at hfold
      exact foldl_keepLighter_least hasc hfold _ hmem

/-- **The search finds the least host** among those that have room. -/
theorem lightest?_eq_some_iff : p.lightest? = some host ↔ p.IsLightest host := by
  refine ⟨isLightest_of_lightest?, fun h => ?_⟩
  obtain ⟨other, hlight⟩ := exists_lightest? (isFull_of_accepts? h.accepts)
  rw [hlight, (isLightest_of_lightest? hlight).unique h]

/-! ## The ceiling in force -/

/-- Whether a pool is another one raised as often as it takes to make room. -/
def RisesTo (p q : Pool) : Prop :=
  ∃ n, q = raiseOnce^[n] p ∧ q.isFull = false ∧ ∀ i < n, (raiseOnce^[i] p).isFull = true

theorem risesTo_raise (h : p.raise.isFull = false) : p.RisesTo p.raise := by
  obtain ⟨n, -, heq, hbefore, -⟩ := raiseWithin_eq_iterate raiseLimit p
  exact ⟨n, heq, h, hbefore⟩

end Pool

end GraphPlacement
