import GraphPlacement.Proofs.Groups.Choice
import Mathlib.Algebra.Order.BigOperators.Group.List
import Mathlib.Algebra.Order.Floor.Div

/-!
# Hosts that fill up evenly

**Balance.** Hosts are balanced if no two of their sizes differ by more than one.  Each size is then the even
share of all nodes, rounded down or up (`Balanced.eq_div_or_eq_ceilDiv`).

**Smallest first.** Where hosts are scored by their free shares alone, the host that is chosen is one of the
smallest (`size_choose_le`), whichever was drawn.  For this the free share has to fall with every node: it is
a float, and sizes far above the capacity could share one.  A host of smallest size that grows by a node
leaves the hosts balanced (`Balanced.grow`), and a node that comes again changes no size.
-/

namespace GraphPlacement

/-! ## Balanced sizes -/

/-- Whether no two sizes differ by more than one. -/
def Balanced (sizes : List Nat) : Prop := ∀ a ∈ sizes, ∀ b ∈ sizes, a ≤ b + 1

/-- Each of some balanced sizes is their average, rounded down or up. -/
theorem Balanced.eq_div_or_eq_ceilDiv {sizes : List Nat} (h : Balanced sizes) {a : Nat} (ha : a ∈ sizes) :
    a = sizes.sum / sizes.length ∨ a = sizes.sum ⌈/⌉ sizes.length := by
  have hothers := List.perm_cons_erase ha
  generalize sizes.erase a = others at hothers
  have hnear : ∀ b ∈ others, a ≤ b + 1 ∧ b ≤ a + 1 := by
    intro b hb
    have hmem : b ∈ sizes := hothers.mem_iff.mpr (List.mem_cons_of_mem _ hb)
    exact ⟨h a ha b hmem, h b hmem a ha⟩
  rw [hothers.sum_eq, hothers.length_eq, List.sum_cons, List.length_cons, Nat.ceilDiv_eq_add_pred_div]
  by_cases hleast : ∀ b ∈ others, a ≤ b
  · have hlow := List.card_nsmul_le_sum others a hleast
    have hhigh := List.sum_le_card_nsmul others (a + 1) fun b hb => (hnear b hb).2
    rw [smul_eq_mul] at hlow hhigh
    refine Or.inl (Nat.div_eq_of_lt_le ?_ ?_).symm
    · linarith
    · linarith
  · push Not at hleast
    obtain ⟨least, hleast, hlt⟩ := hleast
    have hgreatest : ∀ b ∈ others, b ≤ a := by
      intro b hb
      have hmem := h b (hothers.mem_iff.mpr (List.mem_cons_of_mem _ hb)) least
        (hothers.mem_iff.mpr (List.mem_cons_of_mem _ hleast))
      omega
    have hlow := List.card_nsmul_le_sum others (a - 1) fun b hb => Nat.sub_le_of_le_add (hnear b hb).1
    have hhigh := List.sum_le_card_nsmul others a hgreatest
    obtain ⟨m, rfl⟩ : ∃ m, a = m + 1 := ⟨a - 1, by omega⟩
    have htotal : m + 1 + others.sum + (others.length + 1) - 1 = m + 1 + others.sum + others.length := by
      omega
    rw [smul_eq_mul] at hlow hhigh
    rw [Nat.add_sub_cancel] at hlow
    rw [htotal]
    refine Or.inr (Nat.div_eq_of_lt_le ?_ ?_).symm
    · linarith
    · linarith

/-- A smallest one of some balanced sizes can grow by one. -/
theorem Balanced.grow {sizes : List Nat} (h : Balanced sizes) {host least : Nat}
    (hhost : sizes[host]? = some least) (hleast : ∀ a ∈ sizes, least ≤ a) :
    Balanced (sizes.modify host (· + 1)) := by
  have hbounds : ∀ a ∈ sizes.modify host (· + 1), least ≤ a ∧ a ≤ least + 1 := by
    intro a ha
    obtain ⟨i, hi⟩ := List.mem_iff_getElem?.mp ha
    rw [List.getElem?_modify] at hi
    obtain ⟨b, hb, rfl⟩ := Option.map_eq_some_iff.mp hi
    have hmem := List.mem_of_getElem? hb
    have hb' := h b hmem least (List.mem_of_getElem? hhost)
    have hb'' := hleast b hmem
    by_cases heq : host = i
    · subst heq
      obtain rfl := Option.some.inj (hhost.symm.trans hb)
      simp
    · simp only [if_neg heq]
      omega
  intro a ha b hb
  have ha' := hbounds a ha
  have hb' := hbounds b hb
  omega

namespace GroupPlacer

variable {σ : Type} {p q : GroupPlacer σ} {g : Group} {host limit : Nat} {neighbours : NodeSet}

/-! ## The smallest host -/

/-- Whether the free share falls with every node, for all sizes below a limit. -/
def ShareFalls (capacity : Float) (limit : Nat) : Prop :=
  ∀ s t, s < t → t < limit → freeShare t capacity < freeShare s capacity

theorem ShareFalls.lt_iff {capacity : Float} (h : ShareFalls capacity limit) {s t : Nat} (hs : s < limit)
    (ht : t < limit) : freeShare t capacity < freeShare s capacity ↔ s < t := by
  refine ⟨fun hlt => lt_of_not_ge fun hle => ?_, fun hlt => h s t hlt ht⟩
  rcases hle.lt_or_eq with hless | rfl
  · exact Rounding.not_lt_of_lt hlt (h t s hless hs)
  · exact Rounding.not_lt_of_lt hlt hlt

theorem length_sizes (p : GroupPlacer σ) : p.outcome.sizes.length = p.hosts := by
  rw [outcome, List.length_map, Array.length_toList, hosts]

theorem getElem?_sizes (h : host < p.hosts) : p.outcome.sizes[host]? = some (p.held.getD host ∅).size := by
  have hheld : p.held[host]? = some p.held[host] := Array.getElem?_eq_getElem h
  rw [outcome, List.getElem?_map, Array.getElem?_toList, Array.getD_eq_getD_getElem?, hheld]
  rfl

variable [Random.Source σ]

/-- **The host that is chosen is a smallest one**, if hosts are scored by their free shares. -/
theorem size_choose_le (hbalance : p.strategy = .balance) (hpos : 0 < p.hosts)
    (hshare : ShareFalls p.capacity limit) (hlimit : ∀ size ∈ p.outcome.sizes, size < limit)
    (neighbours : NodeSet) : ∃ least, p.outcome.sizes[(p.choose neighbours).1]? = some least ∧
      ∀ size ∈ p.outcome.sizes, least ≤ size := by
  have hsize : ∀ host < p.hosts, (p.held.getD host ∅).size < limit := fun host hhost =>
    hlimit _ (List.mem_of_getElem? (getElem?_sizes hhost))
  have hscores := scoreAll_of_pure (scoreOf_balance hbalance neighbours)
    (scoringOrder p.hosts p.draw.1) p.draw.2
  have hwins := wins_choose (fun host => OrderDual.toDual (p.held.getD host ∅).size) hpos hscores
    fun a ha b hb => hshare.lt_iff (hsize b hb) (hsize a ha)
  refine ⟨_, getElem?_sizes hwins.lt, fun size hmem => ?_⟩
  obtain ⟨host, hhost⟩ := List.mem_iff_getElem?.mp hmem
  have hlt : host < p.hosts := length_sizes p ▸ (List.getElem?_eq_some_iff.mp hhost).1
  obtain rfl := Option.some.inj ((getElem?_sizes hlt).symm.trans hhost)
  exact OrderDual.toDual_le_toDual.mp (hwins.highest host hlt)

/-! ## One group -/

/-- A group whose node is new makes the host that it is placed on larger by one. -/
theorem Books.sizes_place (hp : p.Books) (hnode : p.assignment.host? g.node = none)
    (h : GroupPlacer.place g p = .ok host q) :
    q.outcome.sizes = p.outcome.sizes.modify host (· + 1) := by
  rcases place_cases h with ⟨hhost, -⟩ | ⟨-, rfl, rfl⟩
  · rw [hnode] at hhost
    cases hhost
  refine List.ext_getElem? fun other => ?_
  simp only [outcome, List.getElem?_map, List.getElem?_modify, Array.getElem?_toList, Array.getElem?_modify]
  by_cases hother : (p.choose g.neighbours).1 = other
  · cases hheld : p.held[other]? with
    | none => simp
    | some held =>
        have hnew : held.contains g.node = false := by
          refine Bool.eq_false_iff.mpr fun hmem => ?_
          rw [(hp.held other held hheld g.node).mp (Std.ExtTreeSet.mem_iff_contains.mpr hmem)] at hnode
          cases hnode
        simp [hother, Std.ExtTreeSet.size_insert, hnew]
  · simp [hother]

/-- **One group** keeps the hosts balanced. -/
theorem Books.balanced_place (hp : p.Books) (hbalance : p.strategy = .balance)
    (hshare : ShareFalls p.capacity limit) (hlimit : ∀ size ∈ p.outcome.sizes, size < limit)
    (h : Balanced p.outcome.sizes) (hplace : GroupPlacer.place g p = .ok host q) :
    Balanced q.outcome.sizes := by
  rcases place_cases hplace with ⟨-, rfl⟩ | ⟨hnode, hhost, -⟩
  · exact h
  · rw [hp.sizes_place hnode hplace, hhost]
    obtain ⟨least, hleast, hle⟩ := size_choose_le hbalance hp.sound.hosts_pos hshare hlimit g.neighbours
    exact h.grow hleast hle

/-- A size after one group is at most one more than a size before. -/
theorem Books.exists_of_mem_sizes_place (hp : p.Books) (hplace : GroupPlacer.place g p = .ok host q)
    {size : Nat} (hsize : size ∈ q.outcome.sizes) : ∃ before ∈ p.outcome.sizes, size ≤ before + 1 := by
  rcases place_cases hplace with ⟨-, rfl⟩ | ⟨hnode, -, -⟩
  · exact ⟨size, hsize, Nat.le_succ size⟩
  · rw [hp.sizes_place hnode hplace] at hsize
    obtain ⟨i, hi⟩ := List.mem_iff_getElem?.mp hsize
    rw [List.getElem?_modify] at hi
    obtain ⟨before, hbefore, rfl⟩ := Option.map_eq_some_iff.mp hi
    refine ⟨before, List.mem_of_getElem? hbefore, ?_⟩
    split <;> omega

/-! ## All groups -/

/-- **All groups** keep the hosts balanced, if the free share falls as far as their sizes can grow. -/
theorem Books.balanced_placeAll {groups : List Group} {hosts : List Nat} (hp : p.Books)
    (hbalance : p.strategy = .balance) (hshare : ShareFalls p.capacity limit)
    (hlimit : ∀ size ∈ p.outcome.sizes, size + groups.length ≤ limit) (h : Balanced p.outcome.sizes)
    (hall : GroupPlacer.placeAll groups p = .ok hosts q) : Balanced q.outcome.sizes := by
  induction groups generalizing p hosts with
  | nil =>
      cases hall
      exact h
  | cons g groups ih =>
      obtain ⟨host, m, later, hplace, hlater, rfl⟩ := placeAll_cons_eq_ok.mp hall
      rw [List.length_cons] at hlimit
      refine ih (hp.placed hplace).1 ((strategy_place hplace).trans hbalance) ?_ ?_ ?_ hlater
      · rwa [capacity_place hplace]
      · intro size hsize
        obtain ⟨before, hbefore, hle⟩ := hp.exists_of_mem_sizes_place hplace hsize
        have hroom := hlimit before hbefore
        omega
      · refine hp.balanced_place hbalance hshare (fun size hsize => ?_) h hplace
        have hroom := hlimit size hsize
        omega

/-- **Scoring by free shares keeps the hosts balanced.**  Let groups be placed from any start by a strategy
that scores hosts by their free shares alone, with any source of random numbers, and let the free share of a
host fall with every node up to the number of groups.  Let no group be that of the last word, for which there
is no slot.  Then after each of the groups no two hosts differ by more than one node: each of them has the
number of different nodes placed so far divided by the number of hosts, rounded down or up. -/
theorem free_shares_keep_hosts_balanced {cfg : Config} {nodes : Nat} {source : σ}
    (hstart : start cfg nodes source = .ok p) (hbalance : cfg.strategy = .balance) (groups : List Group)
    (hfits : ∀ g ∈ groups, g.node + 1 < UInt64.size)
    (hshare : ∀ s t, s < t → t < groups.length → freeShare t p.capacity < freeShare s p.capacity) :
    ∀ done, done <+: groups → ∃ hosts q, placeAll done p = .ok hosts q ∧
      let placed := (done.map Group.node).toFinset.card
      q.outcome.sizes.length = cfg.hosts ∧
      (∀ a ∈ q.outcome.sizes, ∀ b ∈ q.outcome.sizes, a ≤ b + 1) ∧
      ∀ size ∈ q.outcome.sizes, size = placed / cfg.hosts ∨ size = placed ⌈/⌉ cfg.hosts := by
  intro done hdone
  have hbooks := books_of_start hstart
  obtain ⟨-, hhosts, -⟩ := start_eq_ok hstart
  obtain ⟨hosts, q, hall, hq, -⟩ := hbooks.placeAll fun g hg => hfits g (hdone.subset hg)
  obtain ⟨hstrategy, hempty⟩ : p.strategy = cfg.strategy ∧ ∀ size ∈ p.outcome.sizes, size = 0 := by
    obtain ⟨capacity, -, rfl⟩ := eq_of_start hstart
    refine ⟨rfl, fun size hsize => ?_⟩
    simp only [outcome, Array.toList_replicate, List.map_replicate, Std.ExtTreeSet.size_empty] at hsize
    exact List.eq_of_mem_replicate hsize
  have hbalanced : Balanced q.outcome.sizes := by
    refine hbooks.balanced_placeAll (hstrategy.trans hbalance) hshare (fun size hsize => ?_) ?_ hall
    · rw [hempty size hsize, Nat.zero_add]
      exact hdone.length_le
    · intro a ha b hb
      rw [hempty a ha]
      omega
  have hlength : q.outcome.sizes.length = cfg.hosts := by
    rw [length_sizes, (hbooks.sound.placeAll hall).hosts_eq, hhosts]
  refine ⟨hosts, q, hall, hlength, hbalanced, fun size hsize => ?_⟩
  have hshares := hbalanced.eq_div_or_eq_ceilDiv hsize
  rwa [hlength, hq.sum_sizes, hq.sound.counted,
    Assignment.length_pairs_eq_card (assigned_iff_of_start hstart hall)] at hshares

/-- Seven groups with six nodes on four hosts: each host gets one node or two. -/
theorem free_shares_keep_hosts_balanced_on_four_hosts :
    ∃ p hosts q, start { hosts := 4, strategy := .balance } 7 (⟨7, 0x6000000000000000⟩ : Random.Counter) = .ok p ∧
      placeAll [.ofList 4 [0], .ofList 0 [4], .ofList 1 [0, 2], .ofList 4 [], .ofList 9 [], .ofList 2 [1],
        .ofList 3 []] p = .ok hosts q ∧
      q.outcome.sizes.length = 4 ∧ ∀ size ∈ q.outcome.sizes, size = 1 ∨ size = 2 := by
  have hstarts : (start { hosts := 4, strategy := .balance } 7
      (⟨7, 0x6000000000000000⟩ : Random.Counter)).isOk = true := by decide +kernel
  cases hstart : start { hosts := 4, strategy := .balance } 7 (⟨7, 0x6000000000000000⟩ : Random.Counter) with
  | error fault =>
      rw [hstart] at hstarts
      cases hstarts
  | ok p =>
      have hfalls : ∀ t < 7, ∀ s < t, freeShare t p.capacity < freeShare s p.capacity := by
        obtain ⟨capacity, hcapacity, rfl⟩ := eq_of_start hstart
        obtain ⟨-, -, rfl⟩ := Config.capacity_eq_ok.mp hcapacity
        decide +kernel
      obtain ⟨hosts, q, hall, hlength, -, hsizes⟩ := free_shares_keep_hosts_balanced hstart rfl
        [.ofList 4 [0], .ofList 0 [4], .ofList 1 [0, 2], .ofList 4 [], .ofList 9 [], .ofList 2 [1], .ofList 3 []]
        (by decide) (fun s t hst ht => hfalls t ht s hst) _ List.prefix_rfl
      exact ⟨p, hosts, q, rfl, hall, hlength, hsizes⟩

/-- The last word is not placed, so that the only host there is does not get the only node. -/
theorem free_shares_leave_last_word_out :
    ∃ p, start { hosts := 1, strategy := .balance } 1 (⟨7, 0x6000000000000000⟩ : Random.Counter) = .ok p ∧
      let groups : List Group := [.ofList 18446744073709551615 []]
      (∀ s t, s < t → t < groups.length → freeShare t p.capacity < freeShare s p.capacity) ∧
      Step.outcome (placeAll groups p) = .error .overflow ∧
      (groups.map Group.node).toFinset.card = 1 ∧ (Step.after (placeAll groups p)).outcome.sizes = [0] := by
  have hstarts : (start { hosts := 1, strategy := .balance } 1
      (⟨7, 0x6000000000000000⟩ : Random.Counter)).isOk = true := by decide +kernel
  cases hstart : start { hosts := 1, strategy := .balance } 1 (⟨7, 0x6000000000000000⟩ : Random.Counter) with
  | error fault =>
      rw [hstart] at hstarts
      cases hstarts
  | ok p =>
      refine ⟨p, rfl, fun s t hst ht => ?_, ?_⟩
      · exact absurd (Nat.lt_of_lt_of_le hst (Nat.le_of_lt_succ ht)) (Nat.not_lt_zero s)
      · obtain ⟨capacity, hcapacity, rfl⟩ := eq_of_start hstart
        obtain ⟨-, -, rfl⟩ := Config.capacity_eq_ok.mp hcapacity
        decide +kernel

end GroupPlacer

end GraphPlacement
