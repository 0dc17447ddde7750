import GraphPlacement.Proofs.Floats.Order
import GraphPlacement.Proofs.Groups.Books
import GraphPlacement.Proofs.NodeSets
import GraphPlacement.Random.Counter

/-!
# Which host is chosen

**Scores first.** The search for a host takes the score of one host after the other and draws random numbers
on the way.  It comes to the same as taking all scores beforehand, in the same order from the same source, and
looking through them afterwards (`exists_scores`, `foldl_visit_eq`).

**First best.** Looking through hosts for a strictly higher score leaves the first one of those that score
highest (`firstBest_foldl`).  The hosts come in the order in which they are scored, which is the one that was
drawn and then the others ascending.  So the one that was drawn wins every tie that it is part of, and the
lowest host wins the others: `FirstBest.wins`.

**Order of scores.** All of this needs scores that are ordered like keys in a linear order.  Floats are, unless
one of them is not a number (`Rounding.lt_iff_height`).
-/

namespace GraphPlacement.GroupPlacer

variable {α : Type} [LinearOrder α] {key : Nat → α} {order others : List Nat} {best seed hosts : Nat}

/-! ## The first of the best -/

/-- The later one of two hosts if it scores strictly higher, and else the earlier one. -/
def better (score : Nat → Float) (best host : Nat) : Nat := if score host > score best then host else best

/-- Whether a host is the first one in some order of those with the highest key. -/
def FirstBest (key : Nat → α) (order : List Nat) (best : Nat) : Prop :=
  ∃ before after, order = before ++ best :: after ∧ (∀ h ∈ before, key h < key best) ∧
    ∀ h ∈ after, key h ≤ key best

theorem FirstBest.le (h : FirstBest key order best) : ∀ host ∈ order, key host ≤ key best := by
  obtain ⟨before, after, rfl, hbefore, hafter⟩ := h
  intro host hhost
  rcases List.mem_append.mp hhost with hhost | hhost
  · exact (hbefore host hhost).le
  · rcases List.mem_cons.mp hhost with rfl | hhost
    · exact le_rfl
    · exact hafter host hhost

/-- A host in front of all others that is below the best of them is not chosen. -/
theorem FirstBest.cons (h : FirstBest key order best) {host : Nat} (hlt : key host < key best) :
    FirstBest key (host :: order) best := by
  obtain ⟨before, after, rfl, hbefore, hafter⟩ := h
  exact ⟨host :: before, after, rfl, List.forall_mem_cons.mpr ⟨hlt, hbefore⟩, hafter⟩

/-- A host right after the first one that is not above it is not chosen. -/
theorem FirstBest.insert {first host : Nat} (h : FirstBest key (first :: order) best)
    (hle : key host ≤ key first) : FirstBest key (first :: host :: order) best := by
  have hfirst := h.le first List.mem_cons_self
  obtain ⟨before, after, heq, hbefore, hafter⟩ := h
  rcases List.cons_eq_append_iff.mp heq with ⟨rfl, htail⟩ | ⟨between, rfl, rfl⟩
  · obtain ⟨rfl, rfl⟩ := List.cons.inj htail
    exact ⟨[], host :: after, rfl, by simp, List.forall_mem_cons.mpr ⟨hle, hafter⟩⟩
  · obtain ⟨hlt, hbetween⟩ := List.forall_mem_cons.mp hbefore
    refine ⟨first :: host :: between, after, rfl, ?_, hafter⟩
    exact List.forall_mem_cons.mpr ⟨hlt, List.forall_mem_cons.mpr ⟨hle.trans_lt hlt, hbetween⟩⟩

/-- **Looking through hosts** for strictly higher scores leaves the first one of those that score highest. -/
theorem firstBest_foldl {score : Nat → Float}
    (hkey : ∀ a ∈ best :: others, ∀ b ∈ best :: others, score a < score b ↔ key a < key b) :
    FirstBest key (best :: others) (others.foldl (better score) best) := by
  induction others generalizing best with
  | nil => exact ⟨[], [], rfl, by simp, by simp⟩
  | cons host others ih =>
      have hhost : score best < score host ↔ key best < key host := hkey best (by simp) host (by simp)
      rw [List.foldl_cons, better]
      by_cases hlt : score best < score host
      · rw [if_pos hlt]
        have hrest := ih fun a ha b hb => hkey a (List.mem_cons_of_mem _ ha) b (List.mem_cons_of_mem _ hb)
        exact hrest.cons ((hhost.mp hlt).trans_le (hrest.le host List.mem_cons_self))
      · rw [if_neg hlt]
        have hsub : ∀ a ∈ best :: others, a ∈ best :: host :: others := by
          intro a ha
          rcases List.mem_cons.mp ha with rfl | ha <;> simp [*]
        have hrest := ih fun a ha b hb => hkey a (hsub a ha) b (hsub b hb)
        exact hrest.insert (not_lt.mp (hhost.not.mp hlt))

/-! ## The order of the hosts -/

/-- The order in which hosts are scored: the one that was drawn, and the others ascending. -/
def scoringOrder (hosts seed : Nat) : List Nat := seed :: (List.range hosts).filter (· ≠ seed)

@[simp] theorem mem_scoringOrder (hseed : seed < hosts) {host : Nat} :
    host ∈ scoringOrder hosts seed ↔ host < hosts := by
  by_cases heq : host = seed
  · simp [scoringOrder, heq, hseed]
  · simp [scoringOrder, heq]

theorem nodup_scoringOrder (hosts seed : Nat) : (scoringOrder hosts seed).Nodup := by
  refine List.nodup_cons.mpr ⟨by simp, ?_⟩
  exact List.nodup_range.filter _

/-- Whether a host wins over all others: its key is the highest, and of several with the highest key it is the
one that was drawn or, if that is none of them, the lowest. -/
structure Wins (key : Nat → α) (hosts seed best : Nat) : Prop where
  lt : best < hosts
  highest : ∀ host < hosts, key host ≤ key best
  tie : best = seed ∨ key seed < key best ∧ ∀ host < best, key host < key best

theorem FirstBest.wins (hseed : seed < hosts) (h : FirstBest key (scoringOrder hosts seed) best) :
    Wins key hosts seed best := by
  have hle := h.le
  obtain ⟨before, after, heq, hbefore, hafter⟩ := h
  have hbest : best < hosts := (mem_scoringOrder hseed).mp (heq ▸ by simp)
  refine ⟨hbest, fun host hhost => hle host ((mem_scoringOrder hseed).mpr hhost), ?_⟩
  rcases List.cons_eq_append_iff.mp heq with ⟨rfl, htail⟩ | ⟨between, rfl, htail⟩
  · exact Or.inl (List.cons.inj htail).1
  · obtain ⟨hlt, hbetween⟩ := List.forall_mem_cons.mp hbefore
    refine Or.inr ⟨hlt, fun host hhost => ?_⟩
    -- the others ascend, so a host below the best one does not come after it
    have hasc : (between ++ best :: after).Pairwise (· < ·) := htail ▸ List.pairwise_lt_range.filter _
    have hmem : host ∈ seed :: between ++ best :: after :=
      heq ▸ (mem_scoringOrder hseed).mpr (hhost.trans hbest)
    rcases List.mem_append.mp hmem with hhost' | hhost'
    · exact hbefore host hhost'
    · have hlater := (List.pairwise_cons.mp (List.pairwise_append.mp hasc).2.1).1
      rcases List.mem_cons.mp hhost' with rfl | hhost'
      · exact absurd hhost (lt_irrefl _)
      · exact absurd hhost (not_lt_of_gt (hlater host hhost'))

/-- What winning means for scores that are ordered like the keys. -/
theorem Wins.of_scores {score : Nat → Float} (h : Wins key hosts seed best) (hseed : seed < hosts)
    (hkey : ∀ a < hosts, ∀ b < hosts, score a < score b ↔ key a < key b) :
    ((∀ host < hosts, ¬score seed < score host) → best = seed) ∧
      ((∃ host < hosts, score seed < score host) →
        (∀ host < hosts, ¬score best < score host) ∧ ∀ host < best, score host < score best) := by
  refine ⟨fun hnone => ?_, fun hsome => ?_⟩
  · refine h.tie.resolve_right fun htie => hnone best h.lt ?_
    exact (hkey seed hseed best h.lt).mpr htie.1
  · obtain ⟨higher, hhigher, hlt⟩ := hsome
    have hne : best ≠ seed := by
      rintro rfl
      exact not_lt_of_ge (h.highest higher hhigher) ((hkey best hseed higher hhigher).mp hlt)
    refine ⟨fun host hhost => ?_, fun host hhost => ?_⟩
    · rw [hkey best h.lt host hhost]
      exact not_lt_of_ge (h.highest host hhost)
    · exact (hkey host (hhost.trans h.lt) best h.lt).mpr ((h.tie.resolve_left hne).2 host hhost)

/-! ## Scores first -/

section Scores

variable {σ : Type} {p : GroupPlacer σ} {neighbours : NodeSet} {score : Nat → Float}

theorem getD_of_nodesOf {host : Nat} {held : NodeSet} (h : p.nodesOf host = .ok held) :
    p.held.getD host ∅ = held := by
  rw [Array.getD_eq_getD_getElem?, nodesOf_eq_ok.mp h, Option.getD_some]

variable [Random.Source σ]

/-- The scores of some hosts, each from the source that the one before has left. -/
def scoreAll (p : GroupPlacer σ) (neighbours : NodeSet) (hosts : List Nat) : StateM σ (List Float) :=
  hosts.mapM (p.scoreOf neighbours)

theorem scoreAll_cons (p : GroupPlacer σ) (neighbours : NodeSet) (host : Nat) (hosts : List Nat) (s : σ) :
    p.scoreAll neighbours (host :: hosts) s =
      ((p.scoreOf neighbours host s).1 :: (p.scoreAll neighbours hosts (p.scoreOf neighbours host s).2).1,
        (p.scoreAll neighbours hosts (p.scoreOf neighbours host s).2).2) := by
  rw [scoreAll, List.mapM_cons]
  rfl

/-- Each of some different hosts has the score that was taken for it. -/
theorem exists_scores (p : GroupPlacer σ) (neighbours : NodeSet) {hosts : List Nat} (hnodup : hosts.Nodup)
    (s : σ) : ∃ score after, p.scoreAll neighbours hosts s = (hosts.map score, after) := by
  induction hosts generalizing s with
  | nil => exact ⟨fun _ => 0, s, rfl⟩
  | cons host hosts ih =>
      obtain ⟨hnew, hnodup⟩ := List.nodup_cons.mp hnodup
      obtain ⟨score, after, hscores⟩ := ih hnodup (p.scoreOf neighbours host s).2
      refine ⟨Function.update score host (p.scoreOf neighbours host s).1, after, ?_⟩
      have hsame : hosts.map (Function.update score host (p.scoreOf neighbours host s).1) = hosts.map score :=
        List.map_congr_left fun other hother => Function.update_of_ne (ne_of_mem_of_not_mem hother hnew) _ _
      rw [scoreAll_cons, hscores, List.map_cons, Function.update_self, hsame]

/-- Scores that draw no random numbers are the same in whichever order they are taken. -/
theorem scoreAll_of_pure (h : ∀ host s, p.scoreOf neighbours host s = (score host, s)) (hosts : List Nat)
    (s : σ) : p.scoreAll neighbours hosts s = (hosts.map score, s) := by
  induction hosts with
  | nil => rfl
  | cons host hosts ih => rw [scoreAll_cons, h, ih, List.map_cons]

/-- Searching on while scores are taken is looking through them afterwards. -/
theorem foldl_visit_eq {hosts : List Nat} (search : Search σ) {after : σ}
    (hscores : p.scoreAll neighbours hosts search.source = (hosts.map score, after))
    (hbest : search.score = score search.best) :
    hosts.foldl (Search.visit p neighbours) search =
      ⟨hosts.foldl (better score) search.best, score (hosts.foldl (better score) search.best), after⟩ := by
  induction hosts generalizing search with
  | nil =>
      obtain ⟨best, found, source⟩ := search
      obtain rfl : found = score best := hbest
      cases hscores
      rfl
  | cons host hosts ih =>
      rw [scoreAll_cons] at hscores
      obtain ⟨hfirst, hafter⟩ := Prod.ext_iff.mp hscores
      obtain ⟨hhost, hlater⟩ := List.cons.inj hfirst
      have hvisit : search.visit p neighbours host =
          ⟨better score search.best host, score (better score search.best host),
            (p.scoreOf neighbours host search.source).2⟩ := by
        simp only [Search.visit, better, hhost, hbest]
        split
        · rfl
        · rw [← hbest]
      rw [List.foldl_cons, hvisit, List.foldl_cons]
      exact ih _ (Prod.ext hlater hafter) rfl

/-- The host that is drawn before any score is taken, and the source after the draw. -/
def draw (p : GroupPlacer σ) : Nat × σ := Random.below p.hosts p.source

/-- **The choice** looks through the scores in the scoring order. -/
theorem choose_eq {after : σ} (hscores : p.scoreAll neighbours (scoringOrder p.hosts p.draw.1) p.draw.2 =
      ((scoringOrder p.hosts p.draw.1).map score, after)) :
    p.choose neighbours =
      (((List.range p.hosts).filter (· ≠ p.draw.1)).foldl (better score) p.draw.1, after) := by
  rw [scoringOrder, scoreAll_cons] at hscores
  obtain ⟨hfirst, hafter⟩ := Prod.ext_iff.mp hscores
  obtain ⟨hseed, hlater⟩ := List.cons.inj hfirst
  have hsearch : p.seedSearch neighbours =
      ⟨p.draw.1, score p.draw.1, (p.scoreOf neighbours p.draw.1 p.draw.2).2⟩ := by
    rw [← hseed]
    rfl
  rw [choose, hsearch]
  simp only [foldl_visit_eq ⟨p.draw.1, score p.draw.1, (p.scoreOf neighbours p.draw.1 p.draw.2).2⟩
    (Prod.ext hlater hafter) rfl]

/-- The host that is chosen wins, if the scores are ordered like some keys. -/
theorem wins_choose (key : Nat → α) (hpos : 0 < p.hosts) {after : σ}
    (hscores : p.scoreAll neighbours (scoringOrder p.hosts p.draw.1) p.draw.2 =
      ((scoringOrder p.hosts p.draw.1).map score, after))
    (hkey : ∀ a < p.hosts, ∀ b < p.hosts, score a < score b ↔ key a < key b) :
    Wins key p.hosts p.draw.1 (p.choose neighbours).1 := by
  have hseed : p.draw.1 < p.hosts := Random.below_lt hpos p.source
  rw [choose_eq hscores]
  refine FirstBest.wins hseed (firstBest_foldl fun a ha b hb => hkey a ?_ b ?_)
  · exact (mem_scoringOrder hseed).mp ha
  · exact (mem_scoringOrder hseed).mp hb

/-! ## The two strategies without chance -/

theorem scoreOf_affinity (h : p.strategy = .affinity) (neighbours : NodeSet) (host : Nat) (s : σ) :
    p.scoreOf neighbours host s =
      ((p.held.getD host ∅ ∩ neighbours).size.toFloat * freeShare (p.held.getD host ∅).size p.capacity, s) := by
  rw [scoreOf, h, Strategy.score, overlap_eq_size_inter]

theorem scoreOf_balance (h : p.strategy = .balance) (neighbours : NodeSet) (host : Nat) (s : σ) :
    p.scoreOf neighbours host s = (freeShare (p.held.getD host ∅).size p.capacity, s) := by
  rw [scoreOf, h, Strategy.score]

/-- Scores that draw no random numbers are those that were taken. -/
theorem eq_of_scoreAll {hosts : Nat} {seed : Nat} (hseed : seed < hosts) {expected : Nat → Float} {s after : σ}
    (hpure : ∀ host s, p.scoreOf neighbours host s = (expected host, s))
    (hscores : p.scoreAll neighbours (scoringOrder hosts seed) s = ((scoringOrder hosts seed).map score, after)) :
    after = s ∧ ∀ host < hosts, score host = expected host := by
  rw [scoreAll_of_pure hpure] at hscores
  obtain ⟨hsame, hafter⟩ := Prod.ext_iff.mp hscores
  refine ⟨hafter.symm, fun host hhost => ?_⟩
  exact (List.map_inj_left.mp hsame host ((mem_scoringOrder hseed).mpr hhost)).symm

/-- A score above zero is that of a host that holds a neighbour. -/
theorem exists_mem_of_pos {held : NodeSet} {share : Float}
    (hpos : 0.0 < (held ∩ neighbours).size.toFloat * share) : ∃ v ∈ held, v ∈ neighbours := by
  by_contra hnone
  have hempty : held ∩ neighbours = ∅ :=
    Std.ExtTreeSet.ext_mem fun v => by simpa using fun hv hv' => hnone ⟨v, hv, hv'⟩
  rw [hempty, Std.ExtTreeSet.size_empty] at hpos
  exact Rounding.not_pos_zero_mul share hpos

/-! ## The choice -/

/-- **The choice goes to the first of the best.**  A host is drawn, and then the hosts are scored, the drawn
one first and the others ascending, each with the random numbers that the one before has left.  The strategy
that weighs neighbours gives the number of neighbours held times the free share, the one that weighs none the
free share, and neither draws any more.  Nothing but the source is changed by the choice.  If all scores are
numbers, the drawn host is chosen unless another one scores strictly higher, and otherwise the lowest one of
those that score highest.  So if some host scores above zero for its neighbours, the chosen one holds one. -/
theorem choice_goes_to_first_of_best (p : GroupPlacer σ) (hpos : 0 < p.hosts) (g : Group) :
    let seed := (Random.below p.hosts p.source).1
    let drawn := (Random.below p.hosts p.source).2
    let order := seed :: (List.range p.hosts).filter (· ≠ seed)
    ∃ score after host, p.scoreAll g.neighbours order drawn = (order.map score, after) ∧
      consider g p = .ok host { p with source := after } ∧ host < p.hosts ∧
      (p.strategy = .affinity → after = drawn ∧ ∀ h < p.hosts, ∃ held, p.nodesOf h = .ok held ∧
        score h = (held ∩ g.neighbours).size.toFloat * (1.0 - held.size.toFloat / p.capacity)) ∧
      (p.strategy = .balance → after = drawn ∧ ∀ h < p.hosts, ∃ held, p.nodesOf h = .ok held ∧
        score h = 1.0 - held.size.toFloat / p.capacity) ∧
      ((∀ h < p.hosts, (score h).isNaN = false) →
        ((∀ h < p.hosts, ¬score seed < score h) → host = seed) ∧
        ((∃ h < p.hosts, score seed < score h) →
          (∀ h < p.hosts, ¬score host < score h) ∧ ∀ h < host, score h < score host) ∧
        (p.strategy = .affinity → (∃ h < p.hosts, 0.0 < score h) →
          ∃ held, p.nodesOf host = .ok held ∧ ∃ v ∈ held, v ∈ g.neighbours)) := by
  intro seed drawn order
  have hseed : seed < p.hosts := Random.below_lt hpos p.source
  obtain ⟨score, after, hscores⟩ := p.exists_scores g.neighbours (nodup_scoringOrder p.hosts seed) drawn
  have hchoose := choose_eq (p := p) hscores
  have haffinity := fun h => eq_of_scoreAll hseed (scoreOf_affinity (p := p) h g.neighbours) hscores
  have hbalance := fun h => eq_of_scoreAll hseed (scoreOf_balance (p := p) h g.neighbours) hscores
  have hlt := choose_lt hpos g.neighbours
  refine ⟨score, after, (p.choose g.neighbours).1, hscores, ?_, hlt, fun h => ?_, fun h => ?_, fun hnumbers => ?_⟩
  · rw [consider, hchoose]
  · refine ⟨(haffinity h).1, fun host hhost => ?_⟩
    obtain ⟨held, hheld⟩ := exists_nodesOf hhost
    exact ⟨held, hheld, by rw [(haffinity h).2 host hhost, getD_of_nodesOf hheld, freeShare]⟩
  · refine ⟨(hbalance h).1, fun host hhost => ?_⟩
    obtain ⟨held, hheld⟩ := exists_nodesOf hhost
    exact ⟨held, hheld, by rw [(hbalance h).2 host hhost, getD_of_nodesOf hheld, freeShare]⟩
  · have hkey : ∀ a < p.hosts, ∀ b < p.hosts, score a < score b ↔
        Rounding.height (score a).toModel.unpack < Rounding.height (score b).toModel.unpack :=
      fun a ha b hb => Rounding.lt_iff_height (hnumbers a ha) (hnumbers b hb)
    have hwins := wins_choose _ hpos hscores hkey
    obtain ⟨hnone, hsome⟩ := hwins.of_scores hseed hkey
    refine ⟨hnone, hsome, fun h hexists => ?_⟩
    obtain ⟨higher, hhigher, habove⟩ := hexists
    obtain ⟨held, hheld⟩ := exists_nodesOf hlt
    have hnot : ¬score (p.choose g.neighbours).1 < score higher := by
      rw [hkey _ hlt _ hhigher]
      exact not_lt_of_ge (hwins.highest higher hhigher)
    have hpositive := Rounding.lt_of_lt_of_not_lt habove (hnumbers _ hlt) hnot
    rw [(haffinity h).2 _ hlt, getD_of_nodesOf hheld] at hpositive
    exact ⟨held, hheld, exists_mem_of_pos hpositive⟩

/-- The first of three hosts is drawn, and the second one holds a neighbour and half of its capacity. -/
theorem choice_goes_to_first_of_best_on_three_hosts :
    let p : GroupPlacer Random.Counter := ⟨.affinity, 4.0, #[.ofList [0], .ofList [1, 2], ∅],
      ⟨#[some 0, some 1, some 1, none], 3⟩, ⟨7, 0x6000000000000000⟩⟩
    0 < p.hosts ∧ (Random.below p.hosts p.source).1 = 0 ∧
      Step.outcome (consider (.ofList 3 [2, 4]) p) = .ok 1 := by
  intro p
  have hpos : 0 < p.hosts := by decide
  obtain ⟨score, after, host, -, hchoice, hlt, haffinity, -, hbest⟩ :=
    choice_goes_to_first_of_best p hpos (.ofList 3 [2, 4])
  have hscore : ∀ h < 3, score h = #[0.0, 0.5, 0.0].getD h 0.0 := by
    have hvalues : ∀ h < 3, (p.held.getD h ∅ ∩ (Group.ofList 3 [2, 4]).neighbours).size.toFloat *
        (1.0 - (p.held.getD h ∅).size.toFloat / p.capacity) = #[0.0, 0.5, 0.0].getD h 0.0 := by
      decide +kernel
    intro h hh
    obtain ⟨held, hheld, heq⟩ := (haffinity rfl).2 h hh
    rw [heq, ← getD_of_nodesOf hheld]
    exact hvalues h hh
  have hnumbers : ∀ h < 3, (score h).isNaN = false := by
    have hvalues : ∀ h < 3, (#[0.0, 0.5, 0.0].getD h 0.0).isNaN = false := by decide +kernel
    intro h hh
    rw [hscore h hh]
    exact hvalues h hh
  have hseed : (Random.below p.hosts p.source).1 = 0 := by decide +kernel
  have hbelow : score 0 < score 1 := by
    rw [hscore 0 (by decide), hscore 1 (by decide)]
    decide +kernel
  obtain ⟨-, hfirst, -⟩ := hbest hnumbers
  rw [hseed] at hfirst
  obtain ⟨hhighest, hlower⟩ := hfirst ⟨1, by decide, hbelow⟩
  obtain rfl | rfl | rfl : host = 0 ∨ host = 1 ∨ host = 2 := by
    have hthree : host < 3 := hlt
    omega
  · exact absurd hbelow (hhighest 1 (by decide))
  · exact ⟨hpos, hseed, by rw [hchoice, Step.outcome_ok]⟩
  · have habove := hlower 1 (by decide)
    rw [hscore 1 (by decide), hscore 2 (by decide)] at habove
    exact absurd habove (by decide +kernel)

end Scores

end GraphPlacement.GroupPlacer
