import GraphPlacement.Proofs.Cuts
import Mathlib.Data.List.Basic
import Mathlib.Data.Set.Function
import Mathlib.Data.Sym.Sym2

/-!
# The same edges counted again

**Another order, another direction.** Whether an edge is cut is a property of its endpoints as an unordered
pair (`cutPair?`), and a count is a sum over edges.  So counting sees the pairs of endpoints and how often each
comes, and nothing else of a list of edges: `tally_of_same_pairs`.

**Other hosts.** When the hosts of an assignment are renamed, the same nodes have a host, so the same edges are
evaluated.  Nodes on one host stay together, so no edge becomes cut; an edge stops being cut only when two hosts
that nodes are on get the same name (`isCut?_mapHosts_of_injOn`).
-/

namespace GraphPlacement.Assignment

variable {a : Assignment} {es es' : List (Nat × Nat)} {t : Tally} {f : Nat → Nat}

/-! ## Pairs of endpoints -/

theorem isCut?_swap (a : Assignment) (src dst : Nat) : a.isCut? src dst = a.isCut? dst src := by
  unfold isCut?
  cases a.host? src <;> cases a.host? dst <;> simp [bne_comm]

/-- Whether an edge between two nodes is cut, whichever of them it starts from. -/
def cutPair? (a : Assignment) : Sym2 Nat → Option Bool := Sym2.lift ⟨a.isCut?, a.isCut?_swap⟩

/-- What a count looks at of a list of edges: the pairs of their endpoints. -/
def endPairs (es : List (Nat × Nat)) : List (Sym2 Nat) := es.map fun e => s(e.1, e.2)

theorem cutsAmong_eq (a : Assignment) (es : List (Nat × Nat)) :
    a.cutsAmong es =
      ⟨(endPairs es).countP fun z => a.cutPair? z = some true,
        (endPairs es).countP fun z => (a.cutPair? z).isSome,
        (endPairs es).countP fun z => (a.cutPair? z).isNone⟩ := by
  simp only [endPairs, List.countP_map]
  rfl

theorem fits_iff_endPairs {nodes : Nat} :
    (∀ e ∈ es, e.1 < nodes ∧ e.2 < nodes) ↔ ∀ z ∈ endPairs es, ∀ v ∈ z, v < nodes := by
  simp only [endPairs, List.forall_mem_map, Sym2.ball]

/-- **Lists with the same pairs of endpoints** are counted alike. -/
theorem tally_of_same_pairs (h : (endPairs es').Perm (endPairs es)) :
    a.tally es' = .ok t ↔ a.tally es = .ok t := by
  have hfits : (∀ z ∈ endPairs es', ∀ v ∈ z, v < a.size) ↔ ∀ z ∈ endPairs es, ∀ v ∈ z, v < a.size := by
    simp only [h.mem_iff]
  rw [tally_eq_ok_iff, tally_eq_ok_iff, fits_iff_endPairs, fits_iff_endPairs, hfits, cutsAmong_eq,
    cutsAmong_eq, h.countP_eq, h.countP_eq, h.countP_eq]

theorem endPairs_reversed (reversed : Nat → Bool) (es : List (Nat × Nat)) :
    endPairs (es.mapIdx fun i e => if reversed i then e.swap else e) = endPairs es := by
  refine List.ext_getElem? fun i => ?_
  simp only [endPairs, List.getElem?_map, List.getElem?_mapIdx, Option.map_map]
  refine congrArg (Option.map · es[i]?) (funext fun e => ?_)
  cases reversed i with
  | true => exact Sym2.eq_swap
  | false => rfl

/-! ## Renamed hosts -/

/-- The assignment with its hosts renamed. -/
def mapHosts (f : Nat → Nat) (a : Assignment) : Assignment := { a with slots := a.slots.map (Option.map f) }

@[simp] theorem size_mapHosts (f : Nat → Nat) (a : Assignment) : (a.mapHosts f).size = a.size := by
  simp [mapHosts, size]

@[simp] theorem host?_mapHosts (f : Nat → Nat) (a : Assignment) (v : Nat) :
    (a.mapHosts f).host? v = (a.host? v).map f := by
  simp only [mapHosts, host?, Array.getElem?_map]
  rcases a.slots[v]? with _ | _ | _ <;> rfl

theorem isSome_isCut?_mapHosts (f : Nat → Nat) (a : Assignment) (src dst : Nat) :
    ((a.mapHosts f).isCut? src dst).isSome = (a.isCut? src dst).isSome := by
  unfold isCut?
  rw [host?_mapHosts, host?_mapHosts]
  cases a.host? src <;> cases a.host? dst <;> rfl

theorem isCut?_eq_true_iff {src dst : Nat} : a.isCut? src dst = some true ↔
    ∃ hostSrc hostDst, a.host? src = some hostSrc ∧ a.host? dst = some hostDst ∧ hostSrc ≠ hostDst := by
  unfold isCut?
  cases a.host? src <;> cases a.host? dst <;> simp

/-- An edge that is cut between renamed hosts is cut. -/
theorem isCut?_of_mapHosts {src dst : Nat} (h : (a.mapHosts f).isCut? src dst = some true) :
    a.isCut? src dst = some true := by
  obtain ⟨_, _, hnewSrc, hnewDst, hne⟩ := isCut?_eq_true_iff.mp h
  rw [host?_mapHosts] at hnewSrc hnewDst
  obtain ⟨hostSrc, hsrc, rfl⟩ := Option.map_eq_some_iff.mp hnewSrc
  obtain ⟨hostDst, hdst, rfl⟩ := Option.map_eq_some_iff.mp hnewDst
  exact isCut?_eq_true_iff.mpr ⟨hostSrc, hostDst, hsrc, hdst, fun heq => hne (congrArg f heq)⟩

/-- And the other way round if no two hosts that nodes are on get the same name. -/
theorem isCut?_mapHosts_of_injOn (hinj : Set.InjOn f {host | ∃ v, a.host? v = some host}) {src dst : Nat}
    (h : a.isCut? src dst = some true) : (a.mapHosts f).isCut? src dst = some true := by
  obtain ⟨hostSrc, hostDst, hsrc, hdst, hne⟩ := isCut?_eq_true_iff.mp h
  refine isCut?_eq_true_iff.mpr ⟨f hostSrc, f hostDst, by simp [hsrc], by simp [hdst], fun heq => hne ?_⟩
  exact hinj ⟨src, hsrc⟩ ⟨dst, hdst⟩ heq

theorem evaluated_mapHosts (f : Nat → Nat) (a : Assignment) (es : List (Nat × Nat)) :
    ((a.mapHosts f).cutsAmong es).evaluated = (a.cutsAmong es).evaluated := by
  simp only [cutsAmong, isSome_isCut?_mapHosts]

theorem skipped_mapHosts (f : Nat → Nat) (a : Assignment) (es : List (Nat × Nat)) :
    ((a.mapHosts f).cutsAmong es).skipped = (a.cutsAmong es).skipped := by
  simp only [cutsAmong, ← Option.not_isSome, isSome_isCut?_mapHosts]

theorem cut_mapHosts_le (f : Nat → Nat) (a : Assignment) (es : List (Nat × Nat)) :
    ((a.mapHosts f).cutsAmong es).cut ≤ (a.cutsAmong es).cut :=
  List.countP_mono_left fun _ _ h => decide_eq_true (isCut?_of_mapHosts (of_decide_eq_true h))

theorem cut_mapHosts_of_injOn (hinj : Set.InjOn f {host | ∃ v, a.host? v = some host})
    (es : List (Nat × Nat)) : ((a.mapHosts f).cutsAmong es).cut = (a.cutsAmong es).cut := by
  refine List.countP_congr fun e _ => ?_
  rw [decide_eq_true_iff, decide_eq_true_iff]
  exact ⟨isCut?_of_mapHosts, isCut?_mapHosts_of_injOn hinj⟩

/-- An endpoint without a slot is met first in both. -/
theorem tally_mapHosts_eq_error {fault : Fault} :
    (a.mapHosts f).tally es = .error fault ↔ a.tally es = .error fault := by
  rw [tally, tally, tallyFrom_apply, tallyFrom_apply, size_mapHosts]
  cases es.findSome? (pastEnd? a.size) with
  | some v => exact Iff.rfl
  | none => simp

/-- **A count is exact, and takes edges without their order and direction.**  It fails exactly when an
endpoint has no slot, and then names the first one, going through the edges in order and in each from the
source to the target.  Otherwise it gives the numbers of edges that are cut, evaluated and skipped when each is
looked at alone; these add up to all edges.  The edges in another order, or with any of them reversed, are
counted when they are, and to the same tally.  After any renaming of hosts the same edges are evaluated and
skipped and no more are cut, and as many if the renaming keeps apart the hosts that nodes are on. -/
theorem tally_counts_edges_alone (a : Assignment) (es : List (Nat × Nat)) :
    ((∃ fault, a.tally es = .error fault) ↔ ∃ e ∈ es, a.size ≤ e.1 ∨ a.size ≤ e.2) ∧
    (a.tally es =
      match (es.flatMap fun e => [e.1, e.2]).find? (a.size ≤ ·) with
      | some v => .error (.nodeOutOfRange v a.size)
      | none => .ok
        { cut := es.countP fun e => a.isCut? e.1 e.2 = some true
          evaluated := es.countP fun e => (a.isCut? e.1 e.2).isSome
          skipped := es.countP fun e => (a.isCut? e.1 e.2).isNone }) ∧
    (∀ t, a.tally es = .ok t → t.total = es.length ∧ t.cut ≤ t.evaluated) ∧
    (∀ es', es'.Perm es → ∀ t, a.tally es' = .ok t ↔ a.tally es = .ok t) ∧
    (∀ (reversed : Nat → Bool) (t : Tally),
      a.tally (es.mapIdx fun i e => if reversed i then e.swap else e) = .ok t ↔ a.tally es = .ok t) ∧
    ∀ f : Nat → Nat,
      (∀ fault, (a.mapHosts f).tally es = .error fault ↔ a.tally es = .error fault) ∧
      ∀ t, a.tally es = .ok t → ∃ u, (a.mapHosts f).tally es = .ok u ∧
        u.evaluated = t.evaluated ∧ u.skipped = t.skipped ∧ u.cut ≤ t.cut ∧
        (Set.InjOn f {host | ∃ v, a.host? v = some host} → u.cut = t.cut) := by
  refine ⟨?_, ?_, fun t ht => ⟨total_of_tally ht, ?_⟩, fun es' hperm t => ?_, fun reversed t => ?_,
    fun f => ⟨fun fault => tally_mapHosts_eq_error, fun t ht => ?_⟩⟩
  · constructor
    · rintro ⟨fault, h⟩
      obtain ⟨e, he, v, rfl | rfl, hv, -⟩ := tally_eq_error h
      · exact ⟨e, he, Or.inl hv⟩
      · exact ⟨e, he, Or.inr hv⟩
    · rintro ⟨e, he, hpast⟩
      cases h : a.tally es with
      | error fault => exact ⟨fault, rfl⟩
      | ok t =>
          have hfits := (tally_eq_ok_iff.mp h).1 e he
          omega
  · rw [tally, tallyFrom_apply, List.find?_flatMap, Tally.empty_merge]
    rfl
  · obtain ⟨-, rfl⟩ := tally_eq_ok_iff.mp ht
    exact a.cut_le_evaluated es
  · exact tally_of_same_pairs (hperm.map _)
  · exact tally_of_same_pairs (by rw [endPairs_reversed])
  · obtain ⟨hfits, rfl⟩ := tally_eq_ok_iff.mp ht
    refine ⟨_, tally_eq_ok_iff.mpr ⟨by simpa using hfits, rfl⟩, evaluated_mapHosts f a es,
      skipped_mapHosts f a es, cut_mapHosts_le f a es, fun hinj => cut_mapHosts_of_injOn hinj es⟩

/-- A triangle over three hosts with a loop and an edge to a node without a host: the edges from the last to the
first, then with every second one reversed, then with the last two hosts made one, then with all hosts moved. -/
theorem tally_counts_edges_alone_on_triangle :
    let a : Assignment := ⟨#[some 0, some 1, some 2, none], 3⟩
    let es := [(0, 1), (1, 2), (2, 0), (0, 3), (1, 1)]
    a.tally es = .ok ⟨3, 4, 1⟩ ∧ a.tally [(1, 1), (0, 3), (2, 0), (1, 2), (0, 1)] = .ok ⟨3, 4, 1⟩ ∧
      a.tally [(1, 0), (1, 2), (0, 2), (0, 3), (1, 1)] = .ok ⟨3, 4, 1⟩ ∧
      (∃ u, (a.mapHosts (min 1)).tally es = .ok u ∧ u.evaluated = 4 ∧ u.skipped = 1 ∧ u.cut ≤ 3) ∧
      (∃ u, (a.mapHosts (· + 5)).tally es = .ok u ∧ u.cut = 3) ∧
      a.tally ((2, 5) :: (7, 0) :: es) = .error (.nodeOutOfRange 5 4) := by
  intro a es
  obtain ⟨-, hcount, -, hperm, hreversed, hmap⟩ := tally_counts_edges_alone a es
  have htally : a.tally es = .ok ⟨3, 4, 1⟩ := hcount.trans (by decide)
  refine ⟨htally, (hperm _ (List.reverse_perm es) _).mpr htally,
    (hreversed (fun i => i % 2 == 0) _).mpr htally, ?_, ?_, ?_⟩
  · obtain ⟨u, hu, hevaluated, hskipped, hcut, -⟩ := (hmap (min 1)).2 _ htally
    exact ⟨u, hu, hevaluated, hskipped, hcut⟩
  · obtain ⟨u, hu, -, -, -, hinjective⟩ := (hmap (· + 5)).2 _ htally
    exact ⟨u, hu, hinjective (add_left_injective 5).injOn⟩
  · exact (tally_counts_edges_alone a _).2.1.trans (by decide)

end GraphPlacement.Assignment
