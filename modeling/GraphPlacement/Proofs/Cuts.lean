import GraphPlacement.Listing.Cuts
import GraphPlacement.Proofs.Steps

/-!
# Counting cuts in other ways

**One edge** is counted as what it is among the cut, evaluated and skipped ones, unless it has an endpoint
without a slot: `tallyEdge_apply`.  So a count comes to what the edges are among themselves, or to the first
endpoint of any of them without a slot (`tallyFrom_apply`).

**In parts.** What has been counted before an edge makes no difference to how it is counted, so counting
goes on from a tally as it would from nothing (`tallyFrom_eq`).  Counting edges in parts and adding up the
tallies is therefore counting them from the left, and meets the same fault first if there is one:
`Schedule.tally_eq`.

**With more slots.** Slots that are added hold no host, so an edge that could be counted without them is
counted in the same way: `tally_growTo`.

**Over a listing** that can be read, counting is counting the edges of all its records:
`tallyItems_eq`.
-/

namespace GraphPlacement

theorem Tally.total_count (t : Tally) (hostSrc hostDst : Option Nat) :
    (t.count hostSrc hostDst).total = t.total + 1 := by
  cases hostSrc <;> cases hostDst <;> simp only [count, total] <;> omega

namespace Assignment

variable {a : Assignment} {e : Nat × Nat} {es : List (Nat × Nat)} {t u : Tally}

theorem tallyEdge_eq_ok : a.tallyEdge t e = .ok u ↔ ∃ hostSrc hostDst,
    a.lookup e.1 = .ok hostSrc ∧ a.lookup e.2 = .ok hostDst ∧ u = t.count hostSrc hostDst := by
  constructor
  · intro h
    obtain ⟨hostSrc, hsrc, h⟩ := Step.except_bind_eq_ok.mp h
    obtain ⟨hostDst, hdst, h⟩ := Step.except_bind_eq_ok.mp h
    cases h
    exact ⟨hostSrc, hostDst, hsrc, hdst, rfl⟩
  · rintro ⟨hostSrc, hostDst, hsrc, hdst, rfl⟩
    refine Step.except_bind_eq_ok.mpr ⟨hostSrc, hsrc, ?_⟩
    exact Step.except_bind_eq_ok.mpr ⟨hostDst, hdst, rfl⟩

/-- An edge is counted in the same way whatever has been counted before. -/
theorem tallyEdge_eq (a : Assignment) (t : Tally) (e : Nat × Nat) :
    a.tallyEdge t e = t.merge <$> a.tallyEdge {} e := by
  unfold tallyEdge
  cases a.lookup e.1 with
  | error fault => rfl
  | ok hostSrc =>
      cases a.lookup e.2 with
      | error fault => rfl
      | ok hostDst =>
          show Except.ok (t.count hostSrc hostDst) = .ok (t.merge (Tally.count {} hostSrc hostDst))
          rw [Tally.merge_count, Tally.merge_empty]

theorem tallyFrom_cons (a : Assignment) (t : Tally) (e : Nat × Nat) (es : List (Nat × Nat)) :
    a.tallyFrom t (e :: es) = a.tallyEdge t e >>= fun u => a.tallyFrom u es := List.foldlM_cons

theorem tallyFrom_append (a : Assignment) (t : Tally) (es es' : List (Nat × Nat)) :
    a.tallyFrom t (es ++ es') = a.tallyFrom t es >>= fun u => a.tallyFrom u es' := List.foldlM_append

/-- Counting goes on from a tally as it does from nothing. -/
theorem tallyFrom_eq (a : Assignment) (t : Tally) (es : List (Nat × Nat)) :
    a.tallyFrom t es = t.merge <$> a.tally es := by
  induction es generalizing t with
  | nil => rfl
  | cons e es ih =>
      rw [tally, tallyFrom_cons, tallyFrom_cons, tallyEdge_eq]
      cases a.tallyEdge {} e with
      | error fault => rfl
      | ok u =>
          show a.tallyFrom (t.merge u) es = t.merge <$> a.tallyFrom u es
          rw [ih, ih u]
          cases a.tally es with
          | error fault => rfl
          | ok v => exact congrArg Except.ok (Tally.merge_assoc t u v)

theorem tally_append (a : Assignment) (es es' : List (Nat × Nat)) :
    a.tally (es ++ es') = a.tally es >>= fun t => t.merge <$> a.tally es' := by
  rw [tally, tallyFrom_append]
  exact bind_congr fun t => tallyFrom_eq a t es'

/-- Every edge is counted once. -/
theorem total_of_tallyFrom (h : a.tallyFrom t es = .ok u) : u.total = t.total + es.length := by
  induction es generalizing t with
  | nil =>
      cases h
      rfl
  | cons e es ih =>
      rw [tallyFrom_cons] at h
      obtain ⟨v, hedge, hrest⟩ := Step.except_bind_eq_ok.mp h
      obtain ⟨hostSrc, hostDst, -, -, rfl⟩ := tallyEdge_eq_ok.mp hedge
      rw [ih hrest, Tally.total_count, List.length_cons]
      omega

theorem total_of_tally (h : a.tally es = .ok t) : t.total = es.length := by
  rw [total_of_tallyFrom h]
  exact Nat.zero_add _

/-- The cut, evaluated and skipped ones among some edges. -/
def cutsAmong (a : Assignment) (es : List (Nat × Nat)) : Tally where
  cut := es.countP fun e => a.isCut? e.1 e.2 = some true
  evaluated := es.countP fun e => (a.isCut? e.1 e.2).isSome
  skipped := es.countP fun e => (a.isCut? e.1 e.2).isNone

theorem cutsAmong_cons (a : Assignment) (e : Nat × Nat) (es : List (Nat × Nat)) :
    a.cutsAmong (e :: es) = (a.cutsAmong [e]).merge (a.cutsAmong es) := by
  simp only [cutsAmong, Tally.merge, List.countP_cons, List.countP_nil, Nat.zero_add, Nat.add_comm]

theorem cut_le_evaluated (a : Assignment) (es : List (Nat × Nat)) :
    (a.cutsAmong es).cut ≤ (a.cutsAmong es).evaluated := by
  refine List.countP_mono_left fun e _ h => ?_
  rw [of_decide_eq_true h]
  rfl

theorem count_eq_merge (a : Assignment) (t : Tally) (e : Nat × Nat) :
    t.count (a.host? e.1) (a.host? e.2) = t.merge (a.cutsAmong [e]) := by
  cases hsrc : a.host? e.1 with
  | none => simp [cutsAmong, Tally.merge, Tally.count, isCut?, hsrc]
  | some hostSrc =>
      cases hdst : a.host? e.2 with
      | none => simp [cutsAmong, Tally.merge, Tally.count, isCut?, hsrc, hdst]
      | some hostDst =>
          by_cases heq : hostSrc = hostDst <;>
            simp [cutsAmong, Tally.merge, Tally.count, isCut?, hsrc, hdst, heq]

/-- The first endpoint of an edge that is no node of a graph with so many nodes. -/
def pastEnd? (nodes : Nat) (e : Nat × Nat) : Option Nat := [e.1, e.2].find? (nodes ≤ ·)

/-- **Counting an edge** fails at its first endpoint without a slot. -/
theorem tallyEdge_apply (a : Assignment) (t : Tally) (e : Nat × Nat) :
    a.tallyEdge t e =
      match pastEnd? a.size e with
      | some v => .error (.nodeOutOfRange v a.size)
      | none => .ok (t.merge (a.cutsAmong [e])) := by
  rw [← count_eq_merge, tallyEdge, lookup, lookup, pastEnd?]
  by_cases hsrc : a.size ≤ e.1
  · simp [hsrc, Nat.not_lt.mpr hsrc, bind, Except.bind]
  · by_cases hdst : a.size ≤ e.2
    · simp [hsrc, hdst, Nat.lt_of_not_le hsrc, Nat.not_lt.mpr hdst, bind, Except.bind]
    · simp [hsrc, hdst, Nat.lt_of_not_le hsrc, Nat.lt_of_not_le hdst, bind, Except.bind, pure, Except.pure]

theorem tallyEdge_eq_error {fault : Fault} (h : a.tallyEdge t e = .error fault) :
    ∃ v, (v = e.1 ∨ v = e.2) ∧ a.size ≤ v ∧ fault = .nodeOutOfRange v a.size := by
  rw [tallyEdge_apply] at h
  cases hpast : pastEnd? a.size e with
  | none => simp [hpast] at h
  | some v =>
      simp only [hpast, Except.error.injEq] at h
      exact ⟨v, by simpa using List.mem_of_find?_eq_some hpast,
        by simpa using List.find?_some hpast, h.symm⟩

/-- **Counting edges** fails at the first endpoint without a slot, whichever edge it belongs to. -/
theorem tallyFrom_apply (a : Assignment) (t : Tally) (es : List (Nat × Nat)) :
    a.tallyFrom t es =
      match es.findSome? (pastEnd? a.size) with
      | some v => .error (.nodeOutOfRange v a.size)
      | none => .ok (t.merge (a.cutsAmong es)) := by
  induction es generalizing t with
  | nil => rfl
  | cons e es ih =>
      rw [tallyFrom_cons, tallyEdge_apply, List.findSome?_cons]
      cases pastEnd? a.size e with
      | some v => rfl
      | none =>
          show a.tallyFrom (t.merge (a.cutsAmong [e])) es = _
          rw [ih, Tally.merge_assoc, ← cutsAmong_cons]

theorem pastEnd?_eq_none_iff {nodes : Nat} : pastEnd? nodes e = none ↔ e.1 < nodes ∧ e.2 < nodes := by
  simp [pastEnd?]

/-- Edges can be counted exactly when each endpoint has a slot. -/
theorem tally_eq_ok_iff :
    a.tally es = .ok t ↔ (∀ e ∈ es, e.1 < a.size ∧ e.2 < a.size) ∧ t = a.cutsAmong es := by
  have hfits : es.findSome? (pastEnd? a.size) = none ↔ ∀ e ∈ es, e.1 < a.size ∧ e.2 < a.size := by
    simp only [List.findSome?_eq_none_iff, pastEnd?_eq_none_iff]
  rw [tally, tallyFrom_apply, ← hfits]
  cases es.findSome? (pastEnd? a.size) with
  | some v => simp
  | none => simp [eq_comm]

/-- A count fails at an endpoint without a slot. -/
theorem tally_eq_error {fault : Fault} (h : a.tally es = .error fault) :
    ∃ e ∈ es, ∃ v, (v = e.1 ∨ v = e.2) ∧ a.size ≤ v ∧ fault = .nodeOutOfRange v a.size := by
  obtain ⟨before, e, later, t, rfl, -, hedge⟩ := Step.foldlM_eq_error h
  exact ⟨e, by simp, tallyEdge_eq_error hedge⟩

theorem lookup_growTo {v : Nat} {host : Option Nat} (h : a.lookup v = .ok host) (n : Nat) :
    (a.growTo n).lookup v = .ok host := by
  unfold lookup at h ⊢
  split at h
  case isTrue hlt =>
    rw [if_pos (by rw [size_growTo]; omega), host?_growTo, h]
  case isFalse => cases h

/-- Slots that are added make no difference to edges that are counted without them. -/
theorem tallyFrom_growTo (h : a.tallyFrom t es = .ok u) (n : Nat) :
    (a.growTo n).tallyFrom t es = .ok u := by
  induction es generalizing t with
  | nil => exact h
  | cons e es ih =>
      rw [tallyFrom_cons] at h ⊢
      obtain ⟨v, hedge, hrest⟩ := Step.except_bind_eq_ok.mp h
      obtain ⟨hostSrc, hostDst, hsrc, hdst, rfl⟩ := tallyEdge_eq_ok.mp hedge
      refine Step.except_bind_eq_ok.mpr ⟨_, ?_, ih hrest⟩
      exact tallyEdge_eq_ok.mpr ⟨_, _, lookup_growTo hsrc n, lookup_growTo hdst n, rfl⟩

end Assignment

/-- **Counting in parts** comes to the same as counting from the left. -/
theorem Schedule.tally_eq (s : Schedule) (a : Assignment) : s.tally a = a.tally s.edges := by
  induction s with
  | chunk es => rfl
  | join l r ihl ihr =>
      rw [Schedule.tally, Schedule.edges, ihl, ihr, Assignment.tally_append]
      exact bind_congr fun left => bind_pure_comp left.merge (a.tally r.edges)

theorem Assignment.tallyInParts_eq (a : Assignment) (es : List (Nat × Nat)) :
    a.tallyInParts es = a.tally es := by
  rw [tallyInParts, Schedule.tally_eq, Schedule.edges_halving]

namespace Listing

variable {α : Type} {a : Assignment} {ends : α → List (Nat × Nat)} {xs : List α}

/-- Counting over items that are all records is counting the edges of the records. -/
theorem tallyItems_eq {items : List (Item α)} (h : items.map Item.value = xs.map Except.ok) :
    tallyItems a ends items = a.tally (xs.flatMap ends) := by
  suffices hfrom : ∀ t, items.foldlM (tallyItem a ends) t = a.tallyFrom t (xs.flatMap ends) from
    hfrom {}
  induction xs generalizing items with
  | nil =>
      intro t
      rw [List.map_eq_nil_iff.mp h]
      rfl
  | cons x xs ih =>
      intro t
      obtain ⟨item, later, rfl, hvalue, hlater⟩ := List.map_eq_cons_iff.mp h
      have hitem : tallyItem a ends t item = a.tallyFrom t (ends x) := by
        rw [tallyItem, hvalue]
        rfl
      rw [List.foldlM_cons, hitem, List.flatMap_cons, Assignment.tallyFrom_append]
      exact bind_congr fun u => ih hlater u

end Listing

end GraphPlacement
