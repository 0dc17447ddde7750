import GraphPlacement.Proofs.Cuts
import GraphPlacement.Proofs.Listing.Records
import Mathlib.Order.Bounds.Basic

/-!
# What a pass over an edge listing finds

**Counting.** A counting pass that ends has read edges and nothing else, and has counted them and the
nodes up to the largest one.  Each node leaves room for the number after it (`countEdges_eq_ok`).  If the
listing holds edges only, and one of them leaves no room, then the pass ends at the first such edge and
names the line that it is on (`countEdges_eq_error`).

**Cuts.** Counting the cuts over a listing that holds only edges is counting them over these edges.
-/

namespace GraphPlacement.Listing

variable {content : ByteArray} {es : List Edge} {a : Assignment}

/-- One more than the largest node of some edges. -/
def nodesOf (es : List Edge) : Nat := (es.map fun e => max e.src e.dst + 1).foldr max 0

theorem lt_nodesOf {e : Edge} (h : e ∈ es) : e.src < nodesOf es ∧ e.dst < nodesOf es := by
  induction es with
  | nil => cases h
  | cons e' es ih =>
      have hcons : nodesOf (e' :: es) = max (max e'.src e'.dst + 1) (nodesOf es) := rfl
      rcases List.mem_cons.mp h with rfl | h
      · omega
      · have hlater := ih h
        omega

/-- The nodes are numbered up to the largest, which an edge has. -/
theorem exists_nodesOf (h : es ≠ []) : ∃ e ∈ es, nodesOf es = max e.src e.dst + 1 := by
  induction es with
  | nil => exact absurd rfl h
  | cons e es ih =>
      have hcons : nodesOf (e :: es) = max (max e.src e.dst + 1) (nodesOf es) := rfl
      rcases Nat.le_total (nodesOf es) (max e.src e.dst + 1) with hle | hle
      · exact ⟨e, List.mem_cons_self, by omega⟩
      · have hne : es ≠ [] := by
          rintro rfl
          simp [nodesOf] at hle
        obtain ⟨e', he', heq⟩ := ih hne
        exact ⟨e', List.mem_cons_of_mem _ he', by omega⟩

/-- The nodes of some edges are as few as they can be. -/
theorem isLeast_nodesOf (es : List Edge) :
    IsLeast {n | ∀ e ∈ es, e.src < n ∧ e.dst < n} (nodesOf es) := by
  refine ⟨fun e he => lt_nodesOf he, fun n hn => ?_⟩
  by_cases hne : es = []
  · subst hne
    exact Nat.zero_le n
  · obtain ⟨e, he, heq⟩ := exists_nodesOf hne
    have hlt := hn e he
    omega

/-! ## Counting -/

theorem add_eq_ok {counts next : Counts} {item : Item Edge} (h : counts.add item = .ok next) :
    ∃ e, item.value = .ok e ∧ max e.src e.dst + 1 < Text.wordBound ∧
      next = ⟨max counts.nodes (max e.src e.dst + 1), counts.edges + 1⟩ := by
  obtain ⟨e, he, hrest⟩ := Step.except_bind_eq_ok.mp h
  refine ⟨e, he, ?_⟩
  by_cases hfit : Text.wordBound ≤ max e.src e.dst + 1
  · simp only [if_pos hfit] at hrest
    cases hrest
  · simp only [if_neg hfit] at hrest
    cases hrest
    exact ⟨by omega, rfl⟩

theorem foldlM_add_eq_ok {items : List (Item Edge)} {counts next : Counts}
    (h : items.foldlM Counts.add counts = .ok next) :
    ∃ es : List Edge, items.map Item.value = es.map Except.ok ∧
      (∀ e ∈ es, max e.src e.dst + 1 < Text.wordBound) ∧
      next = ⟨max counts.nodes (nodesOf es), counts.edges + es.length⟩ := by
  induction items generalizing counts with
  | nil =>
      cases h
      exact ⟨[], rfl, by simp, by simp [nodesOf]⟩
  | cons item items ih =>
      rw [List.foldlM_cons] at h
      obtain ⟨middle, hadd, hrest⟩ := Step.except_bind_eq_ok.mp h
      obtain ⟨e, he, hfit, rfl⟩ := add_eq_ok hadd
      obtain ⟨es, hes, hfits, rfl⟩ := ih hrest
      have hcons : nodesOf (e :: es) = max (max e.src e.dst + 1) (nodesOf es) := rfl
      refine ⟨e :: es, ?_, ?_, ?_⟩
      · rw [List.map_cons, he, hes, List.map_cons]
      · intro e' he'
        rcases List.mem_cons.mp he' with rfl | he'
        · exact hfit
        · exact hfits e' he'
      · simp only [hcons, List.length_cons, Counts.mk.injEq]
        omega

/-- **A counting pass that ends** has read edges only. -/
theorem countEdges_eq_ok {counts : Counts} (h : countEdges content = .ok counts) :
    ∃ es : List Edge, (edges content).map Item.value = es.map Except.ok ∧
      (∀ e ∈ es, max e.src e.dst + 1 < Text.wordBound) ∧ counts = ⟨nodesOf es, es.length⟩ := by
  obtain ⟨es, hes, hfits, rfl⟩ := foldlM_add_eq_ok h
  exact ⟨es, hes, hfits, by simp⟩

/-- An edge that is read from a line has endpoints that fit in a word. -/
theorem lt_of_readEdge {line : Nat} {text : String} {e : Edge}
    (h : readEdge line text = .ok (some e)) : e.src < Text.wordBound ∧ e.dst < Text.wordBound := by
  unfold readEdge at h
  split at h
  case h_1 => cases h
  case h_2 src dst _ =>
    obtain ⟨s, hs, h⟩ := Step.except_bind_eq_ok.mp h
    obtain ⟨d, hd, h⟩ := Step.except_bind_eq_ok.mp h
    cases h
    exact ⟨lt_of_readNode hs, lt_of_readNode hd⟩
  case h_3 src dst weight _ =>
    obtain ⟨s, hs, h⟩ := Step.except_bind_eq_ok.mp h
    obtain ⟨d, hd, h⟩ := Step.except_bind_eq_ok.mp h
    obtain ⟨w, -, h⟩ := Step.except_bind_eq_ok.mp h
    cases h
    exact ⟨lt_of_readNode hs, lt_of_readNode hd⟩
  case h_4 => cases h

/-- A line gives no edge exactly when it has no field. -/
theorem readEdge_eq_none {line : Nat} {text : String} :
    readEdge line text = .ok none ↔ Text.fields text = [] := by
  unfold readEdge
  split
  case h_1 hblank => exact iff_of_true rfl hblank
  case h_2 hfields =>
    exact iff_of_false (bind_ne_none fun _ => bind_ne_none fun _ => nofun) (by simp [hfields])
  case h_3 hfields =>
    refine iff_of_false ?_ (by simp [hfields])
    exact bind_ne_none fun _ => bind_ne_none fun _ => bind_ne_none fun _ => nofun
  case h_4 hnil _ _ => exact iff_of_false nofun hnil

/-- A line without an edge that can be read is malformed. -/
theorem failsOn_readEdge (line : Nat) (text : String) : FailsOn line (readEdge line text) := by
  unfold readEdge
  split
  case h_1 => exact failsOn_ok _
  case h_2 => exact failsOn_readField.bind fun _ => failsOn_readField.bind fun _ => failsOn_ok _
  case h_3 =>
    refine failsOn_readField.bind fun _ => failsOn_readField.bind fun _ => ?_
    exact failsOn_readField.bind fun _ => failsOn_ok _
  case h_4 => exact failsOn_malformed line _

theorem add_eq_error {counts : Counts} {item : Item Edge} {e : Edge} {fault : Fault}
    (hitem : item.value = .ok e) (h : counts.add item = .error fault) :
    Text.wordBound ≤ max e.src e.dst + 1 ∧ fault = .malformed item.line .nodeIdTooLarge := by
  rw [Counts.add, hitem] at h
  by_cases hfit : Text.wordBound ≤ max e.src e.dst + 1
  · refine ⟨hfit, ?_⟩
    simp only [bind, Except.bind, if_pos hfit] at h
    cases h
    rfl
  · simp only [bind, Except.bind, if_neg hfit] at h
    cases h

/-- **A counting pass over edges that are too large** ends at the first of them, with the number of the
line that it stands on. -/
theorem countEdges_eq_error (hes : records (edges content) = .ok es)
    (hlarge : ∃ e ∈ es, Text.wordBound ≤ max e.src e.dst + 1) :
    ∃ before e later above text below, es = before ++ e :: later ∧
      (∀ x ∈ before, max x.src x.dst + 1 < Text.wordBound) ∧ max e.src e.dst + 1 = Text.wordBound ∧
      Text.lines content = above ++ some text :: below ∧
      records (itemsFrom readEdge 0 above) = .ok before ∧
      readEdge (above.length + 1) text = .ok (some e) ∧
      countEdges content = .error (.malformed (above.length + 1) .nodeIdTooLarge) := by
  cases hcount : countEdges content with
  | ok counts =>
      obtain ⟨es', hsame, hfits, -⟩ := countEdges_eq_ok hcount
      obtain rfl : es = es' := Step.map_ok_inj ((records_eq_ok_iff.mp hes).symm.trans hsame)
      obtain ⟨e, he, hle⟩ := hlarge
      exact absurd (hfits e he) (by omega)
  | error fault =>
      obtain ⟨before, item, later, counts, hitems, hbefore, hadd⟩ := Step.foldlM_eq_error hcount
      obtain ⟨passed, e, rest, above, text, below, rfl, hpassed, rfl, hlines, habove, hread⟩ :=
        exists_line_of_records hes hitems
      obtain ⟨passed', hpassed', hfits, -⟩ := foldlM_add_eq_ok hbefore
      obtain rfl : passed = passed' := Step.map_ok_inj (hpassed.symm.trans hpassed')
      obtain ⟨hle, rfl⟩ := add_eq_error rfl hadd
      have hlt := lt_of_readEdge hread
      refine ⟨passed, e, rest, above, text, below, rfl, hfits, by omega, hlines, ?_, hread, rfl⟩
      exact records_eq_ok_iff.mpr (habove ▸ hpassed)

theorem nodesOf_lt (hfits : ∀ e ∈ es, max e.src e.dst + 1 < Text.wordBound) :
    nodesOf es < Text.wordBound := by
  by_cases hne : es = []
  · subst hne
    decide
  · obtain ⟨e, he, heq⟩ := exists_nodesOf hne
    rw [heq]
    exact hfits e he

/-! ## Cuts -/

theorem tally_edges (h : (edges content).map Item.value = es.map Except.ok) :
    tally a content .edges = a.tally (es.map Edge.ends) := by
  rw [tally, tallyItems_eq h, List.map_eq_flatMap]

end GraphPlacement.Listing
