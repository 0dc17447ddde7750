import GraphPlacement.Proofs.Listing.Written
import Mathlib.Data.Finset.Card
import Mathlib.Data.Finset.Range

/-!
# What a node map can carry

**Limits.** A node map is written of hosts as they are, but they are read as signed numbers, and it is read
for a number of nodes of which the writer knows nothing.  So a pair can be refused for its host or for its
node; the host is looked at first.

**First refusal.** Pairs before the first refused one are taken, and fill slots of their own.  The reader then
stops at that pair, with a fault that tells the line by the number of pairs before
(`nodeMap_writeNodeMap_of_refused`).  These are as many as there are nodes with a host below that one
(`length_before`), since the pairs are written in ascending order.
-/

namespace GraphPlacement

/-- How many nodes below a node have a host. -/
def Assignment.assignedBelow (a : Assignment) (v : Nat) : Nat :=
  ((Finset.range v).filter fun w => (a.host? w).isSome).card

variable {a b : Assignment} {before later : List (Nat × Nat)} {v host nodes line : Nat}

namespace Assignment

/-- The pair of a lower node stands before that of a node. -/
theorem mem_before_of_lt (h : a.pairs = before ++ (v, host) :: later) {w other : Nat} (hlt : w < v)
    (hw : a.host? w = some other) : (w, other) ∈ before := by
  have hascending := a.pairs_ascending
  rw [h, List.pairwise_append] at hascending
  have hmem := mem_pairs.mpr hw
  rw [h, List.mem_append, List.mem_cons] at hmem
  rcases hmem with hbefore | heq | hlater
  · exact hbefore
  · cases heq
    exact absurd hlt (Nat.lt_irrefl v)
  · exact absurd ((List.pairwise_cons.mp hascending.2.1).1 _ hlater) (Nat.lt_asymm hlt)

theorem nodup_before (h : a.pairs = before ++ later) : (before.map Prod.fst).Nodup := by
  have hnodup := a.nodes_nodup
  rw [h, List.map_append] at hnodup
  exact hnodup.of_append_left

/-- The pairs before that of a node are those of the nodes below it. -/
theorem length_before (h : a.pairs = before ++ (v, host) :: later) : before.length = a.assignedBelow v := by
  have hascending := a.pairs_ascending
  rw [h, List.pairwise_append] at hascending
  have hbelow : (before.map Prod.fst).toFinset =
      (Finset.range v).filter fun w => (a.host? w).isSome := by
    ext w
    rw [List.mem_toFinset, List.mem_map, Finset.mem_filter, Finset.mem_range, Option.isSome_iff_exists]
    constructor
    · rintro ⟨⟨w, other⟩, hw, rfl⟩
      refine ⟨hascending.2.2 _ hw _ List.mem_cons_self, other, mem_pairs.mp ?_⟩
      exact h ▸ List.mem_append_left _ hw
    · rintro ⟨hlt, other, hother⟩
      exact ⟨(w, other), mem_before_of_lt h hlt hother, rfl⟩
  rw [assignedBelow, ← hbelow, List.toFinset_card_of_nodup (nodup_before h), List.length_map]

end Assignment

namespace Listing

/-! ## Refusals -/

/-- Whether a pair is taken when it is read for a number of nodes. -/
def Accepted (nodes v host : Nat) : Prop := host < Text.signedBound ∧ v < nodes

instance : Decidable (Accepted nodes v host) := inferInstanceAs (Decidable (_ ∧ _))

/-- Why a pair on a line is not taken. -/
def refusal (nodes line v host : Nat) : Fault :=
  if host < Text.signedBound then .nodeOutOfRange v nodes
  else .malformed line (.host (Text.decimal host))

theorem takeItem_of_refused (hsize : b.size = nodes) (hrefused : ¬Accepted nodes v host) :
    takeItem b ⟨line, entryRead line (v, host)⟩ = .error (refusal nodes line v host) := by
  by_cases hhost : host < Text.signedBound
  · have hpast : b.size ≤ v := hsize ▸ Nat.le_of_not_lt fun hv => hrefused ⟨hhost, hv⟩
    have hread : entryRead line (v, host) = .ok ⟨v, host⟩ := if_pos hhost
    rw [takeItem, hread, refusal, if_pos hhost, ← hsize]
    exact if_pos hpast
  · have hread : entryRead line (v, host) = .error (.malformed line (.host (Text.decimal host))) :=
      if_neg hhost
    rw [takeItem, hread, refusal, if_neg hhost]
    rfl

/-- **A node map is read up to its first refused pair.** -/
theorem nodeMap_writeNodeMap_of_refused (hword : ∀ pair ∈ a.pairs, pair.1 < Text.wordBound)
    (hpairs : a.pairs = before ++ (v, host) :: later)
    (hbefore : ∀ pair ∈ before, Accepted nodes pair.1 pair.2) (hrefused : ¬Accepted nodes v host) :
    nodeMap (writeNodeMap a).toUTF8 nodes = .error (refusal nodes (before.length + 1) v host) := by
  obtain ⟨b, htakes⟩ := exists_takesAll_entries (Assignment.nodup_before hpairs) fun pair hpair =>
    (hbefore pair hpair).2
  have hvalues := values_entryRead fun pair hpair => (hbefore pair hpair).1
  have hfold := foldlM_takeItem_eq_ok.mpr ⟨_, records_eq_ok_iff.mpr hvalues, htakes⟩
  have hsize : b.size = nodes := htakes.size_eq.trans (Assignment.size_ofSize nodes)
  rw [nodeMap, items_writeNodeMap hword, hpairs, List.mapIdx_append, List.mapIdx_cons, List.foldlM_append,
    hfold]
  show List.foldlM takeItem b _ = _
  rw [List.foldlM_cons, Nat.zero_add, takeItem_of_refused hsize hrefused]
  rfl

/-- If some pair is refused, one of them is the first. -/
theorem exists_first_refused (h : ¬∀ v host, a.host? v = some host → Accepted nodes v host) :
    ∃ before v host later, a.pairs = before ++ (v, host) :: later ∧ ¬Accepted nodes v host ∧
      ∀ pair ∈ before, Accepted nodes pair.1 pair.2 := by
  cases hfind : a.pairs.find? fun pair => ¬Accepted nodes pair.1 pair.2 with
  | none =>
      refine absurd (fun v host hv => ?_) h
      simpa using List.find?_eq_none.mp hfind (v, host) (Assignment.mem_pairs.mpr hv)
  | some pair =>
      obtain ⟨hrefused, before, later, hpairs, hbefore⟩ := List.find?_eq_some_iff_append.mp hfind
      exact ⟨before, pair.1, pair.2, later, hpairs, by simpa using hrefused, by simpa using hbefore⟩

/-- **What is read of a written node map.**  Take an assignment that has been built by giving hosts to nodes, with
slots added or not, whose nodes fit in a word, and read the node map that is written of it for any number of
nodes.  If all its hosts fit in a signed word and all nodes with a host are among that number, the result
has that number of slots, the same host for every node and the same count; so it is the same assignment
if the numbers of slots agree.  Otherwise the reader stops at the lowest node for which that fails: its line
cannot be read if the host does not fit, and else there is no such node. -/
theorem written_node_map_is_read (slots : Nat) (operations : List Assignment.Operation) (nodes : Nat) :
    let a := (Assignment.ofSize slots).afterAll operations
    let read := nodeMap (writeNodeMap a).toUTF8 nodes
    let accepted := ∀ v host, a.host? v = some host → host < Text.signedBound ∧ v < nodes
    a.size ≤ Text.wordBound →
      (accepted → ∃ b, read = .ok b ∧ b.size = nodes ∧ (∀ v, b.host? v = a.host? v) ∧
        b.assigned = a.assigned ∧ (nodes = a.size → b = a)) ∧
      (¬accepted → ∃ v host, a.host? v = some host ∧ ¬(host < Text.signedBound ∧ v < nodes) ∧
        (∀ w < v, ∀ other, a.host? w = some other → other < Text.signedBound ∧ w < nodes) ∧
        read = .error (if host < Text.signedBound then .nodeOutOfRange v nodes
          else .malformed (a.assignedBelow v + 1) (.host (Text.decimal host)))) := by
  intro a read accepted hsize
  have hcounted : a.Counted := (Assignment.counted_ofSize slots).afterAll operations
  have hword : ∀ v host, a.host? v = some host → v < Text.wordBound :=
    fun v host hv => Nat.lt_of_lt_of_le (Assignment.lt_size_of_host? hv) hsize
  constructor
  · intro haccepted
    have hfits : a.Fits := fun v host hv => ⟨hword v host hv, (haccepted v host hv).1⟩
    obtain ⟨b, hread, hb, hbsize, hhosts⟩ :=
      exists_nodeMap_writeNodeMap hfits fun v host hv => (haccepted v host hv).2
    refine ⟨b, hread, hbsize, hhosts, hb.assigned_eq hcounted hhosts, fun hslots => ?_⟩
    exact Assignment.eq_of_host? hb hcounted (hbsize.trans hslots) hhosts
  · intro hrefused
    obtain ⟨before, v, host, later, hpairs, hv, hbefore⟩ := exists_first_refused hrefused
    refine ⟨v, host, ?_, hv, ?_, ?_⟩
    · exact Assignment.mem_pairs.mp (by rw [hpairs]; simp)
    · -- a node with a host that is lower stands before, since the pairs are in ascending order
      intro w hw other hother
      exact hbefore (w, other) (Assignment.mem_before_of_lt hpairs hw hother)
    · rw [← Assignment.length_before hpairs]
      refine nodeMap_writeNodeMap_of_refused (fun pair hpair => ?_) hpairs hbefore hv
      exact hword pair.1 pair.2 (Assignment.mem_pairs.mp hpair)

/-- An assignment of four nodes, built with an operation that fails, is read back for four nodes and refused for
three.  With a host besides that does not fit in a signed word it is refused on the second line. -/
theorem written_node_map_is_read_up_to_limits :
    let built : List Assignment.Operation := [.assignGrowing 3 1, .assign 0 0, .assign 0 5]
    let a := (Assignment.ofSize 2).afterAll built
    let longer : List Assignment.Operation := built ++ [.assign 1 Text.signedBound]
    let large := (Assignment.ofSize 2).afterAll longer
    (a.size ≤ Text.wordBound ∧ large.size ≤ Text.wordBound) ∧
      nodeMap (writeNodeMap a).toUTF8 4 = .ok a ∧
      nodeMap (writeNodeMap a).toUTF8 3 = .error (.nodeOutOfRange 3 3) ∧
      nodeMap (writeNodeMap large).toUTF8 3 =
        .error (.malformed 2 (.host (Text.decimal Text.signedBound))) := by
  intro built a longer large
  have hpairs : a.pairs = [(0, 0), (3, 1)] := rfl
  have hlarge : large.pairs = [(0, 0), (1, Text.signedBound), (3, 1)] := rfl
  have hsize : a.size ≤ Text.wordBound := by decide
  have hsize' : large.size ≤ Text.wordBound := by decide
  refine ⟨⟨hsize, hsize'⟩, ?_, ?_, ?_⟩
  · have haccepted : ∀ v host, a.host? v = some host → host < Text.signedBound ∧ v < 4 := by
      intro v host hv
      rw [← Assignment.mem_pairs, hpairs] at hv
      simp only [List.mem_cons, Prod.mk.injEq, List.not_mem_nil, or_false] at hv
      obtain ⟨rfl, rfl⟩ | ⟨rfl, rfl⟩ := hv <;> decide
    obtain ⟨b, hread, -, -, -, hsame⟩ := (written_node_map_is_read 2 built 4 hsize).1 haccepted
    rw [hread, hsame rfl]
  · have hrefused : ¬∀ v host, a.host? v = some host → host < Text.signedBound ∧ v < 3 :=
      fun h => absurd (h 3 1 rfl) (by decide)
    obtain ⟨v, host, hv, hnot, -, hread⟩ := (written_node_map_is_read 2 built 3 hsize).2 hrefused
    rw [← Assignment.mem_pairs, hpairs] at hv
    simp only [List.mem_cons, Prod.mk.injEq, List.not_mem_nil, or_false] at hv
    obtain ⟨rfl, rfl⟩ | ⟨rfl, rfl⟩ := hv
    · exact absurd (by decide) hnot
    · exact hread
  · have hrefused : ¬∀ v host, large.host? v = some host → host < Text.signedBound ∧ v < 3 :=
      fun h => absurd (h 3 1 rfl) (by decide)
    obtain ⟨v, host, hv, hnot, hlower, hread⟩ := (written_node_map_is_read 2 longer 3 hsize').2 hrefused
    rw [← Assignment.mem_pairs, hlarge] at hv
    simp only [List.mem_cons, Prod.mk.injEq, List.not_mem_nil, or_false] at hv
    obtain ⟨rfl, rfl⟩ | ⟨rfl, rfl⟩ | ⟨rfl, rfl⟩ := hv
    · exact absurd (by decide) hnot
    · exact hread
    · exact absurd (hlower 1 (by decide) Text.signedBound rfl) (by decide)

end Listing

end GraphPlacement
