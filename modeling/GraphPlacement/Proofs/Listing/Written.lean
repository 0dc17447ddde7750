import GraphPlacement.Listing.Placements
import GraphPlacement.Proofs.Listing.Entries
import Mathlib.Data.List.Nodup

/-!
# Listings that are written and read back

**Placements** whose numbers fit in a word are read back from what is written of them
(`placements_writePlacements`).

**Node maps.** The host of a node is read as a signed number, so it has to fit in a signed word
(`items_writeNodeMap`).  If all do, the entries of a written node map are the pairs of the assignment, in the
same order (`entries_writeNodeMap`).  They are for different nodes, so nothing keeps them from being taken
(`exists_takesAll_entries`), and that ends with the hosts that were written, for any number of nodes that has
those with a host among it (`exists_nodeMap_writeNodeMap`): with the assignment itself
(`nodeMap_writeNodeMap`), or with more empty slots if the map is read for more nodes.
-/

namespace GraphPlacement

/-- Whether what is written of an assignment can be read. -/
def Assignment.Fits (a : Assignment) : Prop :=
  ∀ v host, a.host? v = some host → v < Text.wordBound ∧ host < Text.signedBound

/-- Whether the numbers of a placed edge can be read. -/
structure Placed.Fits (p : Placed) : Prop where
  src : p.src < Text.wordBound
  dst : p.dst < Text.wordBound
  host : p.host < Text.wordBound

namespace Listing

variable {a : Assignment}

/-! ## Lines of numbers -/

theorem lineFeed_not_mem_decimal (n : Nat) : '\n' ∉ (Text.decimal n).toList := by
  intro h
  have hdigit := Text.isDigit_of_mem_decimal h
  exact absurd hdigit (by decide)

/-! ## Placements -/

/-- What is written of a placed edge, without the ending of its line. -/
def placedText (p : Placed) : String :=
  Text.decimal p.src ++ (" " ++ (Text.decimal p.dst ++ (" " ++ Text.decimal p.host)))

theorem placedLine_eq (p : Placed) : placedLine p = placedText p ++ "\n" := by
  simp [placedLine, placedText, String.append_assoc]

theorem readPlaced_placedText {p : Placed} (h : p.Fits) (line : Nat) :
    readPlaced line (Text.chomp (placedText p)) = .ok (some p) := by
  have hfields : Text.fields (Text.chomp (placedText p)) =
      [Text.decimal p.src, Text.decimal p.dst, Text.decimal p.host] := by
    rw [Text.fields_chomp, placedText, Text.fields_word_blank (Text.isWord_decimal _),
      Text.fields_word_blank (Text.isWord_decimal _), Text.fields_word (Text.isWord_decimal _)]
  have hread : readField line .host Text.natural? (Text.decimal p.host) = .ok p.host :=
    readField_eq_ok.mpr (Text.natural?_decimal h.host)
  simp only [readPlaced, hfields, hread, readNode_decimal h.src, readNode_decimal h.dst]
  rfl

theorem placements_writePlacements {ps : List Placed} (h : ∀ p ∈ ps, p.Fits) :
    placements (writePlacements ps).toUTF8 = .ok ps := by
  have hread : ∀ p ∈ ps, ∀ line, readPlaced line (Text.chomp (placedText p)) = .ok (some (id p)) :=
    fun p hp line => readPlaced_placedText (h p hp) line
  have hline : ∀ p ∈ ps, '\n' ∉ (placedText p).toList := by
    intro p _
    simp [placedText, lineFeed_not_mem_decimal]
  rw [placements, records_eq_ok_iff, writePlacements, funext placedLine_eq, items_join hline hread,
    List.map_id]

/-! ## Node maps -/

def entryOf (pair : Nat × Nat) : NodeEntry := ⟨pair.1, pair.2⟩

/-- What is written of a pair, without the ending of its line. -/
def entryText (pair : Nat × Nat) : String :=
  Text.decimal pair.1 ++ (" " ++ Text.decimal pair.2)

theorem entryLine_eq (pair : Nat × Nat) : entryLine pair = entryText pair ++ "\n" := by
  simp [entryLine, entryText, String.append_assoc]

/-- What is read of a pair that was written: a host has to fit in a signed word. -/
def entryRead (line : Nat) (pair : Nat × Nat) : Except Fault NodeEntry :=
  if pair.2 < Text.signedBound then .ok (entryOf pair)
  else .error (.malformed line (.host (Text.decimal pair.2)))

theorem readEntry_entryText {pair : Nat × Nat} (hnode : pair.1 < Text.wordBound) (line : Nat) :
    readEntry line (Text.chomp (entryText pair)) = (entryRead line pair).map some := by
  have hfields : Text.fields (Text.chomp (entryText pair)) =
      [Text.decimal pair.1, Text.decimal pair.2] := by
    rw [Text.fields_chomp, entryText, Text.fields_word_blank (Text.isWord_decimal _),
      Text.fields_word (Text.isWord_decimal _)]
  simp only [readEntry, hfields, readNode_decimal hnode, readField, Text.integer?_decimal, entryRead]
  by_cases hhost : pair.2 < Text.signedBound
  · simp only [if_pos hhost]
    rfl
  · simp only [if_neg hhost]
    rfl

/-- The items of a written node map are what is read of the pairs of the assignment. -/
theorem items_writeNodeMap (h : ∀ pair ∈ a.pairs, pair.1 < Text.wordBound) :
    items readEntry (writeNodeMap a).toUTF8 =
      a.pairs.mapIdx fun i pair => ⟨i + 1, entryRead (i + 1) pair⟩ := by
  rw [writeNodeMap, funext entryLine_eq]
  refine items_texts entryRead ?_ fun pair hpair line => readEntry_entryText (h pair hpair) line
  intro pair _
  simp [entryText, lineFeed_not_mem_decimal]

/-- Pairs whose hosts fit are read as they are. -/
theorem values_entryRead {pairs : List (Nat × Nat)} (h : ∀ pair ∈ pairs, pair.2 < Text.signedBound) :
    (pairs.mapIdx fun i pair => (⟨i + 1, entryRead (i + 1) pair⟩ : Item NodeEntry)).map Item.value =
      (pairs.map entryOf).map Except.ok := by
  refine List.ext_getElem (by simp) fun i hi _ => ?_
  have hlt : i < pairs.length := by simpa using hi
  have hread : entryRead (i + 1) pairs[i] = .ok (entryOf pairs[i]) := if_pos (h _ (List.getElem_mem hlt))
  simp [hread]

/-- The entries of a written node map are the pairs of the assignment, if these fit. -/
theorem entries_writeNodeMap (h : a.Fits) :
    (items readEntry (writeNodeMap a).toUTF8).map Item.value =
      (a.pairs.map entryOf).map Except.ok := by
  have hfits : ∀ pair ∈ a.pairs, pair.1 < Text.wordBound ∧ pair.2 < Text.signedBound :=
    fun pair hpair => h pair.1 pair.2 (Assignment.mem_pairs.mp hpair)
  rw [items_writeNodeMap fun pair hpair => (hfits pair hpair).1]
  exact values_entryRead fun pair hpair => (hfits pair hpair).2

/-- When there is nothing yet, a node is on a host exactly if it is paired with it. -/
theorem onHost_entries_iff {pairs : List (Nat × Nat)} {nodes v host : Nat} :
    OnHost (.ofSize nodes) (pairs.map entryOf) v host ↔ (v, host) ∈ pairs := by
  rw [OnHost, Assignment.host?_ofSize, List.mem_map]
  constructor
  · rintro (hnone | ⟨pair, hpair, heq⟩)
    · cases hnone
    · obtain ⟨rfl, hhost⟩ := NodeEntry.mk.inj heq
      rw [← Int.ofNat.inj hhost]
      exact hpair
  · exact fun hpair => Or.inr ⟨(v, host), hpair, rfl⟩

/-- Pairs of different nodes can then all be taken. -/
theorem exists_takesAll_entries {pairs : List (Nat × Nat)} {nodes : Nat}
    (hnodup : (pairs.map Prod.fst).Nodup) (hlt : ∀ pair ∈ pairs, pair.1 < nodes) :
    ∃ b, TakesAll (.ofSize nodes) (pairs.map entryOf) b := by
  refine exists_takesAll (fun e he => ?_) fun v host other hhost hother => ?_
  · obtain ⟨pair, hpair, rfl⟩ := List.mem_map.mp he
    rw [Assignment.size_ofSize]
    exact ⟨hlt pair hpair, Or.inr (Int.natCast_nonneg pair.2)⟩
  · rw [onHost_entries_iff] at hhost hother
    exact congrArg Prod.snd (List.inj_on_of_nodup_map hnodup hhost hother rfl)

/-- A node map is read back for any number of nodes that has those with a host among it. -/
theorem exists_nodeMap_writeNodeMap (hfits : a.Fits) {nodes : Nat}
    (hnodes : ∀ v host, a.host? v = some host → v < nodes) :
    ∃ b, nodeMap (writeNodeMap a).toUTF8 nodes = .ok b ∧ b.Counted ∧ b.size = nodes ∧
      ∀ v, b.host? v = a.host? v := by
  obtain ⟨b, htakes⟩ := exists_takesAll_entries a.nodes_nodup fun pair hpair =>
    hnodes pair.1 pair.2 (Assignment.mem_pairs.mp hpair)
  have hread : nodeMap (writeNodeMap a).toUTF8 nodes = .ok b :=
    foldlM_takeItem_eq_ok.mpr ⟨_, records_eq_ok_iff.mpr (entries_writeNodeMap hfits), htakes⟩
  refine ⟨b, hread, counted_of_nodeMap hread, size_nodeMap hread, fun v => Option.ext fun host => ?_⟩
  rw [htakes.host?_iff, onHost_entries_iff, Assignment.mem_pairs]

/-- A node map is read back as the assignment of which it was written, with empty slots added if there
are more nodes. -/
theorem nodeMap_writeNodeMap_growTo (ha : a.Counted) (hfits : a.Fits) {nodes : Nat}
    (hnodes : a.size ≤ nodes) : nodeMap (writeNodeMap a).toUTF8 nodes = .ok (a.growTo nodes) := by
  obtain ⟨b, hread, hb, hsize, hhosts⟩ := exists_nodeMap_writeNodeMap hfits fun v host hv =>
    Nat.lt_of_lt_of_le (Assignment.lt_size_of_host? hv) hnodes
  rw [hread, Except.ok.injEq]
  refine Assignment.eq_of_host? hb (ha.growTo nodes) ?_ fun v => ?_
  · rw [hsize, Assignment.size_growTo, Nat.max_eq_right hnodes]
  · rw [hhosts, Assignment.host?_growTo]

/-- **A node map is read back** as the assignment of which it was written. -/
theorem nodeMap_writeNodeMap (ha : a.Counted) (hfits : a.Fits) :
    nodeMap (writeNodeMap a).toUTF8 a.size = .ok a := by
  rw [nodeMap_writeNodeMap_growTo ha hfits (Nat.le_refl _), Assignment.growTo_size]

end Listing

end GraphPlacement
