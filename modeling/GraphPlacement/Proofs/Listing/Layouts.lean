import GraphPlacement.Proofs.Decimal.Reader
import GraphPlacement.Proofs.Listing.Groups
import GraphPlacement.Proofs.Text.Gaps

/-!
# The layouts of a group line

**Two layouts.** A line with fields is a group in one of two layouts, or it is malformed, as long as the double of
the number of edges that it declares is a word.  The layouts exclude each other: a line with as many fields as
edges has no weights, and a line without edges is none with weights (`GroupRead.length_fields`).

**Writing.** A node and its edges can be written in fields with any blanks between and around them
(`targetFields`, `pairFields`); what is written like that is read as this node and these edges.
-/

namespace GraphPlacement.Listing

variable {fields raws : List String} {node line v : Nat} {es : List Edge} {weighted : Bool}
variable {text : String} {g : GroupLine}

/-! ## What is read -/

/-- A line has two fields more than its edges take. -/
theorem GroupRead.length_fields (h : GroupRead fields node es weighted) :
    fields.length = (if weighted then 2 * es.length else es.length) + 2 := by
  obtain ⟨_, _, rest, _, rfl, -, -, hedges⟩ := h
  rw [List.length_cons, List.length_cons, hedges.length_eq]

theorem GroupLine.mem_group : v ∈ g.group.neighbours ↔ ∃ e ∈ g.edges, e.dst = v := by
  rw [GroupLine.group, Group.mem_ofList, List.mem_map]

/-! ## Malformed lines -/

/-- A line with fields that are read in no way is malformed. -/
theorem readGroup_malformed (hfields : Text.fields text ≠ [])
    (hnone : ¬∃ node es weighted, GroupRead (Text.fields text) node es weighted) :
    ∃ reason, readGroup line text = .error (.malformed line reason) := by
  cases hread : readGroup line text with
  | error fault =>
      obtain ⟨reason, rfl⟩ := failsOn_readGroup line text fault hread
      exact ⟨reason, rfl⟩
  | ok answer =>
      cases answer with
      | none => exact absurd (readGroup_eq_none.mp hread) hfields
      | some g => exact absurd ⟨_, _, _, (readGroup_eq_ok.mp hread).1⟩ hnone

/-! ## Writing -/

/-- The fields of a node and the targets of its edges. -/
def targetFields (node : Nat) (dsts : List Nat) : List String :=
  Text.decimal node :: Text.decimal dsts.length :: dsts.map Text.decimal

/-- The fields of a node with the targets and weights of its edges: a weight comes with the text in which it is
written. -/
def pairFields (node : Nat) (pairs : List (Nat × String × Float)) : List String :=
  Text.decimal node :: Text.decimal pairs.length ::
    (pairs.map fun pair => (Text.decimal pair.1, pair.2.1)).flatMap fun raw => [raw.1, raw.2]

theorem readGroup_of_spaced (hspaced : Text.Spaced fields text.toList) (hwords : ∀ w ∈ fields, Text.IsWord w)
    (hread : GroupRead fields node es weighted) (line : Nat) :
    readGroup line text = .ok (some ⟨node, es, weighted, text⟩) := by
  refine readGroup_eq_ok.mpr ⟨?_, rfl⟩
  rw [Text.fields_eq_iff.mpr ⟨hspaced, hwords⟩]
  exact hread

theorem forall₂_isTarget {dsts : List Nat} (h : ∀ dst ∈ dsts, dst < Text.wordBound) :
    List.Forall₂ (IsTarget node) (dsts.map Text.decimal) (dsts.map fun dst => { src := node, dst }) := by
  rw [List.forall₂_map_left_iff, List.forall₂_map_right_iff, List.forall₂_same]
  intro dst hdst
  exact ⟨rfl, Text.natural?_decimal (h dst hdst), rfl⟩

/-- **Targets that are written** with any blanks are read as they are. -/
theorem readGroup_targetFields {dsts : List Nat} (hnode : node < Text.wordBound)
    (hcount : dsts.length < Text.wordBound) (hdsts : ∀ dst ∈ dsts, dst < Text.wordBound)
    (hspaced : Text.Spaced (targetFields node dsts) text.toList) (line : Nat) :
    readGroup line text = .ok (some ⟨node, dsts.map fun dst => { src := node, dst }, false, text⟩) := by
  refine readGroup_of_spaced hspaced ?_
    ⟨_, _, _, _, rfl, Text.natural?_decimal hnode, Text.natural?_decimal hcount, ?_⟩ line
  · simp [targetFields, Text.isWord_decimal]
  · exact .targets (forall₂_isTarget hdsts) (List.length_map _)

theorem isWord_of_mem_pairFields {pairs : List (Nat × String × Float)}
    (hpairs : ∀ pair ∈ pairs, Decimal.read? pair.2.1 = some pair.2.2) :
    ∀ w ∈ pairFields node pairs, Text.IsWord w := by
  intro w hw
  simp only [pairFields, List.mem_cons, List.mem_flatMap, List.mem_map, List.not_mem_nil, or_false] at hw
  rcases hw with rfl | rfl | ⟨_, ⟨pair, hpair, rfl⟩, rfl | rfl⟩
  · exact Text.isWord_decimal _
  · exact Text.isWord_decimal _
  · exact Text.isWord_decimal _
  · exact Decimal.isWord_of_read? (hpairs pair hpair)

theorem edgeLayout_pairs {pairs : List (Nat × String × Float)}
    (hpairs : ∀ pair ∈ pairs, pair.1 < Text.wordBound ∧ Decimal.read? pair.2.1 = some pair.2.2) :
    EdgeLayout node ((pairs.map fun pair => (Text.decimal pair.1, pair.2.1)).flatMap fun raw => [raw.1, raw.2])
      (pairs.map fun pair => ⟨node, pair.1, pair.2.2⟩) (!pairs.isEmpty) := by
  cases pairs with
  | nil => exact .targets .nil
  | cons pair pairs =>
      refine .pairs ?_ (by simp)
      rw [List.forall₂_map_left_iff, List.forall₂_map_right_iff, List.forall₂_same]
      intro pair hpair
      obtain ⟨hdst, hweight⟩ := hpairs pair hpair
      exact ⟨rfl, Text.natural?_decimal hdst, hweight⟩

/-- **Pairs that are written** with any blanks are read as they are; without any pair there are no weights. -/
theorem readGroup_pairFields {pairs : List (Nat × String × Float)} (hnode : node < Text.wordBound)
    (hcount : pairs.length < Text.signedBound)
    (hpairs : ∀ pair ∈ pairs, pair.1 < Text.wordBound ∧ Decimal.read? pair.2.1 = some pair.2.2)
    (hspaced : Text.Spaced (pairFields node pairs) text.toList) (line : Nat) :
    readGroup line text =
      .ok (some ⟨node, pairs.map fun pair => ⟨node, pair.1, pair.2.2⟩, !pairs.isEmpty, text⟩) := by
  have hwords : ∀ w ∈ pairFields node pairs, Text.IsWord w :=
    isWord_of_mem_pairFields fun pair hpair => (hpairs pair hpair).2
  have hword : pairs.length < Text.wordBound := Nat.lt_of_lt_of_le hcount (Nat.div_le_self _ _)
  refine readGroup_of_spaced hspaced hwords ?_ line
  exact ⟨_, _, _, _, rfl, Text.natural?_decimal hnode, Text.natural?_decimal hword,
    (edgesRead_iff_layout hcount).mpr ⟨(List.length_map _).symm, edgeLayout_pairs hpairs⟩⟩

/-! ## Group lines -/

/-- **A group line is read by its layout.**  A line without fields has no group.  A line with fields, which
declares less than `2 ^ 63` edges if it declares any number, has a group exactly if its fields are laid out as one:
a node, the number of edges, and then as many targets, or targets and weights in turn of at least one edge; any
other such line is malformed, under its own number.  The group is what the fields say, with the text of the line;
the number of fields tells its degree, and its neighbours are the targets.  So whatever blanks part the fields in
which a node and its edges are written, they are read as these. -/
theorem group_line_is_read_by_layout (line : Nat) (text : String) :
    (Text.fields text = [] → readGroup line text = .ok none) ∧
    (Text.fields text ≠ [] → (∀ c ∈ declared? (Text.fields text), c < Text.signedBound) →
      (∀ g, readGroup line text = .ok (some g) ↔
        GroupLayout (Text.fields text) g.node g.edges g.weighted ∧ g.text = text) ∧
      ((¬∃ node es weighted, GroupLayout (Text.fields text) node es weighted) →
        ∃ reason, readGroup line text = .error (.malformed line reason))) ∧
    (∀ g, readGroup line text = .ok (some g) →
      (Text.fields text).length = (if g.weighted then 2 * g.degree else g.degree) + 2 ∧
      g.group.node = g.node ∧ ∀ v, v ∈ g.group.neighbours ↔ ∃ e ∈ g.edges, e.dst = v) ∧
    (∀ node dsts, node < Text.wordBound → dsts.length < Text.wordBound →
      (∀ dst ∈ dsts, dst < Text.wordBound) → Text.Spaced (targetFields node dsts) text.toList →
      readGroup line text = .ok (some ⟨node, dsts.map fun dst => { src := node, dst }, false, text⟩)) ∧
    ∀ node pairs, node < Text.wordBound → pairs.length < Text.signedBound →
      (∀ pair ∈ pairs, pair.1 < Text.wordBound ∧ Decimal.read? pair.2.1 = some pair.2.2) →
      Text.Spaced (pairFields node pairs) text.toList →
      readGroup line text =
        .ok (some ⟨node, pairs.map fun pair => ⟨node, pair.1, pair.2.2⟩, !pairs.isEmpty, text⟩) := by
  refine ⟨readGroup_eq_none.mpr, ?_, ?_, ?_, ?_⟩
  · intro hfields hsmall
    refine ⟨fun g => ?_, fun hnone => readGroup_malformed hfields ?_⟩
    · rw [readGroup_eq_ok, groupRead_iff_layout hsmall]
    · rintro ⟨node, es, weighted, hread⟩
      exact hnone ⟨node, es, weighted, (groupRead_iff_layout hsmall).mp hread⟩
  · intro g hread
    obtain ⟨hfields, -⟩ := readGroup_eq_ok.mp hread
    exact ⟨hfields.length_fields, rfl, fun v => GroupLine.mem_group⟩
  · intro node dsts hnode hcount hdsts hspaced
    exact readGroup_targetFields hnode hcount hdsts hspaced line
  · intro node pairs hnode hcount hpairs hspaced
    exact readGroup_pairFields hnode hcount hpairs hspaced line

/-- Two pairs between blanks of several kinds.  With a field less the line is malformed, since there is no
number of edges that has an odd number of fields other than itself. -/
theorem group_line_is_read_by_layout_of_pairs :
    let text := "4\t2  7 1.0\u00a09 0.5\u3000"
    let pairs : List (Nat × String × Float) := [(7, "1.0", 1.0), (9, "0.5", 0.5)]
    Text.Spaced (pairFields 4 pairs) text.toList ∧
      readGroup 3 text = .ok (some ⟨4, [⟨4, 7, 1.0⟩, ⟨4, 9, 0.5⟩], true, text⟩) ∧
      ∃ reason, readGroup 3 "4 2 7 1.0 9" = .error (.malformed 3 reason) := by
  intro text pairs
  have hfields : Text.fields text = pairFields 4 pairs := by decide +kernel
  have hspaced := (Text.fields_eq_iff.mp hfields).1
  have hpairs : ∀ pair ∈ pairs, pair.1 < Text.wordBound ∧ Decimal.read? pair.2.1 = some pair.2.2 := by
    decide +kernel
  refine ⟨hspaced, ?_, ?_⟩
  · exact (group_line_is_read_by_layout 3 text).2.2.2.2 4 pairs (by decide) (by decide) hpairs hspaced
  · have hodd : Text.fields "4 2 7 1.0 9" = ["4", "2", "7", "1.0", "9"] := by decide +kernel
    have htwo : Text.natural? "2" = some 2 := by decide +kernel
    have hsmall : ∀ c ∈ declared? (Text.fields "4 2 7 1.0 9"), c < Text.signedBound := by decide +kernel
    refine ((group_line_is_read_by_layout 3 "4 2 7 1.0 9").2.1 (by simp [hodd]) hsmall).2 ?_
    rintro ⟨node, es, weighted, hlayout⟩
    have hlength := ((groupRead_iff_layout hsmall).mpr hlayout).length_fields
    rw [hodd] at hlayout hlength
    obtain ⟨_, _, _, hsame, -, hcount, -⟩ := hlayout
    cases hsame
    rw [htwo] at hcount
    have hdegree : 2 = es.length := Option.some.inj hcount
    simp only [List.length_cons, List.length_nil] at hlength
    split at hlength <;> omega

/-- With half as many edges as there are words the double wraps to none, and a line without edges passes for one
with weights. -/
example : readGroup 1 "5 9223372036854775808" =
    .ok (some ⟨5, [], true, "5 9223372036854775808"⟩) := by decide +kernel

end GraphPlacement.Listing
