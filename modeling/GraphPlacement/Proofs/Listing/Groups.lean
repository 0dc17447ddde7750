import GraphPlacement.Listing.Groups
import GraphPlacement.Proofs.Listing.Content
import Mathlib.Data.List.Forall2

/-!
# Group lines

**Layouts.** The edges of a node stand on its line in one of two ways, and how many fields there are tells in
which: as many as edges, or twice as many of which there is one at least (`EdgeLayout`).

**Lengths that wrap.** Reading holds the number of fields against the number of edges that the line declares and
against its double, which wraps (`EdgesRead`).  Below half of the words it does not, and then reading a line finds
the group that its fields are laid out as (`groupRead_iff_layout`).

**Numbers of lines** matter to faults only: a group that can be read on one line of a listing can be read
on any other, with the same node and edges (`readGroup_copy`).

**Faults.** A line on which no group can be read is malformed, whichever of its fields it is for
(`failsOn_readGroup`).

**Copies.** A group keeps the text of its line, which has no line feed.  So groups whose texts are written
one on a line are read back from there, as the same groups but for a carriage return that a text may
lose: `allGroups_copy`.
-/

namespace GraphPlacement.Listing

variable {line node declared : Nat} {text other : String} {g : GroupLine} {raws : List String}
variable {es : List Edge} {weighted : Bool} {content : ByteArray}

/-! ## Layouts -/

/-- Whether a field gives the target of an edge, which then has no weight of its own. -/
structure IsTarget (node : Nat) (raw : String) (e : Edge) : Prop where
  src : e.src = node
  dst : Text.natural? raw = some e.dst
  weight : e.weight = 1.0

/-- Whether two fields give the target and the weight of an edge. -/
structure IsPair (node : Nat) (raw : String × String) (e : Edge) : Prop where
  src : e.src = node
  dst : Text.natural? raw.1 = some e.dst
  weight : Decimal.read? raw.2 = some e.weight

/-- The two ways in which the edges of a node stand on a line.  The flag tells whether they have weights. -/
inductive EdgeLayout (node : Nat) : List String → List Edge → Bool → Prop
  /-- A target for each edge. -/
  | targets {raws : List String} {es : List Edge} (h : List.Forall₂ (IsTarget node) raws es) :
      EdgeLayout node raws es false
  /-- A target and a weight for each edge, of which there is at least one. -/
  | pairs {raws : List (String × String)} {es : List Edge} (h : List.Forall₂ (IsPair node) raws es)
      (hne : es ≠ []) : EdgeLayout node (raws.flatMap fun raw => [raw.1, raw.2]) es true

/-- What the fields of a line say: a node, the number of its edges, and these edges. -/
def GroupLayout (fields : List String) (node : Nat) (es : List Edge) (weighted : Bool) : Prop :=
  ∃ first second rest, fields = first :: second :: rest ∧ Text.natural? first = some node ∧
    Text.natural? second = some es.length ∧ EdgeLayout node rest es weighted

/-- What the fields after the number of edges that a line declares are read as. -/
inductive EdgesRead (node declared : Nat) : List String → List Edge → Bool → Prop
  /-- A target for each edge. -/
  | targets {raws : List String} {es : List Edge} (h : List.Forall₂ (IsTarget node) raws es)
      (hcount : es.length = declared) : EdgesRead node declared raws es false
  /-- A target and a weight for each edge; the number of fields is the double of what is declared, as a word. -/
  | pairs {raws : List (String × String)} {es : List Edge} (h : List.Forall₂ (IsPair node) raws es)
      (hcount : 2 * es.length = 2 * declared % UInt64.size) (hne : 2 * es.length ≠ declared) :
      EdgesRead node declared (raws.flatMap fun raw => [raw.1, raw.2]) es true

/-- What the fields of a line are read as: a node, a number of edges, and edges. -/
def GroupRead (fields : List String) (node : Nat) (es : List Edge) (weighted : Bool) : Prop :=
  ∃ first second rest declared, fields = first :: second :: rest ∧ Text.natural? first = some node ∧
    Text.natural? second = some declared ∧ EdgesRead node declared rest es weighted

/-- The number of edges that a line declares in its second field. -/
def declared? (fields : List String) : Option Nat := fields[1]?.bind Text.natural?

theorem length_flatMap_pair (raws : List (String × String)) :
    (raws.flatMap fun raw => [raw.1, raw.2]).length = 2 * raws.length := by
  induction raws with
  | nil => rfl
  | cons raw raws ih =>
      rw [List.flatMap_cons, List.length_append, ih]
      simp only [List.length_cons, List.length_nil]
      omega

/-- What holds of each of some edges that fields give one by one. -/
theorem forall_mem_of_forall₂ {α : Type} {R : α → Edge → Prop} {P : Edge → Prop} {raws : List α}
    (h : List.Forall₂ R raws es) (hP : ∀ raw e, R raw e → P e) : ∀ e ∈ es, P e := by
  induction h with
  | nil => simp
  | cons hfirst _ ih => exact List.forall_mem_cons.mpr ⟨hP _ _ hfirst, ih⟩

theorem EdgesRead.src_eq (h : EdgesRead node declared raws es weighted) : ∀ e ∈ es, e.src = node := by
  cases h with
  | targets h _ => exact forall_mem_of_forall₂ h fun _ _ htarget => htarget.src
  | pairs h _ _ => exact forall_mem_of_forall₂ h fun _ _ hpair => hpair.src

theorem EdgesRead.length_eq (h : EdgesRead node declared raws es weighted) :
    raws.length = if weighted then 2 * es.length else es.length := by
  cases h with
  | targets h _ => exact h.length_eq
  | pairs h _ _ => rw [length_flatMap_pair, h.length_eq, if_pos rfl]

/-- Less than half as many edges as there are words are read as they are laid out. -/
theorem edgesRead_iff_layout (hsmall : declared < Text.signedBound) :
    EdgesRead node declared raws es weighted ↔ declared = es.length ∧ EdgeLayout node raws es weighted := by
  have hdouble : 2 * declared % UInt64.size = 2 * declared :=
    Nat.mod_eq_of_lt (by rw [Text.signedBound, Text.wordBound] at hsmall; omega)
  constructor
  · intro h
    cases h with
    | targets h hcount => exact ⟨hcount.symm, .targets h⟩
    | pairs h hcount hne =>
        rw [hdouble] at hcount
        refine ⟨by omega, .pairs h ?_⟩
        rintro rfl
        rw [List.length_nil] at hcount hne
        omega
  · rintro ⟨rfl, h⟩
    cases h with
    | targets h => exact .targets h rfl
    | pairs h hne =>
        have hpos := List.length_pos_iff.mpr hne
        exact .pairs h hdouble.symm (by omega)

theorem groupRead_iff_layout {fields : List String} (hsmall : ∀ c ∈ declared? fields, c < Text.signedBound) :
    GroupRead fields node es weighted ↔ GroupLayout fields node es weighted := by
  constructor
  · rintro ⟨first, second, rest, declared, rfl, hnode, hdeclared, hread⟩
    obtain ⟨rfl, hlayout⟩ := (edgesRead_iff_layout (hsmall _ hdeclared)).mp hread
    exact ⟨first, second, rest, rfl, hnode, hdeclared, hlayout⟩
  · rintro ⟨first, second, rest, rfl, hnode, hdeclared, hlayout⟩
    exact ⟨first, second, rest, _, rfl, hnode, hdeclared,
      (edgesRead_iff_layout (hsmall _ hdeclared)).mpr ⟨rfl, hlayout⟩⟩

/-! ## Reading a layout -/

theorem readTargets_eq_ok : readTargets line node raws = .ok es ↔ List.Forall₂ (IsTarget node) raws es := by
  induction raws generalizing es with
  | nil =>
      rw [List.forall₂_nil_left_iff]
      exact ⟨fun h => (Except.ok.inj h).symm, fun h => h ▸ rfl⟩
  | cons raw raws ih =>
      rw [readTargets, List.mapM_cons, Step.except_bind_eq_ok, List.forall₂_cons_left_iff]
      constructor
      · rintro ⟨e, he, h⟩
        obtain ⟨later, hlater, h⟩ := Step.except_bind_eq_ok.mp h
        obtain ⟨dst, hdst, hmade⟩ := Step.except_bind_eq_ok.mp he
        cases hmade
        cases h
        exact ⟨_, later, ⟨rfl, readNode_eq_ok.mp hdst, rfl⟩, ih.mp hlater, rfl⟩
      · rintro ⟨⟨src, dst, weight⟩, later, ⟨rfl, hdst, rfl⟩, hlater, rfl⟩
        refine ⟨_, Step.except_bind_eq_ok.mpr ⟨dst, readNode_eq_ok.mpr hdst, rfl⟩, ?_⟩
        exact Step.except_bind_eq_ok.mpr ⟨later, ih.mpr hlater, rfl⟩

/-- Reading in pairs takes all fields, if their number is even. -/
theorem readPairs_eq_ok {count : Nat} (hcount : raws.length = 2 * count) :
    readPairs line node raws = .ok es ↔ ∃ pairs : List (String × String),
      raws = pairs.flatMap (fun raw => [raw.1, raw.2]) ∧ List.Forall₂ (IsPair node) pairs es := by
  induction raws using readPairs.induct generalizing es count with
  | case1 dst weight rest ih =>
      simp only [List.length_cons] at hcount
      have hlater : ∀ {later : List Edge}, readPairs line node rest = .ok later ↔ _ :=
        ih (show rest.length = 2 * (count - 1) by omega)
      rw [readPairs, Step.except_bind_eq_ok]
      constructor
      · rintro ⟨w, hw, h⟩
        obtain ⟨d, hd, h⟩ := Step.except_bind_eq_ok.mp h
        obtain ⟨later, hrest, h⟩ := Step.except_bind_eq_ok.mp h
        cases h
        obtain ⟨pairs, rfl, hpairs⟩ := hlater.mp hrest
        have hpair : IsPair node (dst, weight) ⟨node, d, w⟩ :=
          ⟨rfl, readNode_eq_ok.mp hd, readField_eq_ok.mp hw⟩
        exact ⟨(dst, weight) :: pairs, rfl, .cons hpair hpairs⟩
      · rintro ⟨pairs, hraws, hpairs⟩
        cases hpairs with
        | nil => cases hraws
        | @cons pair e pairs later hpair hpairs =>
            obtain ⟨src, d, w⟩ := e
            obtain ⟨rfl, hd, hw⟩ := hpair
            simp only [List.flatMap_cons, List.cons_append, List.nil_append, List.cons.injEq] at hraws
            obtain ⟨rfl, rfl, hraws⟩ := hraws
            refine ⟨w, readField_eq_ok.mpr hw, Step.except_bind_eq_ok.mpr ⟨d, readNode_eq_ok.mpr hd, ?_⟩⟩
            exact Step.except_bind_eq_ok.mpr ⟨later, hlater.mpr ⟨pairs, hraws, hpairs⟩, rfl⟩
  | case2 raws hshort =>
      -- A single field would be left out by the scan, but the number of fields is even.
      have hnil : raws = [] := by
        match raws, hcount with
        | [], _ => rfl
        | [raw], hcount => simp only [List.length_cons, List.length_nil] at hcount; omega
        | dst :: weight :: rest, _ => exact absurd rfl (hshort dst weight rest)
      subst hnil
      rw [readPairs]
      · constructor
        · intro h
          cases h
          exact ⟨[], rfl, .nil⟩
        · rintro ⟨pairs, hraws, hpairs⟩
          cases hpairs with
          | nil => rfl
          | cons _ _ => cases hraws
      · simp

theorem readGroupEdges_eq_ok :
    readGroupEdges line node declared raws = .ok (es, weighted) ↔ EdgesRead node declared raws es weighted := by
  unfold readGroupEdges
  constructor
  · intro h
    split at h
    case isTrue htargets =>
      obtain ⟨_, hes, hresult⟩ := Step.except_bind_eq_ok.mp h
      cases hresult
      have hread := readTargets_eq_ok.mp hes
      exact .targets hread (hread.length_eq.symm.trans htargets)
    case isFalse htargets =>
      split at h
      case isTrue hpairs =>
        obtain ⟨_, hes, hresult⟩ := Step.except_bind_eq_ok.mp h
        cases hresult
        -- the number of words is even, so what the double wraps to is so too
        have heven : raws.length = 2 * (declared % (UInt64.size / 2)) := by
          rw [hpairs, UInt64.size]
          omega
        obtain ⟨pairs, rfl, hread⟩ := (readPairs_eq_ok heven).mp hes
        rw [length_flatMap_pair, hread.length_eq] at htargets hpairs
        exact .pairs hread hpairs htargets
      case isFalse => cases h
  · intro h
    cases h with
    | targets hread hcount =>
        rw [if_pos (hread.length_eq.trans hcount)]
        exact Step.except_bind_eq_ok.mpr ⟨es, readTargets_eq_ok.mpr hread, rfl⟩
    | @pairs pairs _ hread hcount hne =>
        have htwice : (pairs.flatMap fun raw => [raw.1, raw.2]).length = 2 * es.length := by
          rw [length_flatMap_pair, hread.length_eq]
        rw [if_neg (htwice ▸ hne), if_pos (htwice.trans hcount)]
        exact Step.except_bind_eq_ok.mpr ⟨es, (readPairs_eq_ok htwice).mpr ⟨pairs, rfl, hread⟩, rfl⟩

/-- A line gives a group exactly when its fields are read as one. -/
theorem readGroup_eq_ok : readGroup line text = .ok (some g) ↔
    GroupRead (Text.fields text) g.node g.edges g.weighted ∧ g.text = text := by
  unfold readGroup
  constructor
  · intro h
    split at h
    case h_1 => cases h
    case h_2 first raws hfields =>
      obtain ⟨node, hnode, h⟩ := Step.except_bind_eq_ok.mp h
      cases raws with
      | nil => cases h
      | cons second rest =>
          obtain ⟨declared, hdeclared, h⟩ := Step.except_bind_eq_ok.mp h
          obtain ⟨⟨es, weighted⟩, hedges, h⟩ := Step.except_bind_eq_ok.mp h
          cases h
          exact ⟨⟨first, second, rest, declared, hfields, readNode_eq_ok.mp hnode,
            readField_eq_ok.mp hdeclared, readGroupEdges_eq_ok.mp hedges⟩, rfl⟩
  · rintro ⟨⟨first, second, rest, declared, hfields, hnode, hdeclared, hread⟩, rfl⟩
    simp only [hfields]
    refine Step.except_bind_eq_ok.mpr ⟨_, readNode_eq_ok.mpr hnode, ?_⟩
    refine Step.except_bind_eq_ok.mpr ⟨_, readField_eq_ok.mpr hdeclared, ?_⟩
    exact Step.except_bind_eq_ok.mpr ⟨_, readGroupEdges_eq_ok.mpr hread, rfl⟩

/-- A line gives no group exactly when it has no field. -/
theorem readGroup_eq_none : readGroup line text = .ok none ↔ Text.fields text = [] := by
  unfold readGroup
  split
  case h_1 hblank => exact iff_of_true rfl hblank
  case h_2 raw raws hfields =>
    refine iff_of_false (bind_ne_none fun node => ?_) (by simp [hfields])
    cases raws with
    | nil => nofun
    | cons count rest => exact bind_ne_none fun _ => bind_ne_none fun _ => nofun

theorem reads_readGroup : Reads readGroup fun text g =>
    GroupRead (Text.fields text) g.node g.edges g.weighted ∧ g.text = text where
  blank _ _ := readGroup_eq_none
  record _ _ _ := readGroup_eq_ok

/-- **All groups of a listing** can be read exactly when each line is a text that is blank or holds a
group. -/
theorem exists_allGroups_iff : (∃ lines, allGroups content = .ok lines) ↔
    ∀ k line, (Text.lines content)[k]? = some line → ∃ text, line = some text ∧
      (Text.fields text = [] ∨ ∃ g, readGroup (k + 1) text = .ok (some g)) := by
  refine exists_records_iff.trans (forall_congr' fun k => forall_congr' fun line => imp_congr_right
    fun _ => exists_congr fun text => ?_)
  rw [exists_and_left, ← @readGroup_eq_none (k + 1), Option.exists]

theorem readGroup_copy (h : readGroup line text = .ok (some g)) (hfields : Text.fields other =
    Text.fields text) (line' : Nat) : readGroup line' other = .ok (some { g with text := other }) := by
  obtain ⟨hread, -⟩ := readGroup_eq_ok.mp h
  rw [← hfields] at hread
  exact readGroup_eq_ok.mpr ⟨hread, rfl⟩

theorem node_lt_of_readGroup (h : readGroup line text = .ok (some g)) : g.node < Text.wordBound := by
  obtain ⟨⟨_, _, _, _, -, hnode, -⟩, -⟩ := readGroup_eq_ok.mp h
  exact Text.lt_of_natural? hnode

/-- The edges of a group all come from its node. -/
theorem src_of_readGroup (h : readGroup line text = .ok (some g)) : ∀ e ∈ g.edges, e.src = g.node := by
  obtain ⟨⟨_, _, _, _, -, -, -, hread⟩, -⟩ := readGroup_eq_ok.mp h
  exact hread.src_eq

/-! ## Faults -/

theorem failsOn_readTargets (line node : Nat) (raws : List String) :
    FailsOn line (readTargets line node raws) := by
  induction raws with
  | nil => exact failsOn_ok _
  | cons raw raws ih =>
      rw [readTargets, List.mapM_cons]
      refine FailsOn.bind (failsOn_readField.bind fun _ => failsOn_ok _) fun _ => ?_
      exact FailsOn.bind ih fun _ => failsOn_ok _

theorem failsOn_readPairs (line node : Nat) (raws : List String) :
    FailsOn line (readPairs line node raws) := by
  induction raws using readPairs.induct with
  | case1 dst weight rest ih =>
      rw [readPairs]
      refine failsOn_readField.bind fun _ => failsOn_readField.bind fun _ => ?_
      exact FailsOn.bind ih fun _ => failsOn_ok _
  | case2 raws hshort =>
      rw [readPairs]
      · exact failsOn_ok _
      · exact hshort

/-- A line without a group that can be read is malformed. -/
theorem failsOn_readGroup (line : Nat) (text : String) : FailsOn line (readGroup line text) := by
  unfold readGroup
  split
  case h_1 => exact failsOn_ok _
  case h_2 raw raws _ =>
    refine failsOn_readField.bind fun node => ?_
    cases raws with
    | nil => exact failsOn_malformed line _
    | cons count rest =>
        refine failsOn_readField.bind fun declared => FailsOn.bind ?_ fun _ => failsOn_ok _
        unfold readGroupEdges
        split
        · exact FailsOn.bind (failsOn_readTargets line node rest) fun _ => failsOn_ok _
        · split
          · exact FailsOn.bind (failsOn_readPairs line node rest) fun _ => failsOn_ok _
          · exact failsOn_malformed line _

/-! ## Copies -/

/-- The text of a group of a listing is that of a line from which the group can be read. -/
theorem readGroup_of_mem_allGroups {lines : List GroupLine} (h : allGroups content = .ok lines)
    (hg : g ∈ lines) : '\n' ∉ g.text.toList ∧ ∃ line, readGroup line g.text = .ok (some g) := by
  have hsaid := reads_readGroup.records_eq_ok_iff_said.mp h
  obtain ⟨text, htext, hread, rfl⟩ := (reads_readGroup.mem_iff hsaid).mp hg
  exact ⟨Text.lineFeed_not_mem_lines htext, 0, readGroup_eq_ok.mpr ⟨hread, rfl⟩⟩

/-- **Groups that are copied** from a listing are read back as they were. -/
theorem allGroups_copy {lines copied : List GroupLine} (h : allGroups content = .ok lines)
    (hsub : ∀ g ∈ copied, g ∈ lines) :
    allGroups (String.join (copied.map fun g => g.text ++ "\n")).toUTF8 =
      .ok (copied.map fun g => { g with text := Text.chomp g.text }) := by
  rw [allGroups, records_eq_ok_iff]
  refine items_join ?_ ?_
  · intro g hg
    exact (readGroup_of_mem_allGroups h (hsub g hg)).1
  · intro g hg line
    obtain ⟨-, line', hread⟩ := readGroup_of_mem_allGroups h (hsub g hg)
    exact readGroup_copy hread (Text.fields_chomp g.text) line

end GraphPlacement.Listing
