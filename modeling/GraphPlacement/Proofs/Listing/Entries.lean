import GraphPlacement.Listing.NodeMap
import GraphPlacement.Proofs.Listing.Content
import GraphPlacement.Proofs.Slots
import GraphPlacement.Proofs.Text.Gaps

/-!
# What the lines of a node map come to

**One entry.** An entry is taken if its node has a slot and its host does not contradict the slot; then the
assignment has the hosts that it had before, and the one of the entry (`takeEntry_eq_ok`, `Takes.host?_iff`).

**All entries.** So after some entries the assignment has the hosts that it began with and those of the entries,
and the entries are taken exactly when no two of all these hosts contradict each other
(`exists_takesAll`).  Neither the order of the entries nor how often they come matters for that.

**Node maps.** A node map is read exactly when each line is blank or an entry that can be taken on its own, and no
node is said to be on two hosts.  Hence it is a matter of the lines that it has, in any order, and only of
those that say a host: `node_map_is_what_lines_say`.
-/

namespace GraphPlacement.Listing

variable {a b : Assignment} {e : NodeEntry} {es : List NodeEntry} {line v nodes : Nat}

/-! ## Lines -/

/-- Whether a line says an entry: a node and a host, which is minus one for none. -/
def SaysEntry (text : String) (e : NodeEntry) : Prop :=
  ∃ node raw, Text.fields text = [node, raw] ∧ Text.natural? node = some e.node ∧
    Text.integer? raw = some e.host

theorem reads_readEntry : Reads readEntry SaysEntry where
  blank line text := by
    unfold readEntry
    split
    case h_1 hblank => exact iff_of_true rfl hblank
    case h_2 node raw hfields =>
      exact iff_of_false (bind_ne_none fun _ => bind_ne_none fun _ => nofun) (by simp [hfields])
    case h_3 hnil _ => exact iff_of_false nofun hnil
  record line text e := by
    unfold readEntry
    constructor
    · intro h
      split at h
      case h_1 => cases h
      case h_2 node raw hfields =>
        obtain ⟨v, hv, h⟩ := Step.except_bind_eq_ok.mp h
        obtain ⟨host, hhost, h⟩ := Step.except_bind_eq_ok.mp h
        cases h
        exact ⟨node, raw, hfields, readNode_eq_ok.mp hv, readField_eq_ok.mp hhost⟩
      case h_3 => cases h
    · rintro ⟨node, raw, hfields, hv, hhost⟩
      simp only [hfields]
      refine Step.except_bind_eq_ok.mpr ⟨_, readNode_eq_ok.mpr hv, ?_⟩
      exact Step.except_bind_eq_ok.mpr ⟨_, readField_eq_ok.mpr hhost, rfl⟩

/-! ## One entry -/

/-- How an entry is taken, and what the assignment is then. -/
inductive Takes (a : Assignment) : NodeEntry → Assignment → Prop
  /-- No host is said, so nothing changes. -/
  | silent {v : Nat} (hlt : v < a.size) : Takes a ⟨v, -1⟩ a
  /-- The node has the host that is said, so nothing changes either. -/
  | again {v host : Nat} (hsame : a.host? v = some host) : Takes a ⟨v, host⟩ a
  /-- The node has no host yet, and gets the one that is said. -/
  | fills {v host : Nat} (hlt : v < a.size) (hnone : a.host? v = none) : Takes a ⟨v, host⟩ (a.fill v host)

theorem takeEntry_natCast {host : Nat} (hlt : v < a.size) : takeEntry line a ⟨v, host⟩ =
    match Assignment.assign v host a with
    | .ok _ b => .ok b
    | .error fault _ => .error fault := by
  have hminus : (host : Int) ≠ -1 := by omega
  have hnonneg : ¬(host : Int) < 0 := by omega
  refine (if_neg (Nat.not_le.mpr hlt)).trans ?_
  refine (if_neg hminus).trans ?_
  exact if_neg hnonneg

theorem Takes.takeEntry_eq (h : Takes a e b) (line : Nat) : takeEntry line a e = .ok b := by
  cases h with
  | silent hlt => rw [takeEntry, if_neg (Nat.not_le.mpr hlt), if_pos rfl]
  | again hsame => rw [takeEntry_natCast (Assignment.lt_size_of_host? hsame), Assignment.assign_same hsame]
  | fills hlt hnone => rw [takeEntry_natCast hlt, Assignment.assign_eq_fill hlt hnone]

theorem takes_of_takeEntry (h : takeEntry line a e = .ok b) : Takes a e b := by
  obtain ⟨v, said⟩ := e
  rcases Nat.lt_or_ge v a.size with hlt | hpast
  · rcases Int.lt_or_le said 0 with hneg | hnonneg
    · by_cases hminus : said = -1
      · subst hminus
        rw [(Takes.silent hlt).takeEntry_eq] at h
        cases h
        exact .silent hlt
      · rw [takeEntry, if_neg (Nat.not_le.mpr hlt), if_neg hminus, if_pos hneg] at h
        cases h
    · obtain ⟨host, rfl⟩ := Int.eq_ofNat_of_zero_le hnonneg
      rw [takeEntry_natCast hlt] at h
      rcases a.assign_cases v host with ⟨hpast, -⟩ | ⟨-, hnone, hassign⟩ | ⟨current, hnode, hassign⟩
      · exact absurd hlt (Nat.not_lt.mpr hpast)
      · rw [hassign] at h
        cases h
        exact .fills hlt hnone
      · rw [hassign] at h
        by_cases hsame : current = host
        · subst hsame
          rw [if_pos rfl] at h
          cases h
          exact .again hnode
        · rw [if_neg hsame] at h
          cases h
  · rw [takeEntry, if_pos hpast] at h
    cases h

/-- **Taking an entry** does not depend on the number of its line, which goes into faults only. -/
theorem takeEntry_eq_ok : takeEntry line a e = .ok b ↔ Takes a e b :=
  ⟨takes_of_takeEntry, fun h => h.takeEntry_eq line⟩

/-- Whether an entry is for a node that there is, and says a host or none. -/
def NodeEntry.Valid (nodes : Nat) (e : NodeEntry) : Prop := e.node < nodes ∧ (e.host = -1 ∨ 0 ≤ e.host)

namespace Takes

theorem valid (h : Takes a e b) : e.Valid a.size := by
  cases h with
  | silent hlt => exact ⟨hlt, Or.inl rfl⟩
  | @again v host hsame => exact ⟨Assignment.lt_size_of_host? hsame, Or.inr (Int.natCast_nonneg host)⟩
  | @fills v host hlt _ => exact ⟨hlt, Or.inr (Int.natCast_nonneg host)⟩

theorem size_eq (h : Takes a e b) : b.size = a.size := by
  cases h with
  | silent _ => rfl
  | again _ => rfl
  | fills _ _ => exact Assignment.size_fill

theorem counted (h : Takes a e b) (ha : a.Counted) : b.Counted := by
  cases h with
  | silent _ => exact ha
  | again _ => exact ha
  | fills hlt hnone => exact ha.fill hlt hnone

/-- The hosts after an entry are those before it, and the one that it says. -/
theorem host?_iff (h : Takes a e b) (v host : Nat) :
    b.host? v = some host ↔ a.host? v = some host ∨ e = ⟨v, host⟩ := by
  cases h with
  | @silent w _ =>
      have hminus : ¬(-1 : Int) = host := by omega
      simp [hminus]
  | @again w other hsame =>
      have hsaid : (⟨w, other⟩ : NodeEntry) = ⟨v, host⟩ → a.host? v = some host := by
        intro heq
        obtain ⟨rfl, hhost⟩ := NodeEntry.mk.inj heq
        rw [hsame, Int.ofNat.inj hhost]
      exact ⟨Or.inl, fun h => h.elim id hsaid⟩
  | @fills w other hlt hnone =>
      rw [Assignment.host?_fill hlt, NodeEntry.mk.injEq, Int.natCast_inj]
      by_cases hv : v = w
      · subst hv
        simp [hnone]
      · simp [hv, Ne.symm hv]

end Takes

/-- An entry is taken if it is valid and says no other host than the slot. -/
theorem exists_takes (hvalid : e.Valid a.size)
    (hagree : ∀ host current : Nat, e.host = host → a.host? e.node = some current → current = host) :
    ∃ b, Takes a e b := by
  obtain ⟨v, said⟩ := e
  obtain ⟨hlt, hminus | hnonneg⟩ := hvalid
  · obtain rfl : said = -1 := hminus
    exact ⟨a, .silent hlt⟩
  · obtain ⟨host, rfl⟩ := Int.eq_ofNat_of_zero_le hnonneg
    cases hnode : a.host? v with
    | none => exact ⟨_, .fills hlt hnode⟩
    | some current =>
        obtain rfl : current = host := hagree host current rfl hnode
        exact ⟨a, .again hnode⟩

/-! ## All entries -/

/-- How entries are taken one after the other. -/
inductive TakesAll : Assignment → List NodeEntry → Assignment → Prop
  | nil {a : Assignment} : TakesAll a [] a
  | cons {a m b : Assignment} {e : NodeEntry} {es : List NodeEntry} (hfirst : Takes a e m)
      (hlater : TakesAll m es b) : TakesAll a (e :: es) b

/-- Whether a node is on a host already, or is said to be by some entries. -/
def OnHost (a : Assignment) (es : List NodeEntry) (v host : Nat) : Prop :=
  a.host? v = some host ∨ (⟨v, host⟩ : NodeEntry) ∈ es

theorem onHost_cons (h : Takes a e b) {v host : Nat} : OnHost a (e :: es) v host ↔ OnHost b es v host := by
  rw [OnHost, OnHost, h.host?_iff, List.mem_cons, or_assoc, eq_comm (a := e)]

theorem foldlM_takeItem_eq_ok {items : List (Item NodeEntry)} : items.foldlM takeItem a = .ok b ↔
    ∃ es, records items = .ok es ∧ TakesAll a es b := by
  induction items generalizing a with
  | nil =>
      constructor
      · intro h
        cases h
        exact ⟨[], rfl, .nil⟩
      · rintro ⟨es, hes, htakes⟩
        cases hes
        cases htakes
        rfl
  | cons item items ih =>
      rw [List.foldlM_cons, Step.except_bind_eq_ok]
      constructor
      · rintro ⟨m, hitem, hlater⟩
        obtain ⟨e, he, htake⟩ := Step.except_bind_eq_ok.mp hitem
        obtain ⟨es, hes, htakes⟩ := ih.mp hlater
        refine ⟨e :: es, ?_, .cons (takeEntry_eq_ok.mp htake) htakes⟩
        rw [records_eq_ok_iff, List.map_cons, he, records_eq_ok_iff.mp hes, List.map_cons]
      · rintro ⟨es, hes, htakes⟩
        obtain ⟨e, later, rfl, he, hlater⟩ := List.map_eq_cons_iff.mp (records_eq_ok_iff.mp hes).symm
        cases htakes with
        | @cons _ m _ _ _ hfirst htakes =>
            refine ⟨m, Step.except_bind_eq_ok.mpr ⟨e, he.symm, takeEntry_eq_ok.mpr hfirst⟩, ?_⟩
            exact ih.mpr ⟨later, records_eq_ok_iff.mpr hlater.symm, htakes⟩

namespace TakesAll

theorem size_eq (h : TakesAll a es b) : b.size = a.size := by
  induction h with
  | nil => rfl
  | cons hfirst _ ih => rw [ih, hfirst.size_eq]

theorem counted (h : TakesAll a es b) (ha : a.Counted) : b.Counted := by
  induction h with
  | nil => exact ha
  | cons hfirst _ ih => exact ih (hfirst.counted ha)

theorem valid (h : TakesAll a es b) : ∀ e ∈ es, e.Valid a.size := by
  induction h with
  | nil => simp
  | cons hfirst _ ih =>
      rw [hfirst.size_eq] at ih
      exact List.forall_mem_cons.mpr ⟨hfirst.valid, ih⟩

/-- The hosts after some entries are those before them, and those that they say. -/
theorem host?_iff (h : TakesAll a es b) (v host : Nat) : b.host? v = some host ↔ OnHost a es v host := by
  induction h with
  | nil => simp [OnHost]
  | cons hfirst _ ih => rw [onHost_cons hfirst, ih]

end TakesAll

/-- Entries are taken if each of them is valid and no node is on two hosts. -/
theorem exists_takesAll (hvalid : ∀ e ∈ es, e.Valid a.size)
    (hagree : ∀ v host other, OnHost a es v host → OnHost a es v other → host = other) :
    ∃ b, TakesAll a es b := by
  induction es generalizing a with
  | nil => exact ⟨a, .nil⟩
  | cons e es ih =>
      obtain ⟨he, hes⟩ := List.forall_mem_cons.mp hvalid
      obtain ⟨m, hfirst⟩ : ∃ m, Takes a e m := by
        refine exists_takes he fun host current hhost hcurrent => ?_
        exact hagree e.node current host (Or.inl hcurrent) (Or.inr (by simp [← hhost]))
      -- To the later entries, what the first one says of a host is what was there before them.
      rw [← hfirst.size_eq] at hes
      simp only [onHost_cons hfirst] at hagree
      obtain ⟨b, hlater⟩ := ih hes hagree
      exact ⟨b, .cons hfirst hlater⟩

/-! ## Node maps -/

/-- Whether a line is blank, or says an entry that is valid on its own. -/
def EntryLine (nodes : Nat) (line : Option String) : Prop :=
  ∃ text, line = some text ∧ (Text.AllBlank text.toList ∨ ∃ e, SaysEntry text e ∧ e.Valid nodes)

/-- Whether a line is blank, or says of a node that it is on no host. -/
def SilentLine (nodes : Nat) (line : Option String) : Prop :=
  ∃ text, line = some text ∧ (Text.AllBlank text.toList ∨ ∃ v < nodes, SaysEntry text ⟨v, -1⟩)

/-- Whether some line says that a node is on a host. -/
def Told (content : ByteArray) (v host : Nat) : Prop :=
  ∃ text, some text ∈ Text.lines content ∧ SaysEntry text ⟨v, host⟩

variable {content : ByteArray} {text : String}

theorem not_saysEntry_of_allBlank (hblank : Text.AllBlank text.toList) : ¬SaysEntry text e :=
  reads_readEntry.not_meaning_of_blank (Text.fields_eq_nil_iff.mpr hblank)

theorem EntryLine.valid (h : EntryLine nodes (some text)) (hentry : SaysEntry text e) : e.Valid nodes := by
  obtain ⟨_, heq, hblank | ⟨e', hentry', hvalid⟩⟩ := h
  · cases heq
    exact absurd hentry (not_saysEntry_of_allBlank hblank)
  · cases heq
    rwa [reads_readEntry.meaning_unique hentry hentry']

theorem exists_said_of_entryLines (h : ∀ line ∈ Text.lines content, EntryLine nodes line) :
    ∃ es, Said SaysEntry (Text.lines content) es := by
  refine exists_said_iff.mpr fun line hline => ?_
  obtain ⟨text, rfl, hblank | ⟨e, hentry, -⟩⟩ := h line hline
  · exact ⟨text, rfl, Or.inl (Text.fields_eq_nil_iff.mpr hblank)⟩
  · exact ⟨text, rfl, Or.inr ⟨e, hentry⟩⟩

theorem nodeMap_eq_ok : nodeMap content nodes = .ok a ↔
    ∃ es, Said SaysEntry (Text.lines content) es ∧ TakesAll (.ofSize nodes) es a := by
  simp only [nodeMap, foldlM_takeItem_eq_ok, reads_readEntry.records_eq_ok_iff_said]

theorem onHost_ofSize_iff (hsaid : Said SaysEntry (Text.lines content) es) {v host : Nat} :
    OnHost (.ofSize nodes) es v host ↔ Told content v host := by
  rw [OnHost, Assignment.host?_ofSize, reads_readEntry.mem_iff hsaid]
  simp [Told]

theorem counted_of_nodeMap (h : nodeMap content nodes = .ok a) : a.Counted := by
  obtain ⟨es, -, htakes⟩ := nodeMap_eq_ok.mp h
  exact htakes.counted (Assignment.counted_ofSize nodes)

/-- A node map that is read for some nodes has a slot for each of them. -/
theorem size_nodeMap (h : nodeMap content nodes = .ok a) : a.size = nodes := by
  obtain ⟨es, -, htakes⟩ := nodeMap_eq_ok.mp h
  rw [htakes.size_eq, Assignment.size_ofSize]

/-- A node has the host that some line says. -/
theorem host?_of_nodeMap (h : nodeMap content nodes = .ok a) (v host : Nat) :
    a.host? v = some host ↔ Told content v host := by
  obtain ⟨es, hsaid, htakes⟩ := nodeMap_eq_ok.mp h
  rw [htakes.host?_iff, onHost_ofSize_iff hsaid]

/-- A node map is read if its lines are entries and no node is on two hosts. -/
theorem exists_nodeMap_iff : (∃ a, nodeMap content nodes = .ok a) ↔
    (∀ line ∈ Text.lines content, EntryLine nodes line) ∧
      ∀ v host other, Told content v host → Told content v other → host = other := by
  constructor
  · rintro ⟨a, hread⟩
    constructor
    · obtain ⟨es, hsaid, htakes⟩ := nodeMap_eq_ok.mp hread
      have hvalid := htakes.valid
      rw [Assignment.size_ofSize] at hvalid
      intro line hline
      obtain ⟨text, rfl, hblank | ⟨e, he⟩⟩ := exists_said_iff.mp ⟨es, hsaid⟩ line hline
      · exact ⟨text, rfl, Or.inl (Text.fields_eq_nil_iff.mp hblank)⟩
      · have hmem : e ∈ es := (reads_readEntry.mem_iff hsaid).mpr ⟨text, hline, he⟩
        exact ⟨text, rfl, Or.inr ⟨e, he, hvalid e hmem⟩⟩
    · intro v host other hhost hother
      rw [← host?_of_nodeMap hread] at hhost hother
      exact Option.some.inj (hhost.symm.trans hother)
  · rintro ⟨hlines, hagree⟩
    obtain ⟨es, hsaid⟩ := exists_said_of_entryLines hlines
    obtain ⟨a, htakes⟩ : ∃ a, TakesAll (.ofSize nodes) es a := by
      refine exists_takesAll (fun e he => ?_) fun v host other hhost hother => ?_
      · obtain ⟨text, hline, hentry⟩ := (reads_readEntry.mem_iff hsaid).mp he
        rw [Assignment.size_ofSize]
        exact (hlines _ hline).valid hentry
      · rw [onHost_ofSize_iff hsaid] at hhost hother
        exact hagree v host other hhost hother
    exact ⟨a, nodeMap_eq_ok.mpr ⟨es, hsaid, htakes⟩⟩

/-! ## Lines that say nothing -/

variable {other : ByteArray}

/-- Whether two listings have the same lines, those apart that say nothing of a host.  How often a line comes and
where it stands makes no difference. -/
def SameHostLines (nodes : Nat) (content other : ByteArray) : Prop :=
  ∀ line, ¬SilentLine nodes line → (line ∈ Text.lines other ↔ line ∈ Text.lines content)

theorem SilentLine.entryLine {line : Option String} (h : SilentLine nodes line) : EntryLine nodes line := by
  obtain ⟨text, rfl, hblank | ⟨v, hv, hentry⟩⟩ := h
  · exact ⟨text, rfl, Or.inl hblank⟩
  · exact ⟨text, rfl, Or.inr ⟨_, hentry, hv, Or.inl rfl⟩⟩

theorem not_silentLine_of_saysEntry {host : Nat} (hentry : SaysEntry text ⟨v, host⟩) :
    ¬SilentLine nodes (some text) := by
  rintro ⟨_, heq, hblank | ⟨w, -, hminus⟩⟩
  · cases heq
    exact not_saysEntry_of_allBlank hblank hentry
  · cases heq
    have hsame := congrArg NodeEntry.host (reads_readEntry.meaning_unique hentry hminus)
    simp only at hsame
    omega

theorem SameHostLines.symm (h : SameHostLines nodes content other) : SameHostLines nodes other content :=
  fun line hline => (h line hline).symm

theorem SameHostLines.told_iff (h : SameHostLines nodes content other) {host : Nat} :
    Told other v host ↔ Told content v host :=
  exists_congr fun _ => and_congr_left fun hentry => h _ (not_silentLine_of_saysEntry hentry)

theorem SameHostLines.entryLines (h : SameHostLines nodes content other)
    (hlines : ∀ line ∈ Text.lines content, EntryLine nodes line) :
    ∀ line ∈ Text.lines other, EntryLine nodes line := by
  intro line hline
  by_cases hsilent : SilentLine nodes line
  · exact hsilent.entryLine
  · exact hlines line ((h line hsilent).mp hline)

theorem SameHostLines.nodeMap_eq_ok (h : SameHostLines nodes content other)
    (hread : nodeMap content nodes = .ok a) : nodeMap other nodes = .ok a := by
  obtain ⟨hlines, hagree⟩ := exists_nodeMap_iff.mp ⟨a, hread⟩
  simp only [← h.told_iff] at hagree
  obtain ⟨b, hother⟩ := exists_nodeMap_iff.mpr ⟨h.entryLines hlines, hagree⟩
  have hsize : b.size = a.size := (size_nodeMap hother).trans (size_nodeMap hread).symm
  have hsame : b = a := by
    refine Assignment.eq_of_host? (counted_of_nodeMap hother) (counted_of_nodeMap hread) hsize fun v => ?_
    refine Option.ext fun host => ?_
    rw [host?_of_nodeMap hother, host?_of_nodeMap hread, h.told_iff]
  rw [hother, hsame]

/-- **A node map is what its lines say of hosts.**  It is read exactly if each line is blank or says an entry (two
fields, the first a node that there is, the second a host or minus one), and no node is said to be on two
hosts.  Then there is a slot for each node, and a node is on a host exactly if some line says so.  Two node maps
with the same lines, however often and in whatever order, are read alike, or both are not; and that is so too
if there are lines more in one of them that are blank or say of a node that it is on no host. -/
theorem node_map_is_what_lines_say (content : ByteArray) (nodes : Nat) :
    ((∃ a, nodeMap content nodes = .ok a) ↔
      (∀ line ∈ Text.lines content, EntryLine nodes line) ∧
        ∀ v host other, Told content v host → Told content v other → host = other) ∧
    (∀ a, nodeMap content nodes = .ok a →
      a.size = nodes ∧ ∀ v host, a.host? v = some host ↔ Told content v host) ∧
    ∀ other, SameHostLines nodes content other →
      (nodeMap other nodes).toOption = (nodeMap content nodes).toOption := by
  refine ⟨exists_nodeMap_iff, fun a hread => ⟨size_nodeMap hread, host?_of_nodeMap hread⟩, ?_⟩
  intro other hsame
  cases hread : nodeMap content nodes with
  | ok a => rw [hsame.nodeMap_eq_ok hread]
  | error fault =>
      cases hother : nodeMap other nodes with
      | ok b =>
          rw [hsame.symm.nodeMap_eq_ok hother] at hread
          cases hread
      | error _ => rfl

/-- The lines of a node map in another order, the last of them twice, with a line more that says node 0 to be on no
host.  A node map that says it to be on host 0 and on host 1 is not read. -/
theorem node_map_is_what_lines_say_in_another_order :
    let content := "0 1\n\n1 -1\n2 0\n".toUTF8
    let other := "2 0\n0 -1\n2 0\n0 1".toUTF8
    SameHostLines 3 content other ∧ (nodeMap content 3).toOption = some ⟨#[some 1, none, some 0], 2⟩ ∧
      (nodeMap other 3).toOption = some ⟨#[some 1, none, some 0], 2⟩ ∧
      ¬∃ a, nodeMap "0 1\n1 -1\n0 0\n".toUTF8 3 = .ok a := by
  intro content other
  have hlines : Text.lines content = [some "0 1", some "", some "1 -1", some "2 0"] := by decide +kernel
  have hother : Text.lines other = [some "2 0", some "0 -1", some "2 0", some "0 1"] := by decide +kernel
  have hsame : SameHostLines 3 content other := by
    intro line hline
    have hblank : line ≠ some "" := by
      rintro rfl
      exact hline ⟨"", rfl, Or.inl (by decide)⟩
    have hzero : line ≠ some "0 -1" := by
      rintro rfl
      exact hline ⟨"0 -1", rfl, Or.inr ⟨0, by decide, "0", "-1", by decide +kernel⟩⟩
    have hone : line ≠ some "1 -1" := by
      rintro rfl
      exact hline ⟨"1 -1", rfl, Or.inr ⟨1, by decide, "1", "-1", by decide +kernel⟩⟩
    simp only [hlines, hother, List.mem_cons, List.not_mem_nil, hblank, hzero, hone, false_or, or_false]
    grind
  have hread : (nodeMap content 3).toOption = some ⟨#[some 1, none, some 0], 2⟩ := by decide +kernel
  refine ⟨hsame, hread, ((node_map_is_what_lines_say content 3).2.2 other hsame).trans hread, fun h => ?_⟩
  obtain ⟨-, hagree⟩ := (node_map_is_what_lines_say _ 3).1.mp h
  have hone : Told "0 1\n1 -1\n0 0\n".toUTF8 0 1 := ⟨"0 1", by decide +kernel, "0", "1", by decide +kernel⟩
  have hzero : Told "0 1\n1 -1\n0 0\n".toUTF8 0 0 := ⟨"0 0", by decide +kernel, "0", "0", by decide +kernel⟩
  exact absurd (hagree 0 1 0 hone hzero) (by decide)

end GraphPlacement.Listing
