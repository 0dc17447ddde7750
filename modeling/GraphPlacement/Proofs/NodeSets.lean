import GraphPlacement.Score
import Mathlib.Data.List.Nodup
import Mathlib.Data.Set.Function

/-!
# Sets of nodes

**Overlap.** Whichever of the two sets is gone through, the overlap is the number of nodes that a host holds
and that are neighbours as well: the size of the intersection (`overlap_eq_size_inter`).  Neighbours that the
host does not hold make no difference to it (`overlap_congr`).

**Other numbers.** A set whose members get other numbers, different ones for different members, keeps its
size (`NodeSet.size_image`).  Two sets that get other numbers in the same way keep their overlap:
`overlap_image`.
-/

namespace GraphPlacement

variable {held neighbours neighbours' nodes other : NodeSet}

/-! ## Overlap -/

theorem NodeSet.countP_contains (nodes other : NodeSet) :
    nodes.toList.countP other.contains = (nodes ∩ other).size := by
  have hsame : (nodes ∩ other).toList.Perm (nodes.toList.filter other.contains) := by
    refine (List.perm_ext_iff_of_nodup (nodup_toList _) (nodes.nodup_toList.filter _)).mpr fun v => ?_
    simp
  rw [List.countP_eq_length_filter, ← hsame.length_eq, Std.ExtTreeSet.length_toList]

/-- **The overlap** is the number of nodes in both sets. -/
theorem overlap_eq_size_inter (held neighbours : NodeSet) :
    overlap held neighbours = (held ∩ neighbours).size := by
  have hcomm : neighbours ∩ held = held ∩ neighbours :=
    Std.ExtTreeSet.ext_mem fun v => by simp [and_comm]
  unfold overlap
  split
  · exact NodeSet.countP_contains held neighbours
  · rw [NodeSet.countP_contains, hcomm]

theorem overlap_congr (h : ∀ v ∈ held, v ∈ neighbours ↔ v ∈ neighbours') :
    overlap held neighbours = overlap held neighbours' := by
  have hsame : held ∩ neighbours = held ∩ neighbours' :=
    Std.ExtTreeSet.ext_mem fun v => by simpa using h v
  rw [overlap_eq_size_inter, overlap_eq_size_inter, hsame]

/-! ## Other numbers -/

namespace NodeSet

variable {f : Nat → Nat} {ids : Set Nat}

/-- The set whose members have got other numbers. -/
def image (f : Nat → Nat) (nodes : NodeSet) : NodeSet := Std.ExtTreeSet.ofList (nodes.toList.map f)

@[simp] theorem mem_image {w : Nat} : w ∈ nodes.image f ↔ ∃ v ∈ nodes, f v = w := by
  simp [image, Std.ExtTreeSet.mem_ofList]

@[simp] theorem image_empty (f : Nat → Nat) : image f ∅ = ∅ := by
  simp [image]

theorem image_ofList (f : Nat → Nat) (nodes : List Nat) :
    image f (.ofList nodes) = .ofList (nodes.map f) := by
  refine Std.ExtTreeSet.ext_mem fun w => ?_
  simp [Std.ExtTreeSet.mem_ofList]

theorem image_insert (f : Nat → Nat) (nodes : NodeSet) (v : Nat) :
    image f (nodes.insert v) = (nodes.image f).insert (f v) := by
  refine Std.ExtTreeSet.ext_mem fun w => ?_
  simp [or_and_right, exists_or]

theorem size_image (hinj : Set.InjOn f ids) (hnodes : ∀ v ∈ nodes, v ∈ ids) :
    (nodes.image f).size = nodes.size := by
  have hsame : (nodes.image f).toList.Perm (nodes.toList.map f) := by
    refine (List.perm_ext_iff_of_nodup (NodeSet.nodup_toList _) ?_).mpr fun w => by simp
    refine nodes.nodup_toList.map_on fun v hv w hw heq => hinj ?_ ?_ heq
    · exact hnodes v (Std.ExtTreeSet.mem_toList.mp hv)
    · exact hnodes w (Std.ExtTreeSet.mem_toList.mp hw)
  rw [← Std.ExtTreeSet.length_toList, hsame.length_eq, List.length_map, Std.ExtTreeSet.length_toList]

theorem image_inter (hinj : Set.InjOn f ids) (hnodes : ∀ v ∈ nodes, v ∈ ids)
    (hother : ∀ v ∈ other, v ∈ ids) : image f (nodes ∩ other) = nodes.image f ∩ other.image f := by
  refine Std.ExtTreeSet.ext_mem fun w => ?_
  simp only [mem_image, Std.ExtTreeSet.mem_inter_iff]
  constructor
  · rintro ⟨v, ⟨hv, hv'⟩, rfl⟩
    exact ⟨⟨v, hv, rfl⟩, ⟨v, hv', rfl⟩⟩
  · rintro ⟨⟨v, hv, rfl⟩, ⟨v', hv', heq⟩⟩
    obtain rfl := hinj (hother v' hv') (hnodes v hv) heq
    exact ⟨v', ⟨hv, hv'⟩, rfl⟩

end NodeSet

/-- **Other numbers** for the nodes in question keep the overlap. -/
theorem overlap_image {f : Nat → Nat} {ids : Set Nat} (hinj : Set.InjOn f ids)
    (hheld : ∀ v ∈ held, v ∈ ids) (hneighbours : ∀ v ∈ neighbours, v ∈ ids) :
    overlap (held.image f) (neighbours.image f) = overlap held neighbours := by
  rw [overlap_eq_size_inter, overlap_eq_size_inter, ← NodeSet.image_inter hinj hheld hneighbours]
  exact NodeSet.size_image hinj fun v hv => hheld v (Std.ExtTreeSet.mem_inter_iff.mp hv).1

end GraphPlacement
