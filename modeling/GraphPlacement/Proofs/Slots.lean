import GraphPlacement.Assignment.Operations
import GraphPlacement.Proofs.Steps

/-!
# The slots of an assignment

**Filling.** Giving a host to a node that has a slot but no host fills the slot (`assign_eq_fill`), and
what an assignment says of every node afterwards is `host?_fill`.  The three other cases of `assign`
change nothing.

**Growing.** With slots added it is the same, unless the node is the last word and past the end
(`assignGrowing_eq`).

**Pairs.** The filled slots are listed in ascending order of their nodes, each once (`mem_pairs`,
`pairs_ascending`), so a filled slot is one pair more (`pairs_fill`).

**Order.** `a ≤ b` says that `b` has every host that `a` has.  Whatever is done to an assignment leads
upwards in this order, which is what "a node never moves" means over a whole run.

**Count.** The number of nodes with a host that an assignment keeps beside its slots is right (`Counted`), and
stays so whatever is done to it (`Counted.afterAll`).
-/

namespace GraphPlacement.Assignment

variable {a b : Assignment} {node host v : Nat}

/-! ## Looking up -/

theorem getElem?_slots (h : v < a.size) : a.slots[v]? = some (a.host? v) := by
  have hv : v < a.slots.size := h
  simp [host?, Array.getElem?_eq_getElem hv]

theorem lt_size_of_host? (h : a.host? v = some host) : v < a.size := by
  refine Nat.lt_of_not_le fun hle => ?_
  rw [host?_eq_none_of_size_le hle] at h
  cases h

theorem lt_size_growTo (a : Assignment) (v : Nat) : v < (a.growTo (v + 1)).size := by
  rw [size_growTo]
  omega

theorem lookup_eq_ok {answer : Option Nat} :
    a.lookup v = .ok answer ↔ v < a.size ∧ answer = a.host? v := by
  by_cases h : v < a.size <;> simp [lookup, h, eq_comm]

/-! ## Filling a slot -/

/-- The assignment with a host put into the slot of a node. -/
def fill (node host : Nat) (a : Assignment) : Assignment :=
  ⟨a.slots.setIfInBounds node (some host), a.assigned + 1⟩

@[simp] theorem size_fill : (a.fill node host).size = a.size := by simp [fill, size]

theorem host?_fill (h : node < a.size) (v : Nat) :
    (a.fill node host).host? v = if v = node then some host else a.host? v := by
  have hnode : node < a.slots.size := h
  by_cases hv : v = node
  · subst hv
    simp [fill, host?, hnode]
  · simp [fill, host?, hv, Array.getElem?_setIfInBounds_ne (Ne.symm hv)]

theorem assign_eq_fill (h : node < a.size) (hnone : a.host? node = none) (host : Nat) :
    assign node host a = .ok () (a.fill node host) := by
  simp [assign, getElem?_slots h, hnone, fill]

theorem assign_same (h : a.host? node = some host) : assign node host a = .ok () a := by
  simp [assign, getElem?_slots (lt_size_of_host? h), h]

theorem assign_past_end (h : a.size ≤ node) :
    assign node host a = .error (.nodeOutOfRange node a.size) a := by
  have hnode : a.slots.size ≤ node := h
  simp [assign, Array.getElem?_eq_none hnode]

theorem assign_elsewhere {current : Nat} (h : a.host? node = some current) (hne : current ≠ host) :
    assign node host a = .error (.reassigned node current host) a := by
  simp [assign, getElem?_slots (lt_size_of_host? h), h, hne]

/-- **Giving a node a host** finds no slot, an empty one, or one that is filled already. -/
theorem assign_cases (a : Assignment) (node host : Nat) :
    (a.size ≤ node ∧ assign node host a = .error (.nodeOutOfRange node a.size) a) ∨
    (node < a.size ∧ a.host? node = none ∧ assign node host a = .ok () (a.fill node host)) ∨
    ∃ current, a.host? node = some current ∧
      assign node host a = if current = host then .ok () a else .error (.reassigned node current host) a := by
  rcases Nat.lt_or_ge node a.size with hlt | hpast
  · cases hnode : a.host? node with
    | none => exact Or.inr (Or.inl ⟨hlt, rfl, assign_eq_fill hlt hnode host⟩)
    | some current =>
        refine Or.inr (Or.inr ⟨current, rfl, ?_⟩)
        split
        case isTrue heq => exact assign_same (heq ▸ hnode)
        case isFalse hne => exact assign_elsewhere hnode hne
  · exact Or.inl ⟨hpast, assign_past_end hpast⟩

/-! ## The pairs -/

theorem mem_pairs : (v, host) ∈ a.pairs ↔ a.host? v = some host := by
  simp only [pairs, List.mem_filterMap, Prod.exists, List.mk_mem_zipIdx_iff_getElem?,
    Array.getElem?_toList, Option.map_eq_some_iff, Prod.mk.injEq, host?, Option.join_eq_some_iff]
  constructor
  · rintro ⟨slot, other, hslot, taken, rfl, rfl, rfl⟩
    exact hslot
  · intro h
    exact ⟨some host, v, h, host, rfl, rfl, rfl⟩

theorem pairs_ascending (a : Assignment) : a.pairs.Pairwise fun p q => p.1 < q.1 := by
  have hindex : a.slots.toList.zipIdx.Pairwise fun p q => p.2 < q.2 := by
    rw [← List.pairwise_map (f := Prod.snd), List.zipIdx_map_snd]
    exact List.pairwise_lt_range'
  refine hindex.filterMap _ ?_
  rintro ⟨slot, v⟩ ⟨slot', v'⟩ hlt p hp q hq
  obtain ⟨_, _, rfl⟩ := Option.map_eq_some_iff.mp hp
  obtain ⟨_, _, rfl⟩ := Option.map_eq_some_iff.mp hq
  exact hlt

theorem pairs_nodup (a : Assignment) : a.pairs.Nodup := by
  refine a.pairs_ascending.imp ?_
  rintro p _ hlt rfl
  exact Nat.lt_irrefl _ hlt

theorem nodes_nodup (a : Assignment) : (a.pairs.map Prod.fst).Nodup := by
  refine (List.pairwise_map.mpr a.pairs_ascending).imp ?_
  intro v w hlt
  exact Nat.ne_of_lt hlt

@[simp] theorem pairs_ofSize (n : Nat) : (ofSize n).pairs = [] := by
  refine List.eq_nil_iff_forall_not_mem.mpr ?_
  rintro ⟨v, host⟩ h
  rw [mem_pairs, host?_ofSize] at h
  cases h

/-- Slots that are added are empty and give no pairs. -/
@[simp] theorem pairs_growTo (n : Nat) (a : Assignment) : (a.growTo n).pairs = a.pairs := by
  rw [pairs, growTo, Array.toList_append, Array.toList_replicate, List.zipIdx_append,
    List.filterMap_append]
  refine (congrArg (a.pairs ++ ·) (List.filterMap_eq_nil_iff.mpr ?_)).trans (List.append_nil _)
  rintro ⟨slot, node⟩ hmem
  obtain rfl : slot = none := List.eq_of_mem_replicate (List.fst_mem_of_mem_zipIdx hmem)
  rfl

theorem growTo_of_le {n : Nat} (h : n ≤ a.size) : a.growTo n = a := by simp [growTo, Nat.sub_eq_zero_of_le h]

@[simp] theorem growTo_size (a : Assignment) : a.growTo a.size = a := growTo_of_le (Nat.le_refl _)

theorem pairs_fill (h : node < a.size) (hnone : a.host? node = none) :
    (a.fill node host).pairs.Perm ((node, host) :: a.pairs) := by
  have hnew : (node, host) ∉ a.pairs := by simp [mem_pairs, hnone]
  refine (List.perm_ext_iff_of_nodup (pairs_nodup _)
    (List.nodup_cons.mpr ⟨hnew, pairs_nodup a⟩)).mpr ?_
  rintro ⟨v, host'⟩
  rw [mem_pairs, host?_fill h, List.mem_cons, mem_pairs, Prod.mk.injEq]
  by_cases hv : v = node
  · simp [hv, hnone, eq_comm]
  · simp [hv]

theorem checkHosts_eq_ok_iff {hosts : Nat} :
    a.checkHosts hosts = .ok () ↔ ∀ v host, a.host? v = some host → host < hosts := by
  unfold checkHosts
  constructor
  · intro h v host hv
    split at h
    · cases h
    · rename_i hnone
      simpa using List.find?_eq_none.mp hnone (v, host) (mem_pairs.mpr hv)
  · intro h
    have hnone : a.pairs.find? (fun p => decide (hosts ≤ p.2)) = none := by
      refine List.find?_eq_none.mpr ?_
      rintro ⟨v, host⟩ hmem
      simpa using h v host (mem_pairs.mp hmem)
    rw [hnone]

/-- How many nodes are on a host. -/
def nodesOn (a : Assignment) (host : Nat) : Nat := a.pairs.countP fun p => p.2 = host

@[simp] theorem nodesOn_ofSize (n host : Nat) : (ofSize n).nodesOn host = 0 := by simp [nodesOn]

theorem nodesOn_fill (h : node < a.size) (hnone : a.host? node = none) (other : Nat) :
    (a.fill node host).nodesOn other = a.nodesOn other + if host = other then 1 else 0 := by
  simp [nodesOn, (pairs_fill h hnone).countP_eq, List.countP_cons]

/-! ## The count -/

/-- Whether the count is the number of filled slots. -/
def Counted (a : Assignment) : Prop := a.assigned = a.pairs.length

theorem counted_ofSize (n : Nat) : (ofSize n).Counted := by
  rw [Counted, pairs_ofSize]
  rfl

theorem Counted.growTo (ha : a.Counted) (n : Nat) : (a.growTo n).Counted := by
  rw [Counted, pairs_growTo]
  exact ha

theorem Counted.fill (ha : a.Counted) (h : node < a.size) (hnone : a.host? node = none) :
    (a.fill node host).Counted := by
  show a.assigned + 1 = _
  rw [(pairs_fill h hnone).length_eq, List.length_cons, ha]

/-- Not more nodes have a host than there are. -/
theorem Counted.assigned_le_size (ha : a.Counted) : a.assigned ≤ a.size := by
  have hlen := List.length_filterMap_le (fun p : Option Nat × Nat => p.1.map fun host => (p.2, host))
    a.slots.toList.zipIdx
  rw [List.length_zipIdx, Array.length_toList] at hlen
  rw [ha]
  exact hlen

/-- Assignments with the same hosts count as many nodes. -/
theorem Counted.assigned_eq (ha : a.Counted) (hb : b.Counted) (h : ∀ v, a.host? v = b.host? v) :
    a.assigned = b.assigned := by
  have hsame : a.pairs.Perm b.pairs := by
    refine (List.perm_ext_iff_of_nodup a.pairs_nodup b.pairs_nodup).mpr ?_
    rintro ⟨v, host⟩
    rw [mem_pairs, mem_pairs, h]
  rw [show a.assigned = _ from ha, show b.assigned = _ from hb, hsame.length_eq]

/-- Assignments with the same slots that count them rightly are equal. -/
theorem eq_of_host? (ha : a.Counted) (hb : b.Counted) (hsize : a.size = b.size)
    (h : ∀ v, a.host? v = b.host? v) : a = b := by
  have hslots : a.slots = b.slots := by
    refine Array.ext_getElem? fun v => ?_
    rcases Nat.lt_or_ge v a.size with hv | hv
    · rw [getElem?_slots hv, getElem?_slots (hsize ▸ hv), h]
    · have hvb : b.size ≤ v := hsize ▸ hv
      rw [Array.getElem?_eq_none (show a.slots.size ≤ v from hv),
        Array.getElem?_eq_none (show b.slots.size ≤ v from hvb)]
  have hcount : a.assigned = b.assigned := ha.assigned_eq hb h
  cases a
  cases b
  simp_all

/-! ## The order -/

instance : LE Assignment := ⟨fun a b => ∀ v host, a.host? v = some host → b.host? v = some host⟩

theorem le_refl (a : Assignment) : a ≤ a := fun _ _ h => h

theorem le_trans {a b c : Assignment} (hab : a ≤ b) (hbc : b ≤ c) : a ≤ c :=
  fun v host h => hbc v host (hab v host h)

theorem le_fill (h : node < a.size) (hnone : a.host? node = none) (host : Nat) :
    a ≤ a.fill node host := by
  intro v current hv
  have hne : v ≠ node := by
    rintro rfl
    rw [hnone] at hv
    cases hv
  rw [host?_fill h, if_neg hne, hv]

theorem le_growTo (n : Nat) (a : Assignment) : a ≤ a.growTo n := by
  intro v current hv
  rw [host?_growTo, hv]

/-! ## Filling several slots -/

/-- The assignment with the same host put into the slots of some nodes. -/
def fillAll (nodes : List Nat) (host : Nat) (a : Assignment) : Assignment :=
  nodes.foldl (fun a v => a.fill v host) a

theorem fill_comm (a : Assignment) (v w host : Nat) :
    (a.fill v host).fill w host = (a.fill w host).fill v host := by
  by_cases h : v = w
  · rw [h]
  · simp [fill, Array.setIfInBounds_comm _ _ h]

/-- The order in which slots are filled with one host makes no difference. -/
theorem fillAll_perm {nodes nodes' : List Nat} (h : nodes.Perm nodes') (host : Nat) (a : Assignment) :
    a.fillAll nodes host = a.fillAll nodes' host :=
  h.foldl_eq' (fun v _ w _ b => fill_comm b v w host) a

/-- Whether some nodes are different ones that have a slot but no host. -/
structure AllEmpty (a : Assignment) (nodes : List Nat) : Prop where
  nodup : nodes.Nodup
  lt_size : ∀ v ∈ nodes, v < a.size
  host?_eq_none : ∀ v ∈ nodes, a.host? v = none

theorem AllEmpty.fill {nodes : List Nat} (h : a.AllEmpty (node :: nodes)) (host : Nat) :
    (a.fill node host).AllEmpty nodes where
  nodup := h.nodup.of_cons
  lt_size v hv := by
    rw [size_fill]
    exact h.lt_size v (List.mem_cons_of_mem _ hv)
  host?_eq_none v hv := by
    have hne : v ≠ node := by
      rintro rfl
      exact (List.nodup_cons.mp h.nodup).1 hv
    rw [host?_fill (h.lt_size node List.mem_cons_self), if_neg hne]
    exact h.host?_eq_none v (List.mem_cons_of_mem _ hv)

@[simp] theorem size_fillAll (nodes : List Nat) : (a.fillAll nodes host).size = a.size := by
  induction nodes generalizing a with
  | nil => rfl
  | cons node nodes ih => rw [fillAll, List.foldl_cons, ← fillAll, ih, size_fill]

theorem host?_fillAll {nodes : List Nat} (h : a.AllEmpty nodes) (host v : Nat) :
    (a.fillAll nodes host).host? v = if v ∈ nodes then some host else a.host? v := by
  induction nodes generalizing a with
  | nil => rfl
  | cons node nodes ih =>
      rw [fillAll, List.foldl_cons, ← fillAll, ih (h.fill host),
        host?_fill (h.lt_size node List.mem_cons_self)]
      by_cases hv : v ∈ nodes
      · simp [hv]
      · by_cases hnode : v = node <;> simp [hv, hnode]

theorem le_fillAll {nodes : List Nat} (h : a.AllEmpty nodes) (host : Nat) :
    a ≤ a.fillAll nodes host := by
  induction nodes generalizing a with
  | nil => exact le_refl a
  | cons node nodes ih =>
      have hnode := le_fill (h.lt_size node List.mem_cons_self)
        (h.host?_eq_none node List.mem_cons_self) host
      exact le_trans hnode (ih (h.fill host))

theorem Counted.fillAll {nodes : List Nat} (ha : a.Counted) (h : a.AllEmpty nodes) (host : Nat) :
    (a.fillAll nodes host).Counted := by
  induction nodes generalizing a with
  | nil => exact ha
  | cons node nodes ih =>
      exact ih (ha.fill (h.lt_size node List.mem_cons_self)
        (h.host?_eq_none node List.mem_cons_self)) (h.fill host)

theorem assigned_fillAll (nodes : List Nat) (host : Nat) :
    (a.fillAll nodes host).assigned = a.assigned + nodes.length := by
  induction nodes generalizing a with
  | nil => rfl
  | cons node nodes ih =>
      rw [fillAll, List.foldl_cons, ← fillAll, ih, List.length_cons]
      show a.assigned + 1 + nodes.length = _
      omega

theorem nodesOn_fillAll {nodes : List Nat} (h : a.AllEmpty nodes) (host other : Nat) :
    (a.fillAll nodes host).nodesOn other =
      a.nodesOn other + if host = other then nodes.length else 0 := by
  induction nodes generalizing a with
  | nil => simp [fillAll]
  | cons node nodes ih =>
      rw [fillAll, List.foldl_cons, ← fillAll, ih (h.fill host),
        nodesOn_fill (h.lt_size node List.mem_cons_self) (h.host?_eq_none node List.mem_cons_self)]
      split
      · rw [List.length_cons]
        omega
      · rfl

/-! ## Operations -/

/-- Adding slots is to give the host to the node afterwards, unless there cannot be so many slots. -/
theorem assignGrowing_eq (a : Assignment) (node host : Nat) :
    assignGrowing node host a =
      if a.size ≤ node ∧ UInt64.size ≤ node + 1 then .error .overflow a
      else assign node host (a.growTo (node + 1)) := by
  rw [assignGrowing, Step.bind_apply, Step.get_apply]
  by_cases hpast : a.size ≤ node
  · by_cases hfits : node + 1 < UInt64.size
    · simp [hpast, Nat.not_le.mpr hfits, Overflow.word_of_lt hfits, Step.bind_apply]
    · simp [hpast, Nat.not_lt.mp hfits, Overflow.word_stops_of_le, Step.bind_apply]
  · rw [growTo_of_le (Nat.not_le.mp hpast)]
    simp [hpast]

/-- Giving a node a host leaves the count right, whether it succeeds or fails. -/
theorem Counted.after_assign (ha : a.Counted) (node host : Nat) :
    (Step.after (assign node host a)).Counted := by
  rcases assign_cases a node host with ⟨-, h⟩ | ⟨hlt, hnone, h⟩ | ⟨current, -, h⟩ <;> rw [h]
  · exact ha
  · exact ha.fill hlt hnone
  · split <;> exact ha

theorem Counted.operation (ha : a.Counted) (op : Operation) : (op.after a).Counted := by
  cases op with
  | assign node host => exact ha.after_assign node host
  | assignGrowing node host =>
      show (Step.after (assignGrowing node host a)).Counted
      rw [assignGrowing_eq]
      split
      · exact ha
      · exact (ha.growTo (node + 1)).after_assign node host

/-- **Whatever is done to an assignment** leaves the count right. -/
theorem Counted.afterAll (ha : a.Counted) (operations : List Operation) :
    (a.afterAll operations).Counted := by
  induction operations generalizing a with
  | nil => exact ha
  | cons op operations ih => exact ih (ha.operation op)

end GraphPlacement.Assignment
