import GraphPlacement.Proofs.Slots
import Mathlib

/-!
# How many nodes each host has

**Counting.** The sizes of the hosts are counted in one pass over the nodes that have a host.  The pass
adds one in a place of its own for each node, so in the end each host has the number of its nodes
(`sizes_eq_map_nodesOn`).  The sizes add up to the nodes on the hosts that are counted (`sum_sizes_eq`), and if
all hosts exist, to all of the nodes (`sum_sizes`).
-/

namespace GraphPlacement.Assignment

variable {a : Assignment} {hosts host : Nat}

/-- A pass over some pairs adds to each count the number of pairs that are its own. -/
theorem getElem?_foldl_modify (pairs : List (Nat × Nat)) (counts : Array Nat) (host : Nat) :
    (pairs.foldl (fun counts p => counts.modify p.2 (· + 1)) counts)[host]? =
      counts[host]?.map (· + pairs.countP fun p => p.2 = host) := by
  induction pairs generalizing counts with
  | nil => simp
  | cons p pairs ih =>
      rw [List.foldl_cons, ih, Array.getElem?_modify, List.countP_cons]
      by_cases h : p.2 = host
      · simp [h, Function.comp_def, Nat.add_assoc, Nat.add_comm 1]
      · simp [h]

theorem sizes_eq_map_nodesOn (a : Assignment) (hosts : Nat) :
    a.sizes hosts = (List.range hosts).map a.nodesOn := by
  refine List.ext_getElem? fun host => ?_
  rw [sizes, Array.getElem?_toList, getElem?_foldl_modify, List.getElem?_map]
  by_cases h : host < hosts
  · simp [h, nodesOn]
  · simp [h]

theorem countP_lt_succ (pairs : List (Nat × Nat)) (host : Nat) :
    (pairs.countP fun p => p.2 < host + 1) =
      (pairs.countP fun p => p.2 < host) + pairs.countP fun p => p.2 = host := by
  induction pairs with
  | nil => rfl
  | cons p pairs ih =>
      simp only [List.countP_cons, ih, decide_eq_true_eq]
      split <;> split <;> split <;> omega

/-- The sizes of some hosts add up to the number of nodes that are on them. -/
theorem sum_sizes_eq (a : Assignment) (hosts : Nat) :
    (a.sizes hosts).sum = a.pairs.countP fun p => p.2 < hosts := by
  rw [sizes_eq_map_nodesOn]
  induction hosts with
  | zero => simp
  | succ hosts ih =>
      rw [List.range_succ, List.map_append, List.sum_append, ih, List.map_singleton, List.sum_singleton,
        nodesOn, countP_lt_succ]

/-- The sizes of all hosts that are used add up to the number of nodes that have a host. -/
theorem sum_sizes (h : ∀ v host, a.host? v = some host → host < hosts) :
    (a.sizes hosts).sum = a.pairs.length := by
  rw [sum_sizes_eq, List.countP_eq_length]
  rintro ⟨v, host⟩ hp
  exact decide_eq_true (h v host (mem_pairs.mp hp))

/-- A list that names the nodes that have a host names as many different ones as there are. -/
theorem length_pairs_eq_card {nodes : List Nat}
    (h : ∀ v, (∃ host, a.host? v = some host) ↔ v ∈ nodes) :
    a.pairs.length = nodes.toFinset.card := by
  have hsame : nodes.toFinset = (a.pairs.map Prod.fst).toFinset := by
    ext v
    simp [← h, mem_pairs]
  rw [hsame, List.toFinset_card_of_nodup a.nodes_nodup, List.length_map]

/-- A set with the nodes of a host has as many members as the host has nodes. -/
theorem length_eq_nodesOn {held : List Nat} (hnodup : held.Nodup)
    (h : ∀ v, v ∈ held ↔ a.host? v = some host) : held.length = a.nodesOn host := by
  have hperm : held.Perm ((a.pairs.filter fun p => p.2 = host).map Prod.fst) := by
    refine (List.perm_ext_iff_of_nodup hnodup ?_).mpr fun v => ?_
    · exact a.nodes_nodup.sublist (List.filter_sublist.map Prod.fst)
    · simp [h, mem_pairs]
  rw [hperm.length_eq, List.length_map, nodesOn, List.countP_eq_length_filter]

end GraphPlacement.Assignment
