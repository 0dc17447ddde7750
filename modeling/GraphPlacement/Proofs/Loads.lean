import GraphPlacement.Pool
import GraphPlacement.Proofs.Steps

/-!
# Loads that grow

**Counting.** What is counted on a host makes its counters greater, or it is not counted and the pool is as
before: `addNodes_cases`, `addEdge_cases`.

**Carrying.** Every edge that is placed ends up in the books of a pool in the same way, whatever rule
placed it: its host gets an edge more, and as many nodes more as the edge brought along (`Pool.carry`).

**Totals.** So the totals over all hosts grow by the same amounts (`totalNodes_carry`,
`totalEdges_carry`).
-/

namespace GraphPlacement

namespace Pool

variable {p : Pool} {host : Nat}

/-- The pool with so many nodes and edges more on a host. -/
def gain (host nodes edges : Nat) (p : Pool) : Pool :=
  { p with loads := p.loads.modify host fun load => ⟨load.nodes + nodes, load.edges + edges⟩ }

/-- The pool with an edge more on a host, and with it so many nodes more. -/
def carry (host count : Nat) (p : Pool) : Pool :=
  { p with loads := p.loads.modify host fun load => ⟨load.nodes + count, load.edges + 1⟩ }

@[simp] theorem hosts_carry (host count : Nat) (p : Pool) : (p.carry host count).hosts = p.hosts := by
  simp [carry, hosts]

theorem loads_gain (host nodes edges : Nat) (p : Pool) (other : Nat) :
    (p.gain host nodes edges).loads[other]? =
      p.loads[other]?.map fun load =>
        ⟨load.nodes + (if host = other then nodes else 0),
          load.edges + if host = other then edges else 0⟩ := by
  rw [gain, Array.getElem?_modify]
  by_cases h : host = other <;> simp [h]

theorem loads_carry (host count : Nat) (p : Pool) (other : Nat) :
    (p.carry host count).loads[other]? =
      p.loads[other]?.map fun load =>
        ⟨load.nodes + (if host = other then count else 0),
          load.edges + if host = other then 1 else 0⟩ := loads_gain host count 1 p other

@[simp] theorem hosts_gain (host nodes edges : Nat) (p : Pool) :
    (p.gain host nodes edges).hosts = p.hosts := by
  simp [gain, hosts]

theorem gain_zero (host : Nat) (p : Pool) : p.gain host 0 0 = p := by
  have hloads : p.loads.modify host (fun load => ⟨load.nodes + 0, load.edges + 0⟩) = p.loads := by
    refine Array.ext_getElem? fun i => ?_
    rw [Array.getElem?_modify]
    split <;> simp
  rw [gain, hloads]

/-- What is gained on a host in two goes is gained in one. -/
theorem gain_gain (host nodes edges nodes' edges' : Nat) (p : Pool) :
    (p.gain host nodes edges).gain host nodes' edges' = p.gain host (nodes + nodes') (edges + edges') := by
  have hloads : (p.gain host nodes edges).loads.modify host
      (fun load => ⟨load.nodes + nodes', load.edges + edges'⟩) =
        p.loads.modify host fun load => ⟨load.nodes + (nodes + nodes'), load.edges + (edges + edges')⟩ := by
    refine Array.ext_getElem? fun i => ?_
    rw [Array.getElem?_modify, Array.getElem?_modify, gain, Array.getElem?_modify]
    split
    · simp [Function.comp_def, Nat.add_assoc]
    · rfl
  rw [gain, hloads]
  rfl

theorem gain_one (host count : Nat) (p : Pool) : p.gain host count 1 = p.carry host count := rfl

/-! ## Counting -/

theorem setIfInBounds_eq_modify {loads : Array Load} {load : Load} (h : loads[host]? = some load)
    (change : Load → Load) : loads.setIfInBounds host (change load) = loads.modify host change := by
  obtain ⟨hlt, rfl⟩ := Array.getElem?_eq_some_iff.mp h
  refine Array.ext_getElem? fun i => ?_
  rw [Array.getElem?_modify, Array.getElem?_setIfInBounds]
  by_cases heq : host = i
  · subst heq
    simp [hlt]
  · simp [heq]

theorem update_apply (host : Nat) (change : Load → Except Fault Load) (p : Pool) :
    update host change p =
      match p.loads[host]? with
      | none => .error (.noSuchHost host) p
      | some load =>
        match change load with
        | .ok load => .ok () { p with loads := p.loads.setIfInBounds host load }
        | .error fault => .error fault p := by
  rw [update, Step.bind_apply, Step.get_apply]
  cases hload : p.loads[host]? with
  | none => simp [loadOf, hload, Step.bind_apply]
  | some load => cases hchange : change load <;> simp [loadOf, hload, hchange, Step.bind_apply]

/-- Nodes are counted on a host that exists as long as the counter is a word. -/
theorem addNodes_eq {load : Load} (h : p.loads[host]? = some load) (overflow : Overflow) (count : Nat) :
    update host (Load.addNodes overflow count) p =
      match overflow.word (load.nodes + count) with
      | .ok nodes => .ok () { p with loads := p.loads.setIfInBounds host { load with nodes } }
      | .error fault => .error fault p := by
  rw [update_apply, h]
  cases hword : overflow.word (load.nodes + count) <;>
    simp [Load.addNodes, hword, bind, Except.bind, pure, Except.pure]

theorem addEdge_eq {load : Load} (h : p.loads[host]? = some load) (overflow : Overflow) :
    update host (Load.addEdge overflow) p =
      match overflow.word (load.edges + 1) with
      | .ok edges => .ok () { p with loads := p.loads.setIfInBounds host { load with edges } }
      | .error fault => .error fault p := by
  rw [update_apply, h]
  cases hword : overflow.word (load.edges + 1) <;>
    simp [Load.addEdge, hword, bind, Except.bind, pure, Except.pure]

theorem addNodes_of_lt {load : Load} {count : Nat} (h : p.loads[host]? = some load)
    (hfits : load.nodes + count < UInt64.size) (overflow : Overflow) :
    update host (Load.addNodes overflow count) p = .ok () (p.gain host count 0) := by
  rw [addNodes_eq h, Overflow.word_of_lt hfits, gain, ← setIfInBounds_eq_modify h]
  rfl

theorem addEdge_of_lt {load : Load} (h : p.loads[host]? = some load)
    (hfits : load.edges + 1 < UInt64.size) (overflow : Overflow) :
    update host (Load.addEdge overflow) p = .ok () (p.gain host 0 1) := by
  rw [addEdge_eq h, Overflow.word_of_lt hfits, gain, ← setIfInBounds_eq_modify h]
  rfl

/-- **Nodes that are counted** are gained by the host, or they are too many. -/
theorem addNodes_cases (h : host < p.hosts) (count : Nat) :
    addNodes host count p = .ok () (p.gain host count 0) ∨ addNodes host count p = .error .overflow p := by
  have hload : p.loads[host]? = some p.loads[host] := Array.getElem?_eq_getElem h
  rcases Nat.lt_or_ge (p.loads[host].nodes + count) UInt64.size with hfits | hlarge
  · exact Or.inl (addNodes_of_lt hload hfits .stops)
  · exact Or.inr (by rw [addNodes, addNodes_eq hload, Overflow.word_stops_of_le hlarge])

theorem addEdge_cases (h : host < p.hosts) :
    addEdge host p = .ok () (p.gain host 0 1) ∨ addEdge host p = .error .overflow p := by
  have hload : p.loads[host]? = some p.loads[host] := Array.getElem?_eq_getElem h
  rcases Nat.lt_or_ge (p.loads[host].edges + 1) UInt64.size with hfits | hlarge
  · exact Or.inl (addEdge_of_lt hload hfits .stops)
  · exact Or.inr (by rw [addEdge, addEdge_eq hload, Overflow.word_stops_of_le hlarge])

/-! ## Totals -/

/-- Changing an entry that a measure reads as `count` more makes the whole measure `count` more. -/
theorem foldr_add_modify {measure : Load → Nat} {change : Load → Load} {count : Nat}
    (h : ∀ load, measure (change load) = measure load + count) (loads : List Load)
    (hlt : host < loads.length) :
    ((loads.modify host change).map measure).foldr (· + ·) 0 =
      (loads.map measure).foldr (· + ·) 0 + count := by
  induction loads generalizing host with
  | nil => cases hlt
  | cons load loads ih =>
      cases host with
      | zero =>
          simp only [List.modify_zero_cons, List.map_cons, List.foldr_cons, h]
          omega
      | succ host =>
          have hlater := ih (Nat.lt_of_succ_lt_succ hlt)
          simp only [List.modify_succ_cons, List.map_cons, List.foldr_cons, hlater]
          omega

theorem totalNodes_gain (h : host < p.hosts) (nodes edges : Nat) :
    (p.gain host nodes edges).totalNodes = p.totalNodes + nodes := by
  rw [totalNodes, gain, Array.toList_modify]
  exact foldr_add_modify (fun _ => rfl) _ (by simpa [hosts] using h)

theorem totalNodes_carry (h : host < p.hosts) (count : Nat) :
    (p.carry host count).totalNodes = p.totalNodes + count := totalNodes_gain h count 1

theorem totalEdges_carry (h : host < p.hosts) (count : Nat) :
    (p.carry host count).totalEdges = p.totalEdges + 1 := by
  rw [totalEdges, carry, Array.toList_modify]
  exact foldr_add_modify (fun _ => rfl) _ (by simpa [hosts] using h)

@[simp] theorem totalNodes_raise (p : Pool) : p.raise.totalNodes = p.totalNodes := by
  simp [totalNodes]

@[simp] theorem totalEdges_raise (p : Pool) : p.raise.totalEdges = p.totalEdges := by
  simp [totalEdges]

end Pool

end GraphPlacement
