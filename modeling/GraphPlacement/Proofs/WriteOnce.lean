import GraphPlacement.Proofs.Sizes

/-!
# Hosts are given once

**One operation** finds no slot, fills an empty one, or finds a host that is there already (`step_cases`).  Slots
are added only for a node past the end, which has no host, so an operation that fails has added none.

**A history.** What a node has after any operations is what it had before, or else the host of the first
operation on it that has found a slot: `host?_afterAll`.  Later operations on it can only agree or fail.

**The count** that is kept beside the slots is the number of those that are filled, in every state
(`Counted.afterAll`).  So it tells whether all hosts exist: they do when the sizes of the hosts add up to it.
-/

namespace GraphPlacement.Assignment

variable {a b : Assignment} {op : Operation} {current v : Nat} {fault : Fault}

/-! ## One operation -/

/-- The assignment that an operation gives a host in: one with a slot for the node, if slots may be added. -/
def Operation.prepare (a : Assignment) : Operation → Assignment
  | .assign _ _ => a
  | .assignGrowing node _ => a.growTo (node + 1)

/-- An operation gives the host in the assignment prepared for it, unless the slots overflow. -/
theorem step_apply (op : Operation) (a : Assignment) :
    (a.host? op.node = none ∧ op.step a = .error .overflow a) ∨
      op.step a = Assignment.assign op.node op.host (op.prepare a) := by
  cases op with
  | assign => exact Or.inr rfl
  | assignGrowing node host =>
      show (_ ∧ Assignment.assignGrowing node host a = _) ∨ Assignment.assignGrowing node host a = _
      rw [assignGrowing_eq]
      split
      case isTrue hpast => exact Or.inl ⟨host?_eq_none_of_size_le hpast.1, rfl⟩
      case isFalse => exact Or.inr rfl

@[simp] theorem host?_prepare (op : Operation) (a : Assignment) (v : Nat) :
    (op.prepare a).host? v = a.host? v := by
  cases op with
  | assign => rfl
  | assignGrowing node host => exact host?_growTo (node + 1) v a

/-- No slots are added for a node that has one. -/
theorem prepare_of_lt_size (h : op.node < a.size) : op.prepare a = a := by
  cases op with
  | assign => rfl
  | assignGrowing node host => exact growTo_of_le h

/-- **What an operation comes to.** -/
theorem step_cases (op : Operation) (a : Assignment) :
    (a.host? op.node = none ∧ ∃ fault, foundSlot (.error fault) = false ∧
      (op = .assign op.node op.host ∨ fault = .overflow) ∧ op.step a = .error fault a) ∨
    (a.host? op.node = none ∧ op.node < (op.prepare a).size ∧
      op.step a = .ok () ((op.prepare a).fill op.node op.host)) ∨
    ∃ current, a.host? op.node = some current ∧
      op.step a = if current = op.host then .ok () a else .error (.reassigned op.node current op.host) a := by
  rcases step_apply op a with ⟨hnone, h⟩ | happly
  · exact Or.inl ⟨hnone, .overflow, rfl, Or.inr rfl, h⟩
  rw [happly]
  rcases assign_cases (op.prepare a) op.node op.host with ⟨hpast, h⟩ | ⟨hlt, hempty, h⟩ | ⟨current, hfilled, h⟩
  · cases op with
    | assign node host => exact Or.inl ⟨host?_eq_none_of_size_le hpast, _, rfl, Or.inl rfl, h⟩
    | assignGrowing node host => exact absurd (lt_size_growTo a node) (Nat.not_lt.mpr hpast)
  · exact Or.inr (Or.inl ⟨(host?_prepare op a op.node).symm.trans hempty, hlt, h⟩)
  · have hnode : a.host? op.node = some current := (host?_prepare op a op.node).symm.trans hfilled
    rw [prepare_of_lt_size (lt_size_of_host? hnode)] at h ⊢
    exact Or.inr (Or.inr ⟨current, hnode, h⟩)

/-- An operation on a node that has a host asks for this host, or fails and names it. -/
theorem step_of_host? (h : a.host? op.node = some current) :
    op.step a = if current = op.host then .ok () a else .error (.reassigned op.node current op.host) a := by
  rcases step_cases op a with ⟨hnone, -⟩ | ⟨hnone, -⟩ | ⟨other, hother, hstep⟩
  · cases h.symm.trans hnone
  · cases h.symm.trans hnone
  · rwa [Option.some.inj (h.symm.trans hother)]

/-- **An operation that fails** leaves the assignment as it was. -/
theorem eq_of_step_eq_error (h : op.step a = .error fault b) : b = a := by
  rcases step_cases op a with ⟨-, _, -, -, hstep⟩ | ⟨-, -, hstep⟩ | ⟨current, -, hstep⟩ <;> rw [hstep] at h
  · cases h
    rfl
  · cases h
  · split at h <;> cases h
    rfl

/-- An operation that may add slots does not fail for a node past the end. -/
theorem assignGrowing_ne_nodeOutOfRange (a b : Assignment) (node host v total : Nat) :
    assignGrowing node host a ≠ .error (.nodeOutOfRange v total) b := by
  intro h
  have hgrowing : Operation.step (.assignGrowing node host) a = .error (.nodeOutOfRange v total) b := h
  rcases step_cases (.assignGrowing node host) a with ⟨-, fault, -, hcause, hstep⟩ | ⟨-, -, hstep⟩ | ⟨_, -, hstep⟩
  · rcases hcause with hassign | rfl
    · cases hassign
    · cases hstep.symm.trans hgrowing
  · cases hstep.symm.trans hgrowing
  · rw [hstep] at hgrowing
    split at hgrowing <;> cases hgrowing

/-- After an operation a node has the host that it had, or the one it is given if it had none. -/
theorem host?_after (op : Operation) (a : Assignment) (v : Nat) :
    (op.after a).host? v = (a.host? v).or
      (if op.node = v ∧ foundSlot (Step.outcome (op.step a)) then some op.host else none) := by
  rw [Operation.after]
  rcases step_cases op a with ⟨-, fault, hfound, -, hstep⟩ | ⟨hnone, hlt, hstep⟩ | ⟨current, hcurrent, hstep⟩
  · simp [hstep, hfound]
  · rw [hstep, Step.after_ok, host?_fill hlt, host?_prepare]
    by_cases hv : v = op.node
    · simp [hv, hnone, foundSlot]
    · simp [hv, Ne.symm hv]
  · have hsame : Step.after (op.step a) = a := by
      rw [hstep]
      split <;> rfl
    rw [hsame]
    by_cases hv : op.node = v
    · simp [← hv, hcurrent]
    · simp [hv]

/-! ## A history -/

/-- **The first host that finds a slot stays**: what a node has after some operations. -/
theorem host?_afterAll (a : Assignment) (operations : List Operation) (v : Nat) :
    (a.afterAll operations).host? v = (a.host? v).or
      (((operations.zip (a.answers operations)).find? fun c => c.1.node = v ∧ foundSlot c.2).map
        fun c => c.1.host) := by
  induction operations generalizing a with
  | nil => simp [afterAll]
  | cons op operations ih =>
      have hlater := ih (op.after a)
      rw [host?_after, Option.or_assoc] at hlater
      refine hlater.trans (congrArg _ ?_)
      rw [answers, List.zip_cons_cons, List.find?_cons]
      by_cases hfirst : op.node = v ∧ foundSlot (Step.outcome (op.step a)) = true
      · simp [hfirst]
      · rw [if_neg hfirst, Option.none_or, decide_eq_false hfirst]

theorem length_pairs (a : Assignment) : a.pairs.length = a.slots.countP Option.isSome := by
  have hslots : a.slots.toList.countP Option.isSome =
      a.slots.toList.zipIdx.countP (Option.isSome ∘ Prod.fst) := by
    rw [← List.countP_map, List.zipIdx_map_fst]
  rw [pairs, List.length_filterMap_eq_countP, ← Array.countP_toList, hslots]
  exact List.countP_congr fun p _ => by simp

/-- The sizes of some hosts add up to all nodes that have a host exactly when no others are used. -/
theorem Counted.checkHosts_eq_ok_iff (ha : a.Counted) (hosts : Nat) :
    a.checkHosts hosts = .ok () ↔ (a.sizes hosts).sum = a.assigned := by
  rw [Assignment.checkHosts_eq_ok_iff, sum_sizes_eq, ha, List.countP_eq_length]
  simp [Prod.forall, mem_pairs]

/-- **Hosts are given once.**  Take any operations on an assignment that starts with any number of slots, all
of them empty; they may succeed or fail.  The count is then the number of filled slots, which are listed in
ascending order of their nodes.  A node has the host of the first operation on it that found a slot, if there
is one.  Whatever is done next, an operation on a node that has a host succeeds if it asks for the same host
and otherwise fails, naming the host that the node has; one that fails changes nothing; and none that may add
slots finds its node out of range.  The hosts that are used are all among the first so many exactly when the
sizes of these add up to the count. -/
theorem hosts_are_given_once {start : Assignment} (hstart : start = {} ∨ ∃ nodes, start = ofSize nodes)
    (operations : List Operation) :
    let a := start.afterAll operations
    (a.assigned = a.slots.countP Option.isSome ∧ a.assigned = a.pairs.length ∧
      a.pairs.Pairwise fun p q => p.1 < q.1) ∧
    (∀ v, a.host? v =
      ((operations.zip (start.answers operations)).find? fun c => c.1.node = v ∧ foundSlot c.2).map
        fun c => c.1.host) ∧
    (∀ (op : Operation) current, a.host? op.node = some current →
      op.step a = if current = op.host then .ok () a else .error (.reassigned op.node current op.host) a) ∧
    (∀ (op : Operation) fault b, op.step a = .error fault b → b = a) ∧
    (∀ node host v total b, assignGrowing node host a ≠ .error (.nodeOutOfRange v total) b) ∧
    ∀ hosts, a.checkHosts hosts = .ok () ↔ (a.sizes hosts).sum = a.assigned := by
  intro a
  obtain ⟨nodes, rfl⟩ : ∃ nodes, start = ofSize nodes := by
    rcases hstart with rfl | h
    · exact ⟨0, rfl⟩
    · exact h
  have hcounted : a.Counted := (counted_ofSize nodes).afterAll operations
  refine ⟨⟨hcounted.trans a.length_pairs, hcounted, a.pairs_ascending⟩, fun v => ?_,
    fun op current => step_of_host?, fun op fault b => eq_of_step_eq_error,
    fun node host v total b => assignGrowing_ne_nodeOutOfRange a b node host v total,
    hcounted.checkHosts_eq_ok_iff⟩
  rw [host?_afterAll, host?_ofSize, Option.none_or]

/-- From no slots at all: of two nodes that are given hosts, one past the end at first, the first is asked to move
and the second is given the same host again. -/
theorem hosts_are_given_once_from_nothing :
    let operations : List Operation :=
      [.assign 2 4, .assignGrowing 2 1, .assign 0 3, .assignGrowing 2 0, .assign 0 3]
    let a := afterAll {} operations
    (a.assigned = 2 ∧ a.host? 2 = some 1 ∧ a.host? 0 = some 3 ∧ a.host? 1 = none) ∧
      assign 2 4 a = .error (.reassigned 2 1 4) a ∧
      (a.sizes 4).sum = a.assigned ∧ ∃ fault, a.checkHosts 3 = .error fault := by
  intro operations a
  obtain ⟨⟨hcount, -⟩, hhost, hgiven, -, -, hhosts⟩ := hosts_are_given_once (Or.inl rfl) operations
  have htwo : a.host? 2 = some 1 := (hhost 2).trans (by decide)
  refine ⟨⟨hcount.trans (by decide), htwo, (hhost 0).trans (by decide), (hhost 1).trans (by decide)⟩,
    hgiven (.assign 2 4) 1 htwo, (hhosts 4).mp (by decide), ?_⟩
  cases hcheck : a.checkHosts 3 with
  | error fault => exact ⟨fault, rfl⟩
  | ok _ => exact absurd ((hhosts 3).mp hcheck) (by decide)

end GraphPlacement.Assignment
