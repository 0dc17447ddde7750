import GraphPlacement.Edge
import GraphPlacement.Proofs.Cuts

/-!
# Counting in parts at the same time

**Calling off.** The chunks of a schedule may be counted at the same time, by workers that do not wait for each
other.  When one of them meets a fault the others need not go on: each may leave its chunk at any of its
edges (`Schedule.LeftEarly`), with the tally that it has come to.  Tallies are still added up along the
schedule, and of two faults it is the left one that is kept.

**What may be reported.** So a schedule has many reports (`Schedule.MayReport`): the one of counting all its
edges, and those of leaving chunks early since a fault has been met in one.  A tally that leaves edges out
is not among them, since a fault that is met in a chunk is kept through every addition
(`Schedule.meetsFault_iff`).  But it need not be the fault that counting from the left would meet first.
-/

namespace GraphPlacement

variable {a : Assignment} {s done : Schedule} {r : Except Fault Tally} {fault : Fault}

namespace Schedule

/-- Whether a schedule is what has been done of another one whose chunks were left early. -/
inductive LeftEarly : Schedule → Schedule → Prop
  | chunk (done left : List (Nat × Nat)) : LeftEarly (.chunk done) (.chunk (done ++ left))
  | join {l l' r r' : Schedule} (hl : LeftEarly l l') (hr : LeftEarly r r') :
      LeftEarly (.join l r) (.join l' r')

/-- Whether there is a chunk in which a fault is met. -/
def MeetsFault (a : Assignment) : Schedule → Prop
  | chunk es => ∃ fault, a.tally es = .error fault
  | join l r => l.MeetsFault a ∨ r.MeetsFault a

/-- What a schedule may report.  Chunks are left early only when a fault has been met in one of them. -/
def MayReport (s : Schedule) (a : Assignment) (r : Except Fault Tally) : Prop :=
  ∃ done : Schedule, (done = s ∨ done.LeftEarly s ∧ done.MeetsFault a) ∧ r = done.tally a

/-- No edges are counted that are not there. -/
theorem LeftEarly.edges_sublist (h : done.LeftEarly s) : done.edges.Sublist s.edges := by
  induction h with
  | chunk done left => exact List.sublist_append_left done left
  | join hl hr ihl ihr => exact ihl.append ihr

/-- **A fault is not lost**: counting fails exactly when it does so in some chunk. -/
theorem meetsFault_iff (s : Schedule) : s.MeetsFault a ↔ ∃ fault, s.tally a = .error fault := by
  induction s with
  | chunk es => exact Iff.rfl
  | join l r ihl ihr =>
      rw [MeetsFault, ihl, ihr, tally]
      cases l.tally a with
      | error fault => exact ⟨fun _ => ⟨fault, rfl⟩, fun _ => .inl ⟨fault, rfl⟩⟩
      | ok t =>
          cases r.tally a with
          | error fault => exact ⟨fun _ => ⟨fault, rfl⟩, fun _ => .inr ⟨fault, rfl⟩⟩
          | ok u =>
              constructor
              · rintro (⟨_, h⟩ | ⟨_, h⟩) <;> cases h
              · rintro ⟨_, h⟩
                cases h

theorem mayReport_tally (s : Schedule) (a : Assignment) : s.MayReport a (a.tally s.edges) :=
  ⟨s, .inl rfl, (s.tally_eq a).symm⟩

theorem MayReport.exists_end (h : s.MayReport a (.error fault)) :
    ∃ e ∈ s.edges, ∃ v, (v = e.1 ∨ v = e.2) ∧ a.size ≤ v ∧ fault = .nodeOutOfRange v a.size := by
  obtain ⟨done, hdone, htally⟩ := h
  have hedges : done.edges.Sublist s.edges := by
    rcases hdone with rfl | ⟨hearly, -⟩
    · exact List.Sublist.refl _
    · exact hearly.edges_sublist
  rw [done.tally_eq a] at htally
  obtain ⟨e, he, hend⟩ := Assignment.tally_eq_error htally.symm
  exact ⟨e, hedges.subset he, hend⟩

/-- A report without a fault is that of all edges. -/
theorem MayReport.eq_ok_iff (h : s.MayReport a r) {t : Tally} : r = .ok t ↔ a.tally s.edges = .ok t := by
  obtain ⟨done, rfl | ⟨hearly, hmet⟩, rfl⟩ := h
  · rw [done.tally_eq a]
  · obtain ⟨fault, hfault⟩ := done.meetsFault_iff.mp hmet
    have hreport : s.MayReport a (.error fault) := ⟨done, .inr ⟨hearly, hmet⟩, hfault.symm⟩
    obtain ⟨e, he, v, hv, hsize, -⟩ := hreport.exists_end
    rw [hfault]
    constructor
    · intro hr
      cases hr
    · intro htally
      have hin : e.1 < a.size ∧ e.2 < a.size := (Assignment.tally_eq_ok_iff.mp htally).1 e he
      omega

/-- If there is one node only that has no slot, there is one fault only to be met. -/
theorem MayReport.eq_tally {w : Nat} (h : s.MayReport a r)
    (honly : ∀ e ∈ s.edges, ∀ v, v = e.1 ∨ v = e.2 → a.size ≤ v → v = w) : r = a.tally s.edges := by
  cases r with
  | ok t => exact (h.eq_ok_iff.mp rfl).symm
  | error fault =>
      cases hall : a.tally s.edges with
      | ok t => exact h.eq_ok_iff.mpr hall
      | error first =>
          obtain ⟨e, he, v, hv, hsize, rfl⟩ := h.exists_end
          obtain ⟨e', he', v', hv', hsize', rfl⟩ := Assignment.tally_eq_error hall
          rw [honly e he v hv hsize, honly e' he' v' hv' hsize']

end Schedule

/-- **Every schedule agrees with counting from the left.**  Let the edges of a list be counted in any consecutive
chunks, with the tallies added up along any tree over them, and let chunks be left early or not when a
fault is met in one.  Then the report is a tally exactly when counting from the left gives it.  Otherwise it is
the fault of an endpoint without a slot that some edge of the list has; and if only one node without a slot
occurs, it is the fault that counting from the left gives. -/
theorem reports_agree_with_tally (a : Assignment) {edges : List Edge} {s : Schedule}
    (hedges : s.edges = edges.map Edge.ends) :
    let counted := a.tally (edges.map Edge.ends)
    s.MayReport a counted ∧ a.tallyInParts (edges.map Edge.ends) = counted ∧
      ∀ r, s.MayReport a r →
        (∀ t, r = .ok t ↔ counted = .ok t) ∧
        (∀ fault, r = .error fault → ∃ e ∈ edges, ∃ v, (v = e.src ∨ v = e.dst) ∧ a.size ≤ v ∧
          fault = .nodeOutOfRange v a.size) ∧
        ((∃ w, ∀ e ∈ edges, ∀ v, v = e.src ∨ v = e.dst → a.size ≤ v → v = w) → r = counted) := by
  intro counted
  have hcounted : a.tally s.edges = counted := by rw [hedges]
  refine ⟨hcounted ▸ s.mayReport_tally a, a.tallyInParts_eq _, fun r h => ⟨fun t => ?_, ?_, ?_⟩⟩
  · rw [h.eq_ok_iff, hcounted]
  · rintro fault rfl
    obtain ⟨e, he, v, hv, hsize, hfault⟩ := h.exists_end
    rw [hedges] at he
    obtain ⟨edge, hedge, rfl⟩ := List.mem_map.mp he
    exact ⟨edge, hedge, v, hv, hsize, hfault⟩
  · rintro ⟨w, honly⟩
    rw [← hcounted]
    refine h.eq_tally (w := w) fun e he v hv hsize => ?_
    rw [hedges] at he
    obtain ⟨edge, hedge, rfl⟩ := List.mem_map.mp he
    exact honly edge hedge v hv hsize

/-- Two chunks with a bad edge each.  If the first is left at once when the second has met its own, the report
is another fault than that of counting from the left; but no report is a tally. -/
theorem reports_agree_with_tally_on_two_faults :
    let a : Assignment := ⟨#[some 0, some 1, none], 2⟩
    let edges : List Edge := [⟨0, 1, 1.0⟩, ⟨5, 0, 1.0⟩, ⟨1, 2, 1.0⟩, ⟨2, 7, 1.0⟩]
    let s : Schedule := .join (.chunk [(0, 1), (5, 0)]) (.chunk [(1, 2), (2, 7)])
    s.edges = edges.map Edge.ends ∧ a.tally (edges.map Edge.ends) = .error (.nodeOutOfRange 5 3) ∧
      s.MayReport a (.error (.nodeOutOfRange 7 3)) ∧
      (∃ e ∈ edges, ∃ v, (v = e.src ∨ v = e.dst) ∧ a.size ≤ v ∧
        Fault.nodeOutOfRange 7 3 = .nodeOutOfRange v a.size) ∧
      ∀ t, ¬s.MayReport a (.ok t) := by
  intro a edges s
  have hedges : s.edges = edges.map Edge.ends := rfl
  have htally : a.tally (edges.map Edge.ends) = .error (.nodeOutOfRange 5 3) := rfl
  obtain ⟨-, -, hreports⟩ := reports_agree_with_tally a hedges
  have hearly : Schedule.LeftEarly (.join (.chunk [(0, 1)]) (.chunk [(1, 2), (2, 7)])) s :=
    .join (.chunk [(0, 1)] [(5, 0)]) (.chunk [(1, 2), (2, 7)] [])
  have hreport : s.MayReport a (.error (.nodeOutOfRange 7 3)) :=
    ⟨_, .inr ⟨hearly, .inr ⟨_, rfl⟩⟩, rfl⟩
  refine ⟨hedges, htally, hreport, (hreports _ hreport).2.1 _ rfl, fun t ht => ?_⟩
  have hcounted := ((hreports _ ht).1 t).mp rfl
  rw [htally] at hcounted
  cases hcounted

end GraphPlacement
