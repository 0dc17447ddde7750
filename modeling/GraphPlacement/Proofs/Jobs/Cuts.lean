import GraphPlacement.Proofs.Jobs.Review
import GraphPlacement.Proofs.Listing.NodeMap
import GraphPlacement.Proofs.Listing.Walk

/-!
# What counting the cuts of a listing reports

**All or nothing.** Counting the cuts of a node map over a listing reports the counts of all its edges, or the
first problem of the listing.  Which kind of problem it is makes no difference to which is the first.
-/

namespace GraphPlacement.Job

variable {nodeMap listing : String} {nodes : Nat} {mapped content : ByteArray} {a : Assignment} {desk : Desk}

/-- **Counting reports the first problem, or all edges.**  Take a node map that is read for a number of nodes,
and a listing in either format.  If there is a problem on a walk over the listing, line by line and edge by
edge, then counting fails with the first one; otherwise it gives the numbers of cut, evaluated and skipped
edges among all of them.  A line that is refused is so for not being text, or as malformed under its number.
And a group listing that can be read counts as any edge listing of the same pairs of nodes and targets. -/
theorem countCuts_reports_first_problem (hmap : desk.store.read nodeMap = .ok mapped)
    (ha : Listing.nodeMap mapped nodes = .ok a) (hlisting : desk.store.read listing = .ok content)
    (format : Listing.Format) :
    (Step.outcome (countCuts nodes nodeMap listing format desk) =
      match (Listing.walk content format).findSome? (Listing.problem? nodes) with
      | some fault => .error fault
      | none => .ok (a.cutsAmong ((Listing.walk content format).filterMap Except.toOption))) ∧
    (∀ number line fault, .error fault ∈ format.met number line →
      line = none ∧ fault = .unreadable .notText ∨
        ∃ text reason, line = some text ∧ fault = .malformed number reason) ∧
    ∀ lines pairs written es, Listing.allGroups content = .ok lines →
      desk.store.read pairs = .ok written → Listing.records (Listing.edges written) = .ok es →
      es.map Edge.ends = (lines.flatMap fun g => g.edges.map fun e => (g.node, e.dst)) →
      Step.outcome (countCuts nodes nodeMap pairs .edges desk) =
        Step.outcome (countCuts nodes nodeMap listing .groups desk) := by
  refine ⟨?_, fun number line fault hmet => Listing.fault_of_met hmet, ?_⟩
  · have htally := Listing.tally_eq a content format
    rw [Listing.size_nodeMap ha] at htally
    exact (countCuts_of_read hmap ha hlisting format).trans htally
  · intro lines pairs written es hlines hpairs hes hsame
    rw [countCuts_of_read hmap ha hpairs, countCuts_of_read hmap ha hlisting,
      Listing.tally_groups hlines hes hsame]

/-- Groups and the same edges in pairs are counted alike.  In the last listing the third line cannot be read, but
the second has an endpoint that is no node. -/
theorem countCuts_reports_first_problem_on_two_problems :
    let desk : Desk := ⟨.ofFiles [("map", "0 0\n1 1\n2 -1\n".toUTF8), ("groups", "0 2 1 2\n1 1 2\n".toUTF8),
      ("pairs", "0 1\n0 2 0.5\n\n1 2\n".toUTF8), ("bad", "0 1\n2 7\n1 two\n".toUTF8)], #[]⟩
    Step.outcome (countCuts 3 "map" "groups" .groups desk) = .ok ⟨1, 1, 2⟩ ∧
      Step.outcome (countCuts 3 "map" "pairs" .edges desk) = .ok ⟨1, 1, 2⟩ ∧
      Step.outcome (countCuts 3 "map" "bad" .edges desk) = .error (.nodeOutOfRange 7 3) := by
  intro desk
  have hmap : desk.store.read "map" = .ok "0 0\n1 1\n2 -1\n".toUTF8 := by decide +kernel
  have ha : Listing.nodeMap "0 0\n1 1\n2 -1\n".toUTF8 3 = .ok ⟨#[some 0, some 1, none], 2⟩ := by
    decide +kernel
  have hgroups : desk.store.read "groups" = .ok "0 2 1 2\n1 1 2\n".toUTF8 := by decide +kernel
  have hpairs : desk.store.read "pairs" = .ok "0 1\n0 2 0.5\n\n1 2\n".toUTF8 := by decide +kernel
  have hbad : desk.store.read "bad" = .ok "0 1\n2 7\n1 two\n".toUTF8 := by decide +kernel
  have hlines : Listing.allGroups "0 2 1 2\n1 1 2\n".toUTF8 =
      .ok [⟨0, [⟨0, 1, 1.0⟩, ⟨0, 2, 1.0⟩], false, "0 2 1 2"⟩, ⟨1, [⟨1, 2, 1.0⟩], false, "1 1 2"⟩] := by
    decide +kernel
  have hes : Listing.records (Listing.edges "0 1\n0 2 0.5\n\n1 2\n".toUTF8) =
      .ok [⟨0, 1, 1.0⟩, ⟨0, 2, 0.5⟩, ⟨1, 2, 1.0⟩] := by decide +kernel
  obtain ⟨hcounted, -, hsame⟩ := countCuts_reports_first_problem hmap ha hgroups .groups
  have hreport := hcounted.trans (show _ = .ok ⟨1, 1, 2⟩ by decide +kernel)
  refine ⟨hreport, (hsame _ _ _ _ hlines hpairs hes rfl).trans hreport, ?_⟩
  exact (countCuts_reports_first_problem hmap ha hbad .edges).1.trans (by decide +kernel)

end GraphPlacement.Job
