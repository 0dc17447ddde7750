import GraphPlacement.Proofs.Edges.Stops
import GraphPlacement.Proofs.Listing.Edges
import Mathlib.Data.List.Infix

/-!
# Two passes over an edge listing

**One reading.** Both passes go through the items of a listing, and a counting pass that ends has shown
that these are edges and nothing else.  It has counted enough nodes for all of them, so the edges fit in
the graph that the second pass places them in.

**No more faults.** So nothing that has to do with the listing is left to stop the second pass: as long as
the pool is in order, it ends with as many placements as edges have been counted (`placeStream_ends`).

**The largest id.** A listing may hold edges only and still not be counted, if a node leaves no room for
the number after it.  Both sides are put together in `passes_agree`.
-/

namespace GraphPlacement.EdgePlacer

variable {ρ : Type} {receiver : Receiver ρ} {take : ρ → Placement → ρ}
variable {cfg : Config} {nodes : Nat} {start : Pool} {es : List Edge}

/-- **A stream of edges of the graph ends** while the pool is in order, with a placement for each edge, if nodes
and edges can be counted in words. -/
theorem placeStream_ends (hstart : Pool.ofConfig cfg nodes = .ok start)
    (hnodes : nodes < UInt64.size) (hedges : es.length < UInt64.size)
    (hfits : ∀ e ∈ es, e.src < nodes ∧ e.dst < nodes) (horder : StaysInOrder nodes start es)
    (htakes : Takes receiver take) (initial : ρ) :
    ∃ (o : EdgeOutcome) (placed : List Placement),
      (placeStream cfg nodes (es.map Except.ok) receiver initial).result = .ok o ∧ o.edges = es.length ∧
      placed.map (fun x => x.placed.ends) = es.map Edge.ends ∧
      (placeStream cfg nodes (es.map Except.ok) receiver initial).received = placed.foldl take initial := by
  cases hresult : (placeStream cfg nodes (es.map Except.ok) receiver initial).result with
  | error fault =>
      rcases placeStream_eq_error htakes hresult with ⟨hfault, -⟩ | ⟨start', placed, hstart', hstops, -⟩
      · rw [hstart] at hfault
        cases hfault
      · obtain rfl : start = start' := Except.ok.inj (hstart.symm.trans hstart')
        exact absurd horder (hstops.not_staysInOrder (totals_ofConfig hstart) hnodes hedges hfits)
  | ok o =>
      obtain ⟨start', es', hstart', hes, hmade, hfinish, hreceived⟩ := placeStream_eq_ok htakes hresult
      obtain rfl : start = start' := Except.ok.inj (hstart.symm.trans hstart')
      obtain rfl : es = es' := Step.map_ok_inj hes
      obtain ⟨-, rfl⟩ := finish_eq_ok_iff.mp hfinish
      have hends := ends_of_allMade (hostsExist_ofPool nodes start) hmade
      exact ⟨_, _, rfl, (edges_of_allMade nodes start hmade).trans (List.length_map Edge.ends), hends, hreceived⟩

/-- **The two passes agree.**  If a counting pass over a content ends, then the content holds edges only,
which are as many as were counted, and the number of nodes that was counted is the least above all their
endpoints.  Placing them in that graph ends for every configuration with hosts to place them on and every
receiver that refuses nothing, as long as the pool is in order and the edges can be counted in a word; it
hands over a placement for each edge.  If the content holds edges only but an endpoint is the largest number
that fits in a word, then the counting pass ends at the first such edge, with the number of its line. -/
theorem passes_agree (content : ByteArray) :
    (∀ counts, Listing.countEdges content = .ok counts →
      ∃ es, Listing.records (Listing.edges content) = .ok es ∧ counts.edges = es.length ∧
        IsLeast {n | ∀ e ∈ es, e.src < n ∧ e.dst < n} counts.nodes ∧
        ∀ cfg start, Pool.ofConfig cfg counts.nodes = .ok start → counts.edges < UInt64.size →
          StaysInOrder counts.nodes start es →
          ∀ {ρ : Type} (receiver : Receiver ρ) (initial : ρ), (∀ x r, ∃ s, receiver x r = .ok () s) →
            let run := placeStream cfg counts.nodes ((Listing.edges content).map Listing.Item.value)
              receiver initial
            ∃ (o : EdgeOutcome) (placed : List Placement), run.result = .ok o ∧
              o.edges = counts.edges ∧ placed.length = counts.edges ∧
              placed.map (fun x => x.placed.ends) = es.map Edge.ends ∧
              run.received = placed.foldl (fun r x => Step.after (receiver x r)) initial) ∧
    ∀ es, Listing.records (Listing.edges content) = .ok es →
      (∃ e ∈ es, e.src = Text.wordBound - 1 ∨ e.dst = Text.wordBound - 1) →
      ∃ before e later above text below, es = before ++ e :: later ∧
        (∀ x ∈ before, x.src ≠ Text.wordBound - 1 ∧ x.dst ≠ Text.wordBound - 1) ∧
        (e.src = Text.wordBound - 1 ∨ e.dst = Text.wordBound - 1) ∧
        Text.lines content = above ++ some text :: below ∧
        Listing.records (Listing.itemsFrom Listing.readEdge 0 above) = .ok before ∧
        Listing.readEdge (above.length + 1) text = .ok (some e) ∧
        Listing.countEdges content = .error (.malformed (above.length + 1) .nodeIdTooLarge) := by
  refine ⟨fun counts hcounts => ?_, fun es hes hlarge => ?_⟩
  · obtain ⟨es, hes, hids, rfl⟩ := Listing.countEdges_eq_ok hcounts
    refine ⟨es, Listing.records_eq_ok_iff.mpr hes, rfl, Listing.isLeast_nodesOf es, ?_⟩
    intro cfg start hstart hfew horder ρ receiver initial hnever
    obtain ⟨o, placed, hresult, hedges, hends, hreceived⟩ :=
      placeStream_ends hstart (Listing.nodesOf_lt hids) hfew (fun e he => Listing.lt_nodesOf he) horder
        (takes_of_never_refuses hnever) initial
    rw [hes]
    refine ⟨o, placed, hresult, hedges, ?_, hends, hreceived⟩
    rw [← List.length_map (f := fun x : Placement => x.placed.ends), hends, List.length_map]
  · have hbound : 0 < Text.wordBound := by decide
    obtain ⟨before, e, later, above, text, below, hsplit, hbefore, he, hlines, habove, hread, hcount⟩ :=
      Listing.countEdges_eq_error hes (by
        obtain ⟨e, he, hlarge⟩ := hlarge
        exact ⟨e, he, by omega⟩)
    refine ⟨before, e, later, above, text, below, hsplit, fun x hx => ?_, by omega, hlines, habove,
      hread, hcount⟩
    have hfits := hbefore x hx
    omega

/-- A path of four nodes with a loop at its end; and a listing that has the largest id on its third line and
once more after that. -/
theorem passes_agree_on_path :
    let content := "0 1\n\n1 2 0.5\n2 3\n3 3\n".toUTF8
    let run := placeStream {} 4 ((Listing.edges content).map Listing.Item.value) keepAll #[]
    let large := "5 6\n\n7 18446744073709551615\n18446744073709551615 0\n".toUTF8
    (∃ o, run.result = .ok o ∧ o.edges = 4 ∧ run.received.size = 4) ∧
    ∃ above text below, Text.lines large = above ++ some text :: below ∧ above.length = 2 ∧
      Listing.countEdges large = .error (.malformed 3 .nodeIdTooLarge) := by
  intro content run large
  constructor
  · have hcount : Listing.countEdges content = .ok ⟨4, 4⟩ := by decide +kernel
    have hread : Listing.records (Listing.edges content) =
        .ok [⟨0, 1, 1.0⟩, ⟨1, 2, 0.5⟩, ⟨2, 3, 1.0⟩, ⟨3, 3, 1.0⟩] := by decide +kernel
    have hpools : ((Pool.ofConfig {} 4).toOption.any fun start =>
        [(0, 1), (1, 2), (2, 3), (3, 3)].inits.all fun before =>
          let pool := ((ofPool 4 start).callAll true before).placer.pool
          pool.isFull = false ∧ pool.check = .ok ()) = true := by decide +kernel
    obtain ⟨es, hes, -, -, hplaces⟩ := (passes_agree content).1 _ hcount
    obtain rfl := Except.ok.inj (hes.symm.trans hread)
    cases hstart : Pool.ofConfig {} 4 with
    | error fault =>
        rw [hstart] at hpools
        cases hpools
    | ok start =>
        rw [hstart] at hpools
        have horder : StaysInOrder 4 start [⟨0, 1, 1.0⟩, ⟨1, 2, 0.5⟩, ⟨2, 3, 1.0⟩, ⟨3, 3, 1.0⟩] := by
          intro before hbefore
          have hpool := List.all_eq_true.mp hpools before ((List.mem_inits _ _).mpr hbefore)
          obtain ⟨hroom, hcheck⟩ := of_decide_eq_true hpool
          exact Pool.inOrder_of_isFull hroom hcheck
        obtain ⟨o, placed, hresult, hedges, hlength, -, hreceived⟩ :=
          hplaces {} start hstart (by decide) horder keepAll #[] fun x r => ⟨r.push x, rfl⟩
        refine ⟨o, hresult, hedges, ?_⟩
        have hkept : run.received = placed.foldl Array.push #[] := hreceived
        rw [hkept]
        simpa using hlength
  · have hread : Listing.records (Listing.edges large) =
        .ok [⟨5, 6, 1.0⟩, ⟨7, Text.wordBound - 1, 1.0⟩, ⟨Text.wordBound - 1, 0, 1.0⟩] := by decide +kernel
    have hcount : Listing.countEdges large = .error (.malformed 3 .nodeIdTooLarge) := by decide +kernel
    obtain ⟨-, -, -, above, text, below, -, -, -, hlines, -, -, hline⟩ :=
      (passes_agree large).2 _ hread ⟨⟨7, Text.wordBound - 1, 1.0⟩, by simp, by simp⟩
    have habove : 3 = above.length + 1 :=
      (Fault.malformed.inj (Except.error.inj (hcount.symm.trans hline))).1
    exact ⟨above, text, below, hlines, by omega, hcount⟩

end GraphPlacement.EdgePlacer
