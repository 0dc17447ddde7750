import GraphPlacement.Proofs.Checks
import GraphPlacement.Proofs.Edges.Ladder
import GraphPlacement.Proofs.Edges.Stops
import GraphPlacement.Proofs.Raises

/-!
# Streams up to their first problem

**Problems.** When it is an item's turn, three things can be wrong with it: it is no edge, it has an endpoint
that is no node, or its placement is refused.  These are the cases of `Problem`; only a refused placement has been
handed over.

**Ends.** A stream ends at the first item that has a problem, or after all items, with a final check that passes
(`exists_finish`).  Up to there it is the placer that is called with one edge after the other, and the receiver
that is given one placement after the other: `StreamEnds`.

**No end.** Nothing else can go wrong from inside.  On hosts that were empty at the start no counter
overflows, and the check after an edge passes, since there is room and no more nodes are counted than there
are (`Pool.check_of_room`).  But a rise may be so small that the ceiling does not change when it is added.  If
there is no room then, the ceiling is raised for ever, and the stream does not end: `RaisesForever`, of which
`stream_raises_forever_when_rise_is_lost` is a case.
-/

namespace GraphPlacement.EdgePlacer

variable {ρ : Type} {receiver : Receiver ρ} {initial : ρ} {cfg : Config} {nodes : Nat} {start : Pool}
variable {es : List Edge} {stream : List (Except Fault Edge)} {p q : EdgePlacer} {src dst : Nat} {fault : Fault}

/-! ## The end of a stream -/

/-- What can be wrong with an item when it is its turn, with the fault that this is reported as and the placements
that are handed over all the same.  The placer is `p` then, and the receiver has `taken`. -/
inductive Problem (nodes : Nat) (p : EdgePlacer) (receiver : Receiver ρ) (taken : ρ) :
    Except Fault Edge → Fault → List Placement → Prop
  /-- There is a fault in place of an edge. -/
  | noEdge (fault : Fault) : Problem nodes p receiver taken (.error fault) fault []
  /-- An endpoint is no node of the graph; the source is reported first. -/
  | noNode {e : Edge} (hout : nodes ≤ e.src ∨ nodes ≤ e.dst) :
      Problem nodes p receiver taken (.ok e)
        (.nodeOutOfRange (if nodes ≤ e.src then e.src else e.dst) nodes) []
  /-- The edge is placed, but the receiver refuses the placement. -/
  | refused {e : Edge} {x : Placement} {q : EdgePlacer} {fault : Fault} {left : ρ}
      (hplace : place e.src e.dst p = .ok x q) (hrefuse : receiver x taken = .error fault left) :
      Problem nodes p receiver taken (.ok e) fault [x]

/-- Whether some edges are placed one after the other, and what a receiver has taken then. -/
structure Passes (p : EdgePlacer) (receiver : Receiver ρ) (initial : ρ) (es : List Edge) (taken : ρ) : Prop where
  made : (p.callAll true (es.map Edge.ends)).AllMade
  taken_eq : (p.callAll true (es.map Edge.ends)).placed.forM receiver initial = .ok () taken

/-- How a stream ends: after which placements, and with which result. -/
inductive StreamEnds (nodes : Nat) (p : EdgePlacer) (receiver : Receiver ρ) (initial : ρ) :
    List (Except Fault Edge) → List Placement → Except Fault EdgeOutcome → Prop
  /-- No item has a problem. -/
  | finished {es : List Edge} {taken : ρ} {o : EdgeOutcome} (hpasses : Passes p receiver initial es taken)
      (hfinish : (p.callAll true (es.map Edge.ends)).placer.finish = .ok o) :
      StreamEnds nodes p receiver initial (es.map Except.ok)
        (p.callAll true (es.map Edge.ends)).placed (.ok o)
  /-- An item has a problem, and none before it has. -/
  | problem {es : List Edge} {taken : ρ} {entry : Except Fault Edge} {later : List (Except Fault Edge)}
      {fault : Fault} {last : List Placement} (hpasses : Passes p receiver initial es taken)
      (hproblem : Problem nodes (p.callAll true (es.map Edge.ends)).placer receiver taken entry fault last) :
      StreamEnds nodes p receiver initial (es.map Except.ok ++ entry :: later)
        ((p.callAll true (es.map Edge.ends)).placed ++ last) (.error fault)

/-- Whether the edges before some edge are placed and taken, but not the edge itself: no host has room when it is
placed, and no host ever has, however often the ceiling is raised. -/
def RaisesForever (p : EdgePlacer) (receiver : Receiver ρ) (initial : ρ) (stream : List (Except Fault Edge))
    (taken : ρ) : Prop :=
  ∃ es e later q, stream = es.map Except.ok ++ .ok e :: later ∧ Passes p receiver initial es taken ∧
    place e.src e.dst (p.callAll true (es.map Edge.ends)).placer = .error .neverRoom q ∧ q.pool.Hopeless

/-! ## Calls of a run -/

/-- After a call for an edge of the graph there is room, so the pool passes its check. -/
theorem check_of_room (hstart : Pool.ofConfig cfg nodes = .ok start) (hnodes : nodes < UInt64.size)
    (hmade : ((ofPool nodes start).callAll true (es.map Edge.ends)).AllMade) {x : Placement}
    (h : call false src dst ((ofPool nodes start).callAll true (es.map Edge.ends)).placer = .ok x q) :
    q.pool.check = .ok () := by
  have hled := led_callAll nodes start true (es.map Edge.ends)
  have hleads := (hled.call false src dst).leads
  have hbooks := (books_callAll nodes start true (es.map Edge.ends) hmade.allReturn).placed h
  obtain ⟨_, _, d, -, -, rfl⟩ := call_eq_ok hled.hostsExist h
  have hsize := size_callAll_ofPool nodes start true (es.map Edge.ends)
  have hassigned := hbooks.counted.assigned_le_size
  rw [size_commit, hsize] at hassigned
  have htotal := hbooks.totalNodes
  rw [(totals_ofConfig hstart).1, Nat.zero_add] at htotal
  rw [h] at hleads
  have hroom := isFull_of_call_eq_ok hled.hostsExist h
  exact Pool.check_of_room hstart hnodes hleads (htotal.trans_le hassigned) hroom

/-- **A call for an edge of the graph** that makes no placement looks for room in vain, if the calls before it have
made theirs. -/
theorem neverRoom_of_call_eq_error (hstart : Pool.ofConfig cfg nodes = .ok start) (hnodes : nodes < UInt64.size)
    (hedges : es.length + 1 < UInt64.size) (hsrc : src < nodes) (hdst : dst < nodes)
    (hmade : ((ofPool nodes start).callAll true (es.map Edge.ends)).AllMade)
    (h : call true src dst ((ofPool nodes start).callAll true (es.map Edge.ends)).placer = .error fault q) :
    fault = .neverRoom ∧ q.pool.Hopeless := by
  have hexist := hostsExist_callAll nodes start true (es.map Edge.ends)
  have hsize := size_callAll_ofPool nodes start true (es.map Edge.ends)
  have hcounted := not_overflows_of_allMade (totals_ofConfig hstart) hnodes hedges hsrc hdst hmade
  rcases fault_of_call_eq_error hexist (hsize.symm ▸ hsrc) (hsize.symm ▸ hdst) h with
    hnone | ⟨-, hlarge⟩ | ⟨cause, -, -, hcheck, x, hcall⟩
  · exact hnone
  · exact absurd hlarge hcounted
  · rw [check_of_room hstart hnodes hmade hcall] at hcheck
    cases hcheck

/-- An item that fails has a problem, and the receiver is left as the problem leaves it, or room is looked for in
vain. -/
theorem exists_problem (hstart : Pool.ofConfig cfg nodes = .ok start) (hnodes : nodes < UInt64.size)
    (hedges : es.length + 1 < UInt64.size)
    (hmade : ((ofPool nodes start).callAll true (es.map Edge.ends)).AllMade) {run done : StreamRun ρ}
    {entry : Except Fault Edge}
    (hplacer : run.placer = ((ofPool nodes start).callAll true (es.map Edge.ends)).placer)
    (h : StreamRun.item receiver entry run = .error fault done) :
    (∃ last, Problem nodes run.placer receiver run.received entry fault last ∧
      done.received = Step.after (last.forM receiver run.received)) ∨
    fault = .neverRoom ∧ done.received = run.received ∧
      ∃ e q, entry = .ok e ∧ place e.src e.dst run.placer = .error .neverRoom q ∧ q.pool.Hopeless := by
  rcases StreamRun.item_eq_error h with ⟨rfl, hkept⟩ | ⟨e, rfl, ⟨hcall, hkept⟩ | ⟨x, q, hcall, hrefuse⟩⟩
  · exact Or.inl ⟨[], .noEdge fault, hkept⟩
  · have hsize : run.placer.assignment.size = nodes := by
      rw [hplacer, size_callAll_ofPool]
    by_cases hout : nodes ≤ e.src ∨ nodes ≤ e.dst
    · rw [call_past_end (hsize ▸ hout), hsize] at hcall
      obtain ⟨rfl, -⟩ := EStateM.Result.error.inj hcall
      exact Or.inl ⟨[], .noNode hout, hkept⟩
    · have hin : e.src < nodes ∧ e.dst < nodes := by omega
      obtain ⟨rfl, hopeless⟩ :=
        neverRoom_of_call_eq_error hstart hnodes hedges hin.1 hin.2 hmade (hplacer ▸ hcall)
      exact Or.inr ⟨rfl, hkept, e, _, rfl, hcall, hopeless⟩
  · have hhanded : [x].forM receiver run.received = .error fault done.received := Step.bind_of_error hrefuse _
    exact Or.inl ⟨[x], .refused hcall hrefuse, by rw [hhanded, Step.after_error]⟩

/-- The first edge of a run raises the ceiling for ever if it fills the hosts and the rise is lost when it is added
to the ceiling. -/
theorem neverRoom_of_lost_rise {host : Nat} (hstart : Pool.ofConfig cfg nodes = .ok start)
    (hnodes : nodes < UInt64.size) (hsrc : src < nodes) (hdst : dst < nodes) (hne : src ≠ dst)
    (hlight : start.lightest? = some host) (hlost : start.ceiling + start.rise = start.ceiling)
    (hfull : (start.carry host 2).isFull = true) :
    ∃ q, place src dst (ofPool nodes start) = .error .neverRoom q := by
  have hexist := hostsExist_ofPool nodes start
  have hsize := size_ofPool nodes start
  cases hcall : call true src dst (ofPool nodes start) with
  | error fault q =>
      have hnone : ((ofPool nodes start).callAll true (([] : List Edge).map Edge.ends)).AllMade := by
        simp [callAll, Calls.AllMade]
      obtain ⟨rfl, -⟩ := neverRoom_of_call_eq_error hstart hnodes (by decide) hsrc hdst hnone hcall
      exact ⟨q, hcall⟩
  | ok x q =>
      have hstill : start.raise = start :=
        Pool.raise_of_not_isFull (Pool.isFull_of_accepts? (Pool.accepts?_of_lightest? hlight))
      have hdecided : (ofPool nodes start).decide? src dst = some ⟨host, .freshPair, [src, dst], start⟩ := by
        have hnone := Assignment.host?_ofSize nodes
        simp only [decide?, ofPool, hnone, hstill, hlight, ends, if_neg hne, Option.map_some]
      have hpool : ((ofPool nodes start).commit ⟨host, .freshPair, [src, dst], start⟩).pool.isFull = true :=
        (Pool.hopeless_of_lost_rise (p := start.carry host 2) hlost hfull).isFull_raise
      rw [call_eq hexist (hsize.symm ▸ hsrc) (hsize.symm ▸ hdst), hdecided] at hcall
      split at hcall
      case h_1 heq => cases heq
      case h_2 d heq =>
        cases heq
        split at hcall
        case h_1 => cases hcall
        case h_2 =>
          rw [if_pos hpool] at hcall
          cases hcall

/-! ## Streams -/

/-- A run that has placed all its edges on hosts that were empty at the start can be finished. -/
theorem exists_finish (hstart : Pool.ofConfig cfg nodes = .ok start)
    (hmade : ((ofPool nodes start).callAll true (es.map Edge.ends)).AllMade) :
    ∃ o, ((ofPool nodes start).callAll true (es.map Edge.ends)).placer.finish = .ok o ∧ o.edges = es.length := by
  have hbooks := books_callAll nodes start true (es.map Edge.ends) hmade.allReturn
  have hempty : (ofPool nodes start).pool.check = .ok () := check_ofConfig hstart
  have hpool := check_of_allMade hempty hmade
  refine ⟨_, finish_eq_ok_iff.mpr ⟨(hbooks.check_eq_ok_iff hpool).mpr (totals_ofConfig hstart), rfl⟩, ?_⟩
  exact (edges_of_allMade nodes start hmade).trans (List.length_map Edge.ends)

/-- A stream ends as it does when its edges are placed one after the other, or it does not end. -/
theorem exists_streamEnds (hstart : Pool.ofConfig cfg nodes = .ok start) (hnodes : nodes < UInt64.size)
    (hitems : stream.length < UInt64.size) (receiver : Receiver ρ) (initial : ρ) :
    let run := placeStream cfg nodes stream receiver initial
    (∃ handed, StreamEnds nodes (ofPool nodes start) receiver initial stream handed run.result ∧
      run.received = Step.after (handed.forM receiver initial) ∧
      ∀ o, run.result = .ok o → o.edges = stream.length) ∨
    run.result = .error .neverRoom ∧
      RaisesForever (ofPool nodes start) receiver initial stream run.received := by
  intro run
  obtain ⟨hresult, hreceived⟩ := placeStream_of_pool hstart stream receiver initial
  rw [hresult, hreceived]
  cases hall : StreamRun.all receiver stream
      ⟨ofPool nodes start, initial, #[(ofPool nodes start).startEvent nodes]⟩ with
  | ok o done =>
      obtain ⟨es, rfl, hmade, hfinish, htaken⟩ := StreamRun.all_eq_ok hall
      obtain ⟨o', hfinish', hedges⟩ := exists_finish hstart hmade
      obtain rfl : o = o' := Except.ok.inj (hfinish.symm.trans hfinish')
      refine Or.inl ⟨_, .finished ⟨hmade, htaken⟩ hfinish, by rw [htaken]; rfl, fun o' ho' => ?_⟩
      rw [← Except.ok.inj ho', hedges, List.length_map]
  | error fault done =>
      rcases Step.bind_eq_error.mp hall with hloop | ⟨_, middle, hloop, hclose⟩
      · obtain ⟨es, entry, later, middle, rfl, hplacer, hmade, htaken, hentry⟩ :=
          StreamRun.forM_item_eq_error hloop
        have hedges : es.length + 1 < UInt64.size := by
          rw [List.length_append, List.length_map, List.length_cons] at hitems
          omega
        rcases exists_problem hstart hnodes hedges hmade hplacer hentry with
          ⟨last, hproblem, hleft⟩ | ⟨rfl, hkept, e, q, rfl, hplace, hopeless⟩
        · rw [hplacer] at hproblem
          refine Or.inl ⟨_, .problem ⟨hmade, htaken⟩ hproblem, ?_, fun o ho => by cases ho⟩
          rw [Step.forM_append_of_ok htaken]
          exact hleft
        · refine Or.inr ⟨rfl, es, e, later, q, rfl, ⟨hmade, ?_⟩, hplacer ▸ hplace, hopeless⟩
          exact htaken.trans (congrArg _ hkept.symm)
      · obtain ⟨es, rfl, hplacer, hmade, -⟩ := StreamRun.forM_item_eq_ok hloop
        obtain ⟨o, hfinish, -⟩ := exists_finish hstart hmade
        rw [← hplacer, (StreamRun.close_eq_error hclose).1] at hfinish
        cases hfinish

/-- **A stream ends at its first problem**, for every configuration, every list of items and every receiver,
which may refuse any placement, as long as words can count the nodes and the items.  If there are no hosts to
place on, that is the result, and nothing is handed over.  Else the receiver is given, in order, the
placements that the calls with the edges before the first problem make, and the one that it refuses if that is
the problem; the result is the fault that the problem is reported as.  Without a problem it is what the placer
comes to when it is finished, which is with as many edges as there are items.  The only other thing that can
happen is that the ceiling is raised for ever, at an edge before which there is no problem; then the receiver
has been given the placements of the edges before it. -/
theorem stream_ends_at_first_problem (cfg : Config) {nodes : Nat} (hnodes : nodes < UInt64.size)
    {stream : List (Except Fault Edge)} (hitems : stream.length < UInt64.size)
    (receiver : Receiver ρ) (initial : ρ) :
    let run := placeStream cfg nodes stream receiver initial
    (∀ fault, ofConfig cfg nodes = .error fault → run.result = .error fault ∧ run.received = initial) ∧
    ∀ p, ofConfig cfg nodes = .ok p →
      (∃ handed, StreamEnds nodes p receiver initial stream handed run.result ∧
        run.received = Step.after (handed.forM receiver initial) ∧
        ∀ o, run.result = .ok o → o.edges = stream.length) ∨
      run.result = .error .neverRoom ∧ RaisesForever p receiver initial stream run.received := by
  intro run
  constructor
  · intro fault hfault
    simp [run, placeStream, hfault]
  · intro p hp
    obtain ⟨start, hstart, hp⟩ := Step.except_bind_eq_ok.mp hp
    cases hp
    exact exists_streamEnds hstart hnodes hitems receiver initial

/-- A receiver that refuses the third placement, which it keeps all the same; the problems that come later in the
stream are not met.  Without hosts nothing is handed over. -/
theorem stream_ends_at_first_problem_on_refusal :
    let stream : List (Except Fault Edge) :=
      [.ok ⟨0, 1, 1.0⟩, .ok ⟨1, 2, 1.0⟩, .ok ⟨3, 3, 1.0⟩, .ok ⟨0, 9, 1.0⟩, .error (.malformed 5 .placementFields)]
    let receiver : Receiver (Array Placement) := fun x taken =>
      if taken.size = 2 then .error (.unreadable .missing) (taken.push x) else .ok () (taken.push x)
    let run := placeStream {} 4 stream receiver #[]
    let empty := placeStream { hosts := 0 } 4 stream receiver #[]
    (∃ p handed, ofConfig {} 4 = .ok p ∧ StreamEnds 4 p receiver #[] stream handed run.result ∧
      (Step.after (handed.forM receiver #[])).map (fun x => x.placed.ends) = #[(0, 1), (1, 2), (3, 3)]) ∧
    empty.result = .error .noHosts ∧ empty.received = #[] := by
  intro stream receiver run empty
  have hnodes : 4 < UInt64.size := by decide
  have hitems : stream.length < UInt64.size := by decide
  constructor
  · have hreceived : run.received.map (fun x => x.placed.ends) = #[(0, 1), (1, 2), (3, 3)] := by decide +kernel
    have hhosts : (ofConfig {} 4).toOption.isSome = true := by decide +kernel
    have hrefused : run.result.map (fun _ => ()) = .error (.unreadable .missing) := by decide +kernel
    cases hp : ofConfig {} 4 with
    | error fault =>
        rw [hp] at hhosts
        cases hhosts
    | ok p =>
        rcases (stream_ends_at_first_problem {} hnodes hitems receiver #[]).2 p hp with
          ⟨handed, hends, hkept, -⟩ | ⟨hstuck, -⟩
        · exact ⟨p, handed, rfl, hends, hkept ▸ hreceived⟩
        · have hresult : run.result = .error .neverRoom := hstuck
          rw [hresult] at hrefused
          cases hrefused
  · exact (stream_ends_at_first_problem { hosts := 0 } hnodes hitems receiver #[]).1 .noHosts rfl

/-- Such a stream there is: a host that the first edge fills up to its ceiling of two, which stays where it is when
the rise is added.  No item has a problem, and the receiver keeps all placements; yet the stream has no end. -/
theorem stream_raises_forever_when_rise_is_lost :
    let cfg : Config := { hosts := 1, slack := 0.0, growth := 1e-17 }
    let stream : List (Except Fault Edge) := [.ok ⟨0, 1, 1.0⟩]
    let run := placeStream cfg 2 stream keepAll #[]
    ∃ p, ofConfig cfg 2 = .ok p ∧
      run.result = .error .neverRoom ∧ RaisesForever p keepAll #[] stream run.received ∧
      ∀ handed result, ¬StreamEnds 2 p keepAll #[] stream handed result := by
  intro cfg stream run
  have hopened : (Pool.ofConfig cfg 2).toOption.any (fun start =>
      start.lightest? = some 0 ∧ start.ceiling + start.rise = start.ceiling ∧
        (start.carry 0 2).isFull = true) = true := by decide +kernel
  cases hstart : Pool.ofConfig cfg 2 with
  | error fault =>
      rw [hstart] at hopened
      cases hopened
  | ok start =>
      rw [hstart] at hopened
      obtain ⟨hlight, hlost, hfull⟩ := of_decide_eq_true hopened
      have hsrc : 0 < 2 := by decide
      have hdst : 1 < 2 := by decide
      have hitems : stream.length < UInt64.size := by decide
      obtain ⟨q, hplace⟩ :=
        neverRoom_of_lost_rise hstart (by decide) hsrc hdst (by decide) hlight hlost hfull
      have hendless : ∀ handed result, ¬StreamEnds 2 (ofPool 2 start) keepAll #[] stream handed result := by
        intro handed result hends
        generalize hstream : stream = items at hends
        cases hends with
        | finished hpasses =>
            obtain ⟨e, rfl, he⟩ := List.map_eq_singleton_iff.mp hstream.symm
            cases he
            obtain ⟨x, q', hmade, -⟩ := allMade_cons.mp hpasses.made
            cases hplace.symm.trans hmade
        | @problem es _ _ _ _ _ hpasses hproblem =>
            cases es with
            | cons e es => simp [stream] at hstream
            | nil =>
                obtain ⟨rfl, -⟩ := List.cons.inj hstream
                cases hproblem with
                | noNode hout => exact absurd hout (by decide)
                | refused hmade => cases hplace.symm.trans hmade
      rcases exists_streamEnds hstart (by decide) hitems keepAll #[] with
        ⟨handed, hends, -⟩ | ⟨hresult, hforever⟩
      · exact absurd hends (hendless handed _)
      · exact ⟨ofPool 2 start, by rw [ofConfig, hstart]; rfl, hresult, hforever, hendless⟩

end GraphPlacement.EdgePlacer
