import GraphPlacement.EdgePlacer.Run
import GraphPlacement.Proofs.Edges.Books
import GraphPlacement.Proofs.Edges.HostOfRecord
import GraphPlacement.Proofs.Ladder

/-!
# Streams that are placed to their end

**Receivers.** A receiver that never refuses a placement is a function of its state (`Takes`), so what it
has in the end is that function folded over the placements.

**One item.** An item that is gone through without a fault is an edge, a call has placed it, and the
receiver has taken the placement (`item_eq_ok`).

**All items.** So a stream that is placed to its end is a list of edges, and placing it is calling the
placer with these edges, each call making a placement (`all_eq_ok`).  What is known of calls is then
known of streams: `Accounts` gathers it, for hosts that were empty at the start.
-/

namespace GraphPlacement

/-- Whether a receiver takes every placement, and what that makes of its state. -/
def Takes {ρ : Type} (receiver : Receiver ρ) (take : ρ → Placement → ρ) : Prop :=
  ∀ x r, receiver x r = .ok () (take r x)

theorem takes_keepAll : Takes keepAll Array.push := fun _ _ => rfl

/-- A receiver that never refuses takes every placement. -/
theorem takes_of_never_refuses {ρ : Type} {receiver : Receiver ρ}
    (h : ∀ x r, ∃ s, receiver x r = .ok () s) : Takes receiver fun r x => Step.after (receiver x r) := by
  intro x r
  obtain ⟨s, hs⟩ := h x r
  show receiver x r = .ok () (Step.after (receiver x r))
  rw [hs]
  rfl

/-- What a receiver that takes every placement has after some of them. -/
theorem Takes.forM_eq {ρ : Type} {receiver : Receiver ρ} {take : ρ → Placement → ρ}
    (htakes : Takes receiver take) (xs : List Placement) (r : ρ) :
    xs.forM receiver r = .ok () (xs.foldl take r) := by
  induction xs generalizing r with
  | nil => rfl
  | cons x xs ih => exact Step.bind_eq_ok.mpr ⟨_, _, htakes x r, ih _⟩

namespace StreamRun

variable {ρ : Type} {receiver : Receiver ρ} {run next done : StreamRun ρ}
variable {entry : Except Fault Edge} {stream : List (Except Fault Edge)} {o : EdgeOutcome}

theorem placeEdge_eq_ok {e : Edge} {x : Placement} (h : placeEdge e run = .ok x next) :
    EdgePlacer.place e.src e.dst run.placer = .ok x next.placer ∧ next.received = run.received := by
  obtain ⟨_, _, hget, h⟩ := Step.bind_eq_ok.mp h
  cases hget
  obtain ⟨_, _, htell, h⟩ := Step.bind_eq_ok.mp h
  cases htell
  obtain ⟨placer, hcall, rfl⟩ := Step.onPart_eq_ok.mp h
  exact ⟨hcall, rfl⟩

theorem item_eq_ok (h : item receiver entry run = .ok () next) :
    ∃ e x, entry = .ok e ∧ EdgePlacer.place e.src e.dst run.placer = .ok x next.placer ∧
      receiver x run.received = .ok () next.received := by
  obtain ⟨e, m, hentry, hrest⟩ := Step.bind_eq_ok.mp h
  obtain ⟨rfl, rfl⟩ := Step.ofExcept_eq_ok.mp hentry
  obtain ⟨x, placed, hplace, hhand⟩ := Step.bind_eq_ok.mp hrest
  obtain ⟨hcall, hsame⟩ := placeEdge_eq_ok hplace
  obtain ⟨received, htake, rfl⟩ := Step.onPart_eq_ok.mp hhand
  exact ⟨e, x, rfl, hcall, hsame ▸ htake⟩

/-- The items of a stream are gone through as the placer is called with their edges, and then the receiver
with the placements. -/
theorem forM_item_eq_ok (h : stream.forM (item receiver) run = .ok () done) :
    ∃ es : List Edge, stream = es.map Except.ok ∧
      done.placer = (run.placer.callAll true (es.map Edge.ends)).placer ∧
      (run.placer.callAll true (es.map Edge.ends)).AllMade ∧
      (run.placer.callAll true (es.map Edge.ends)).placed.forM receiver run.received =
        .ok () done.received := by
  induction stream generalizing run with
  | nil =>
      cases h
      exact ⟨[], rfl, rfl, by simp [EdgePlacer.callAll, Calls.AllMade], rfl⟩
  | cons entry stream ih =>
      obtain ⟨_, next, hitem, hrest⟩ := Step.bind_eq_ok.mp h
      obtain ⟨e, x, rfl, hcall, hreceived⟩ := item_eq_ok hitem
      obtain ⟨es, rfl, hplacer, hmade, hkept⟩ := ih hrest
      have hcall' : EdgePlacer.call true e.src e.dst run.placer = .ok x next.placer := hcall
      refine ⟨e :: es, rfl, ?_, EdgePlacer.allMade_cons.mpr ⟨x, _, hcall', hmade⟩, ?_⟩
      · rw [hplacer, List.map_cons, Edge.ends, EdgePlacer.callAll, hcall']
        rfl
      · rw [List.map_cons, Edge.ends, EdgePlacer.placed_cons_of_ok hcall']
        exact Step.bind_eq_ok.mpr ⟨_, _, hreceived, hkept⟩

theorem all_eq_ok (h : all receiver stream run = .ok o done) :
    ∃ es : List Edge, stream = es.map Except.ok ∧
      (run.placer.callAll true (es.map Edge.ends)).AllMade ∧
      (run.placer.callAll true (es.map Edge.ends)).placer.finish = .ok o ∧
      (run.placer.callAll true (es.map Edge.ends)).placed.forM receiver run.received =
        .ok () done.received := by
  obtain ⟨_, middle, hitems, hclose⟩ := Step.bind_eq_ok.mp h
  obtain ⟨es, rfl, hplacer, hmade, hkept⟩ := forM_item_eq_ok hitems
  obtain ⟨_, _, hget, hrest⟩ := Step.bind_eq_ok.mp hclose
  cases hget
  obtain ⟨outcome, told, hdo, htell⟩ := Step.bind_eq_ok.mp hrest
  obtain ⟨hfinish, rfl⟩ := Step.ofExcept_eq_ok.mp hdo
  cases htell
  exact ⟨es, rfl, hmade, hplacer ▸ hfinish, hkept⟩

end StreamRun

namespace EdgePlacer

variable {ρ : Type} {receiver : Receiver ρ} {take : ρ → Placement → ρ} {initial : ρ}
variable {cfg : Config} {nodes : Nat} {start : Pool} {stream : List (Except Fault Edge)} {o : EdgeOutcome}

/-- What placing a stream comes to once the hosts are there. -/
theorem placeStream_of_pool (hstart : Pool.ofConfig cfg nodes = .ok start)
    (stream : List (Except Fault Edge)) (receiver : Receiver ρ) (initial : ρ) :
    let run := placeStream cfg nodes stream receiver initial
    let done := StreamRun.all receiver stream
      ⟨ofPool nodes start, initial, #[(ofPool nodes start).startEvent nodes]⟩
    run.result = Step.outcome done ∧ run.received = (Step.after done).received := by
  have hplacer : ofConfig cfg nodes = .ok (ofPool nodes start) := by
    simp [ofConfig, hstart, bind, Except.bind, pure, Except.pure]
  simp [placeStream, hplacer]

theorem placeStream_of_fault {fault : Fault} (hstart : Pool.ofConfig cfg nodes = .error fault)
    (stream : List (Except Fault Edge)) (receiver : Receiver ρ) (initial : ρ) :
    placeStream cfg nodes stream receiver initial = { result := .error fault, received := initial } := by
  have hplacer : ofConfig cfg nodes = .error fault := by
    simp [ofConfig, hstart, bind, Except.bind]
  simp [placeStream, hplacer]

/-- A placed stream is a list of edges, and placing it is calling a placer with them. -/
theorem placeStream_eq_ok (htakes : Takes receiver take)
    (h : (placeStream cfg nodes stream receiver initial).result = .ok o) :
    ∃ (start : Pool) (es : List Edge), Pool.ofConfig cfg nodes = .ok start ∧ stream = es.map Except.ok ∧
      ((ofPool nodes start).callAll true (es.map Edge.ends)).AllMade ∧
      ((ofPool nodes start).callAll true (es.map Edge.ends)).placer.finish = .ok o ∧
      (placeStream cfg nodes stream receiver initial).received =
        ((ofPool nodes start).callAll true (es.map Edge.ends)).placed.foldl take initial := by
  cases hstart : Pool.ofConfig cfg nodes with
  | error fault =>
      rw [placeStream_of_fault hstart] at h
      cases h
  | ok start =>
      obtain ⟨hresult, hreceived⟩ := placeStream_of_pool hstart stream receiver initial
      rw [hresult] at h
      cases hall : StreamRun.all receiver stream
          ⟨ofPool nodes start, initial, #[(ofPool nodes start).startEvent nodes]⟩ with
      | error fault done =>
          rw [hall] at h
          cases h
      | ok outcome done =>
          rw [hall] at h hreceived
          cases h
          obtain ⟨es, hstream, hmade, hfinish, hkept⟩ := StreamRun.all_eq_ok hall
          rw [htakes.forM_eq, EStateM.Result.ok.injEq] at hkept
          exact ⟨start, es, rfl, hstream, hmade, hfinish, hreceived.trans hkept.2.symm⟩

theorem loads_ofConfig (h : Pool.ofConfig cfg nodes = .ok start) :
    start.loads = Array.replicate cfg.hosts {} := by
  obtain ⟨ceiling, rise, h⟩ := Pool.exists_ofCeiling h
  obtain ⟨-, rfl⟩ := Pool.ofCeiling_eq_ok.mp h
  rfl

theorem totals_ofConfig (h : Pool.ofConfig cfg nodes = .ok start) :
    start.totalNodes = 0 ∧ start.totalEdges = 0 := by
  rw [Pool.totalNodes, Pool.totalEdges, loads_ofConfig h, Array.toList_replicate, List.map_replicate,
    List.map_replicate]
  show (List.replicate cfg.hosts 0).sum = 0 ∧ (List.replicate cfg.hosts 0).sum = 0
  simp

theorem check_ofConfig (h : Pool.ofConfig cfg nodes = .ok start) : start.check = .ok () := by
  obtain ⟨ceiling, rise, h⟩ := Pool.exists_ofCeiling h
  exact Pool.check_ofCeiling h

/-- Whether an outcome accounts for some placements of edges on hosts that were empty at the start. -/
structure Accounts (hosts nodes : Nat) (placed : List Placement) (o : EdgeOutcome) : Prop where
  size : o.assignment.size = nodes
  counted : o.assignment.Counted
  host_lt : ∀ v host, o.assignment.host? v = some host → host < hosts
  recorded : ∀ x ∈ placed, o.assignment.Recorded hosts x
  loads : o.loads = (List.range hosts).map fun host =>
    ⟨o.assignment.nodesOn host, placed.countP fun x => x.host = host⟩
  edges : o.edges = placed.length

/-- **A placed stream** has its edges placed in order, and its outcome accounts for them. -/
theorem placeStream_accounts {es : List Edge}
    (h : (placeStream cfg nodes (es.map Except.ok) keepAll #[]).result = .ok o) :
    let placed := (placeStream cfg nodes (es.map Except.ok) keepAll #[]).received.toList
    placed.map (fun x => x.placed.ends) = es.map Edge.ends ∧ Accounts cfg.hosts nodes placed o := by
  obtain ⟨start, es', hstart, hes, hmade, hfinish, hkept⟩ := placeStream_eq_ok takes_keepAll h
  obtain rfl : es = es' := Step.map_ok_inj hes
  intro placed
  have hexist := hostsExist_ofPool nodes start
  have hbooks := books_callAll nodes start true (es.map Edge.ends) hmade.allReturn
  have hrecording := recording_callAll nodes start true (es.map Edge.ends) (hmade .overflow)
  have hhosts : start.hosts = cfg.hosts := by simp [Pool.hosts, loads_ofConfig hstart]
  have hplaced : placed = ((ofPool nodes start).callAll true (es.map Edge.ends)).placed := by
    show (placeStream cfg nodes (es.map Except.ok) keepAll #[]).received.toList = _
    rw [hkept]
    simp
  obtain ⟨-, rfl⟩ := finish_eq_ok_iff.mp hfinish
  rw [hplaced, ← hhosts]
  refine ⟨ends_of_allMade hexist hmade, ?_, hbooks.counted, ?_, hrecording.recorded, ?_, hbooks.edges⟩
  · exact size_callAll_ofPool nodes start true (es.map Edge.ends)
  · intro v host hv
    exact hrecording.hosts_eq ▸ hrecording.hostsExist v host hv
  · refine List.ext_getElem? fun host => ?_
    rw [outcome, Array.getElem?_toList, hbooks.loads, loads_ofConfig hstart, hhosts, List.getElem?_map]
    by_cases hlt : host < cfg.hosts
    · simp [hlt]
    · simp [hlt]

end EdgePlacer

end GraphPlacement
