import GraphPlacement.Proofs.Cuts
import GraphPlacement.Proofs.Slots
import GraphPlacement.Quality.Borrowed
import Mathlib.Algebra.GroupWithZero.Nat
import Mathlib.Algebra.Order.BigOperators.Group.List
import Mathlib.Algebra.Order.Group.Nat

/-!
# Cut edges and borrowed endpoints

**Edge by edge.** A cut edge has to borrow an endpoint wherever it is counted, since its endpoints are on two hosts
and it is counted on one.  It borrows no more than that if it is counted where an endpoint is, and an edge that is
not cut borrows nothing then: `mustBorrow_le_and_eq_iff`.

**All edges.** Both measures are sums over the edges (`borrowed_eq_ok`, `cut_eq_sum`).  Since no edge borrows less
than it must, none makes up for another, and the sums are equal exactly when they are so edge by edge.
-/

namespace GraphPlacement.Assignment

variable {a : Assignment} {hosts total : Nat} {p : Placed} {placed : List Placed}

/-! ## One edge -/

/-- The endpoints that a placed edge borrows, if its host and endpoints exist. -/
def borrowedEnds (a : Assignment) (p : Placed) : Nat :=
  borrows p.host (a.host? p.src) + borrows p.host (a.host? p.dst)

/-- The endpoints that an edge has to borrow wherever it is counted: one if it is cut, else none. -/
def mustBorrow (a : Assignment) (p : Placed) : Nat := if a.isCut? p.src p.dst = some true then 1 else 0

/-- Whether a placed edge is counted where an endpoint is, as far as its endpoints have hosts. -/
def AtEnd (a : Assignment) (p : Placed) : Prop :=
  match a.host? p.src, a.host? p.dst with
  | some hostSrc, some hostDst => hostSrc = p.host ∨ hostDst = p.host
  | some own, none | none, some own => own = p.host
  | none, none => True

theorem borrowedBy_eq_ok {count : Nat} : a.borrowedBy hosts p = .ok count ↔
    (p.host < hosts ∧ p.src < a.size ∧ p.dst < a.size) ∧ count = a.borrowedEnds p := by
  unfold borrowedBy
  by_cases hhost : hosts ≤ p.host
  · simp [hhost, Nat.not_lt.mpr hhost, bind, Except.bind]
  · rw [if_neg hhost]
    show (a.lookup p.src >>= fun hostSrc => a.lookup p.dst >>= fun hostDst =>
      .ok (borrows p.host hostSrc + borrows p.host hostDst)) = .ok count ↔ _
    simp only [Step.except_bind_eq_ok, lookup_eq_ok]
    constructor
    · rintro ⟨_, ⟨hsrc, rfl⟩, _, ⟨hdst, rfl⟩, h⟩
      cases h
      exact ⟨⟨Nat.lt_of_not_le hhost, hsrc, hdst⟩, rfl⟩
    · rintro ⟨⟨-, hsrc, hdst⟩, rfl⟩
      exact ⟨_, ⟨hsrc, rfl⟩, _, ⟨hdst, rfl⟩, rfl⟩

/-- **An edge borrows at least what it must**, and just that if it is counted where an endpoint is. -/
theorem mustBorrow_le_and_eq_iff (a : Assignment) (p : Placed) :
    a.mustBorrow p ≤ a.borrowedEnds p ∧ (a.mustBorrow p = a.borrowedEnds p ↔ a.AtEnd p) := by
  unfold mustBorrow borrowedEnds AtEnd isCut?
  cases a.host? p.src with
  | none =>
      cases a.host? p.dst with
      | none => simp [borrows]
      | some own => by_cases h : own = p.host <;> simp [borrows, h]
  | some hostSrc =>
      cases a.host? p.dst with
      | none => by_cases h : hostSrc = p.host <;> simp [borrows, h]
      | some hostDst =>
          by_cases hsame : hostSrc = hostDst
          · subst hsame
            by_cases h : hostSrc = p.host <;> simp [borrows, h]
          · by_cases hsrc : hostSrc = p.host
            · have hdst : hostDst ≠ p.host := fun h => hsame (hsrc.trans h.symm)
              simp [borrows, hsrc, hdst, hdst.symm]
            · by_cases hdst : hostDst = p.host <;> simp [borrows, hsame, hsrc, hdst]

/-! ## All edges -/

theorem borrowed_eq_ok : a.borrowed hosts placed = .ok total ↔
    (∀ p ∈ placed, p.host < hosts ∧ p.src < a.size ∧ p.dst < a.size) ∧
      total = (placed.map a.borrowedEnds).sum := by
  suffices hfrom : ∀ start, placed.foldlM (fun total p => return total + (← a.borrowedBy hosts p)) start =
      (.ok total : Except Fault Nat) ↔
        (∀ p ∈ placed, p.host < hosts ∧ p.src < a.size ∧ p.dst < a.size) ∧
          total = start + (placed.map a.borrowedEnds).sum by
    rw [borrowed, hfrom, Nat.zero_add]
  induction placed with
  | nil => simp [pure, Except.pure, eq_comm]
  | cons p placed ih =>
      intro start
      rw [List.foldlM_cons, Step.except_bind_eq_ok, List.forall_mem_cons, List.map_cons, List.sum_cons]
      constructor
      · rintro ⟨_, hstep, hrest⟩
        obtain ⟨count, hp, hsum⟩ := Step.except_bind_eq_ok.mp hstep
        cases hsum
        obtain ⟨hfits, rfl⟩ := borrowedBy_eq_ok.mp hp
        obtain ⟨hlater, rfl⟩ := (ih _).mp hrest
        exact ⟨⟨hfits, hlater⟩, Nat.add_assoc _ _ _⟩
      · rintro ⟨⟨hfits, hlater⟩, rfl⟩
        refine ⟨start + a.borrowedEnds p, ?_, (ih _).mpr ⟨hlater, (Nat.add_assoc _ _ _).symm⟩⟩
        exact Step.except_bind_eq_ok.mpr ⟨_, borrowedBy_eq_ok.mpr ⟨hfits, rfl⟩, rfl⟩

theorem cut_eq_sum (a : Assignment) (placed : List Placed) :
    (a.cutsAmong (placed.map Placed.ends)).cut = (placed.map a.mustBorrow).sum := by
  induction placed with
  | nil => rfl
  | cons p placed ih =>
      rw [List.map_cons, cutsAmong_cons, Tally.merge, ih, List.map_cons, List.sum_cons]
      simp [cutsAmong, mustBorrow, Placed.ends, List.countP_cons]

/-- **No choice of hosts borrows less than what is cut.**  Let edges be counted on any hosts, so that their
borrowed endpoints can be counted.  Then their cut edges can be counted, and are at most as many.  They are as many
exactly when each edge is counted where an endpoint is: on the host of one of them if both have one, on the host of
the one that has one, and anywhere if none has. -/
theorem cut_le_borrowed_endpoints (h : a.borrowed hosts placed = .ok total) :
    ∃ t, a.tally (placed.map Placed.ends) = .ok t ∧ t.cut ≤ total ∧
      (t.cut = total ↔ ∀ p ∈ placed, a.AtEnd p) := by
  obtain ⟨hfits, rfl⟩ := borrowed_eq_ok.mp h
  refine ⟨_, tally_eq_ok_iff.mpr ⟨?_, rfl⟩, ?_⟩
  · intro e he
    obtain ⟨p, hp, rfl⟩ := List.mem_map.mp he
    exact (hfits p hp).2
  · have hle : ∀ p ∈ placed, a.mustBorrow p ≤ a.borrowedEnds p := fun p _ => (a.mustBorrow_le_and_eq_iff p).1
    rw [cut_eq_sum]
    refine ⟨List.sum_le_sum hle, fun heq p hp => ?_, fun hends => ?_⟩
    · refine (a.mustBorrow_le_and_eq_iff p).2.mp (Nat.le_antisymm (hle p hp) (Nat.le_of_not_lt fun hlt => ?_))
      -- an edge that borrows more than it must makes the sum larger
      exact absurd heq (Nat.ne_of_lt (List.sum_lt_sum _ _ hle ⟨p, hp, hlt⟩))
    · exact congrArg List.sum (List.map_congr_left fun p hp => (a.mustBorrow_le_and_eq_iff p).2.mpr (hends p hp))

/-- Of four placed edges the last has its one assigned endpoint on another host than it is counted on; the other
three, two of them cut, borrow no more than they must. -/
theorem cut_le_borrowed_endpoints_on_misplaced_edge :
    let a : Assignment := ⟨#[some 0, some 0, some 1, none], 3⟩
    let placed : List Placed := [⟨0, 1, 0⟩, ⟨1, 2, 0⟩, ⟨0, 2, 1⟩, ⟨2, 3, 0⟩]
    a.borrowed 2 placed = .ok 3 ∧
      (∃ t, a.tally (placed.map Placed.ends) = .ok t ∧ t.cut ≤ 3 ∧ t.cut ≠ 3) ∧
      a.borrowed 2 (placed.take 3) = .ok 2 ∧
      ∃ t, a.tally ((placed.take 3).map Placed.ends) = .ok t ∧ t.cut = 2 := by
  intro a placed
  have hall : a.borrowed 2 placed = .ok 3 := by decide
  have hthree : a.borrowed 2 (placed.take 3) = .ok 2 := by decide
  obtain ⟨t, ht, hle, hiff⟩ := cut_le_borrowed_endpoints hall
  obtain ⟨u, hu, -, hiff'⟩ := cut_le_borrowed_endpoints hthree
  refine ⟨hall, ⟨t, ht, hle, fun heq => ?_⟩, hthree, u, hu, hiff'.mpr ?_⟩
  · have hlast : a.AtEnd ⟨2, 3, 0⟩ := hiff.mp heq _ (by simp [placed])
    cases show 1 = 0 from hlast
  · simp [placed, a, AtEnd, host?]

end GraphPlacement.Assignment
