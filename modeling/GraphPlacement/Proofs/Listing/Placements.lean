import GraphPlacement.Proofs.Listing.Written

/-!
# Placements that are written and read back

**Content.** A placement listing is read as what its lines say, so a listing that is written behind another one
adds its own placements to those of the other (`placements_append_iff`).  That needs the first to end where a
line does, as what is written of placements does: else its last line would go on in the second.

**Round trip.** What is written of placements is read back exactly if all their numbers fit in a word:
`written_placements_come_back`.
-/

namespace GraphPlacement.Listing

variable {first second : ByteArray} {ps qs rs : List Placed}

/-- Whether a line says a placement: three fields, which are its source, its target and its host. -/
def SaysPlaced (text : String) (p : Placed) : Prop :=
  ∃ src dst host, Text.fields text = [src, dst, host] ∧ Text.natural? src = some p.src ∧
    Text.natural? dst = some p.dst ∧ Text.natural? host = some p.host

theorem reads_readPlaced : Reads readPlaced SaysPlaced where
  blank line text := by
    unfold readPlaced
    split
    case h_1 hblank => exact iff_of_true rfl hblank
    case h_2 src dst host hfields =>
      refine iff_of_false ?_ (by simp [hfields])
      exact bind_ne_none fun _ => bind_ne_none fun _ => bind_ne_none fun _ => nofun
    case h_3 hnil _ => exact iff_of_false nofun hnil
  record line text p := by
    unfold readPlaced
    constructor
    · intro h
      split at h
      case h_1 => cases h
      case h_2 src dst host hfields =>
        obtain ⟨_, hhost, h⟩ := Step.except_bind_eq_ok.mp h
        obtain ⟨_, hsrc, h⟩ := Step.except_bind_eq_ok.mp h
        obtain ⟨_, hdst, h⟩ := Step.except_bind_eq_ok.mp h
        cases h
        exact ⟨src, dst, host, hfields, readNode_eq_ok.mp hsrc, readNode_eq_ok.mp hdst,
          readField_eq_ok.mp hhost⟩
      case h_3 => cases h
    · rintro ⟨src, dst, host, hfields, hsrc, hdst, hhost⟩
      simp only [hfields]
      refine Step.except_bind_eq_ok.mpr ⟨_, readField_eq_ok.mpr hhost, ?_⟩
      refine Step.except_bind_eq_ok.mpr ⟨_, readNode_eq_ok.mpr hsrc, ?_⟩
      exact Step.except_bind_eq_ok.mpr ⟨_, readNode_eq_ok.mpr hdst, rfl⟩

theorem SaysPlaced.fits {text : String} {p : Placed} (h : SaysPlaced text p) : p.Fits := by
  obtain ⟨_, _, _, -, hsrc, hdst, hhost⟩ := h
  exact ⟨Text.lt_of_natural? hsrc, Text.lt_of_natural? hdst, Text.lt_of_natural? hhost⟩

/-- Placements that have been read fit. -/
theorem fits_of_placements (h : placements first = .ok ps) : ∀ p ∈ ps, p.Fits := by
  intro p hp
  have hsaid := reads_readPlaced.records_eq_ok_iff_said.mp h
  obtain ⟨text, -, hplaced⟩ := (reads_readPlaced.mem_iff hsaid).mp hp
  exact hplaced.fits

/-- **Listings one after the other** have the placements of the first and then those of the second. -/
theorem placements_append_iff (h : Text.Ended first) : placements (first ++ second) = .ok rs ↔
    ∃ ps qs, rs = ps ++ qs ∧ placements first = .ok ps ∧ placements second = .ok qs := by
  simp only [placements, reads_readPlaced.records_eq_ok_iff_said, Text.lines_append h, said_append_iff]

theorem ended_writePlacements (ps : List Placed) : Text.Ended (writePlacements ps).toUTF8 := by
  have hended := Text.ended_join (ps.map placedText)
  rw [List.map_map] at hended
  rw [writePlacements, funext placedLine_eq]
  exact hended

theorem placements_writePlacements_iff :
    placements (writePlacements ps).toUTF8 = .ok ps ↔ ∀ p ∈ ps, p.Fits :=
  ⟨fits_of_placements, placements_writePlacements⟩

/-- **Placements that are written come back.**  What is written of placements is read as these placements exactly
if all their numbers fit in a word.  What is written of some and then of others is read as all of them one after
the other, and so it is with any two listings of which the first ends where a line does: together they are read
exactly if each of them is, as the placements of the first and then of the second. -/
theorem written_placements_come_back (ps qs : List Placed) :
    (placements (writePlacements ps).toUTF8 = .ok ps ↔ ∀ p ∈ ps, p.Fits) ∧
    ((∀ p ∈ ps ++ qs, p.Fits) →
      placements ((writePlacements ps).toUTF8 ++ (writePlacements qs).toUTF8) = .ok (ps ++ qs)) ∧
    ∀ first second : ByteArray, Text.Ended first → ∀ rs, placements (first ++ second) = .ok rs ↔
      ∃ before later, rs = before ++ later ∧ placements first = .ok before ∧
        placements second = .ok later := by
  refine ⟨placements_writePlacements_iff, fun h => ?_, fun _ _ hfirst _ => placements_append_iff hfirst⟩
  obtain ⟨hps, hqs⟩ := List.forall_mem_append.mp h
  refine (placements_append_iff (ended_writePlacements ps)).mpr ⟨ps, qs, rfl, ?_, ?_⟩
  · exact placements_writePlacements_iff.mpr hps
  · exact placements_writePlacements_iff.mpr hqs

/-- The largest number that fits is read back, in two parts of a listing and behind a listing with other blanks. -/
theorem written_placements_come_back_up_to_limit :
    let large : Placed := ⟨0, Text.wordBound - 1, 1⟩
    let small : Placed := ⟨3, 9, 1⟩
    (∀ p ∈ [large] ++ [small, small], p.Fits) ∧
      placements ((writePlacements [large]).toUTF8 ++ (writePlacements [small, small]).toUTF8) =
        .ok ([large] ++ [small, small]) ∧
      placements ("\t3 9  1\r\n\n".toUTF8 ++ (writePlacements [small, large]).toUTF8) =
        .ok [small, small, large] := by
  intro large small
  have hlarge : large.Fits := ⟨by decide, by decide, by decide⟩
  have hsmall : small.Fits := ⟨by decide, by decide, by decide⟩
  have hall : ∀ p ∈ [large] ++ [small, small], p.Fits := by simp [hlarge, hsmall]
  have hended : Text.Ended "\t3 9  1\r\n\n".toUTF8 := by
    have hlast : "\t3 9  1\r\n\n".toUTF8.data.toList.getLast? = some Text.lineFeed := by decide +kernel
    intro b hb
    rw [hlast] at hb
    exact (Option.some.inj hb).symm
  obtain ⟨-, htogether, hparts⟩ := written_placements_come_back [large] [small, small]
  refine ⟨hall, htogether hall, (hparts _ _ hended _).mpr ⟨[small], [small, large], rfl, ?_, ?_⟩⟩
  · rfl
  · exact (written_placements_come_back [small, large] []).1.mpr (by simp [hlarge, hsmall])

end GraphPlacement.Listing
