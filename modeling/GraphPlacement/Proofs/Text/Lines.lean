import GraphPlacement.Text.Lines

/-!
# Lines that are written and read back

**Bytes.** The bytes below 128 stand for themselves in an encoding, so the line feeds and carriage
returns among the bytes of a text are those among its characters (`eq_of_mem_encodeChar`).

**Round trip.** Texts without a line feed that are written one on a line are read back as they are,
except that one carriage return at the end of a text is taken for a part of the line's ending:
`lines_join`.  What is written behind such texts is on lines of its own: `lines_append`.  Whatever is
read from a line has no line feed (`lineFeed_not_mem_lines`), so that a line can be copied from one file
to another.
-/

namespace GraphPlacement.Text

variable {t : String} {c : Char} {b : UInt8} {bs reading rest : List UInt8}

/-! ## Bytes of a text -/

/-- The bytes that encode a text. -/
def bytesOf (t : String) : List UInt8 := t.toList.flatMap String.utf8EncodeChar

theorem toList_toUTF8 (t : String) : t.toUTF8.data.toList = bytesOf t := by
  rw [String.toUTF8_eq_toByteArray, ← String.utf8Encode_toList, List.utf8Encode,
    List.toList_data_toByteArray, bytesOf]

theorem bytesOf_append (t u : String) : bytesOf (t ++ u) = bytesOf t ++ bytesOf u := by
  simp [bytesOf]

theorem decode?_eq_some_iff : decode? bs = some t ↔ bs = bytesOf t := by
  have hbytes : ∀ a : ByteArray, a = t.toUTF8 ↔ a.data.toList = bytesOf t := by
    intro a
    rw [← toList_toUTF8, Array.toList_inj]
    exact ⟨fun h => h ▸ rfl, ByteArray.ext⟩
  rw [show bs = (ByteArray.mk bs.toArray).data.toList by simp, ← hbytes, decode?, String.fromUTF8?]
  split
  case isTrue hvalid =>
    rw [Option.some.injEq, ← String.toByteArray_inj, String.toUTF8_eq_toByteArray]
    simp [String.fromUTF8]
  case isFalse hvalid =>
    simp only [reduceCtorEq, false_iff]
    intro h
    refine hvalid ?_
    rw [h, String.toUTF8_eq_toByteArray]
    exact t.isValidUTF8

/-- A byte below 128 is the whole encoding of the character with its number. -/
theorem eq_of_mem_encodeChar (hb : b.toNat < 128) (h : b ∈ String.utf8EncodeChar c) :
    c.toNat = b.toNat ∧ String.utf8EncodeChar c = [b] := by
  have hc : c.toNat = c.val.toNat := rfl
  unfold String.utf8EncodeChar at h ⊢
  simp only at h ⊢
  split at h
  case isTrue hsmall =>
    rw [List.mem_singleton] at h
    rw [if_pos hsmall, h]
    simp only [UInt8.toNat_ofNat', and_true]
    omega
  case isFalse =>
    -- every byte of a longer encoding has its highest bit set
    have hhigh : ∀ n m : Nat, 128 ≤ m → n < 256 - m → 128 ≤ (UInt8.ofNat (n + m)).toNat := by
      intro n m hm hn
      simp only [UInt8.toNat_ofNat']
      omega
    have hbit : 128 ≤ b.toNat := by
      split at h
      · simp only [List.mem_cons, List.not_mem_nil, or_false] at h
        rcases h with rfl | rfl
        · exact hhigh _ _ (by omega) (by omega)
        · exact hhigh _ _ (by omega) (by omega)
      · split at h
        · simp only [List.mem_cons, List.not_mem_nil, or_false] at h
          rcases h with rfl | rfl | rfl
          · exact hhigh _ _ (by omega) (by omega)
          · exact hhigh _ _ (by omega) (by omega)
          · exact hhigh _ _ (by omega) (by omega)
        · simp only [List.mem_cons, List.not_mem_nil, or_false] at h
          rcases h with rfl | rfl | rfl | rfl
          · exact hhigh _ _ (by omega) (by omega)
          · exact hhigh _ _ (by omega) (by omega)
          · exact hhigh _ _ (by omega) (by omega)
          · exact hhigh _ _ (by omega) (by omega)
    omega

theorem lineFeed_mem_bytesOf_iff : lineFeed ∈ bytesOf t ↔ '\n' ∈ t.toList := by
  rw [bytesOf, List.mem_flatMap]
  constructor
  · rintro ⟨c, hc, hb⟩
    obtain ⟨hnat, -⟩ := eq_of_mem_encodeChar (by decide) hb
    rwa [← Char.toNat_inj.mp (show c.toNat = '\n'.toNat from hnat)]
  · intro h
    exact ⟨_, h, by decide⟩

/-! ## Closing a line -/

/-- A text without the carriage return at its end, if there is one. -/
def chomp (t : String) : String :=
  if t.toList.getLast? = some '\r' then String.ofList t.toList.dropLast else t

theorem closeLine_bytesOf (t : String) : closeLine (bytesOf t).reverse = bytesOf (chomp t) := by
  rcases List.eq_nil_or_concat t.toList with hnil | ⟨cs, c, hcs⟩
  · simp [bytesOf, chomp, hnil, closeLine]
  · rw [List.concat_eq_append] at hcs
    have hbytes : bytesOf t = cs.flatMap String.utf8EncodeChar ++ String.utf8EncodeChar c := by
      simp [bytesOf, hcs]
    by_cases hc : c = '\r'
    · subst hc
      have hreturn : String.utf8EncodeChar '\r' = [carriageReturn] := by decide
      simp [hreturn, closeLine, chomp, hcs, bytesOf]
    · have hchomp : chomp t = t := by simp [chomp, hcs, hc]
      rw [hchomp, hbytes]
      rcases List.eq_nil_or_concat (String.utf8EncodeChar c) with hempty | ⟨bs, b, hencode⟩
      · exact absurd hempty String.utf8EncodeChar_ne_nil
      · rw [List.concat_eq_append] at hencode
        have hb : b ≠ carriageReturn := by
          rintro rfl
          have hmem : carriageReturn ∈ String.utf8EncodeChar c := by simp [hencode]
          obtain ⟨hnat, -⟩ := eq_of_mem_encodeChar (by decide) hmem
          exact hc (Char.toNat_inj.mp hnat)
        simp [hencode, closeLine, hb]

/-- The bytes up to a line feed are the line that is being read. -/
theorem byteLinesFrom_append (h : lineFeed ∉ bs) :
    byteLinesFrom reading (bs ++ lineFeed :: rest) =
      closeLine (bs.reverse ++ reading) :: byteLinesFrom [] rest := by
  induction bs generalizing reading with
  | nil => simp
  | cons b bs ih =>
      rw [List.mem_cons, not_or] at h
      rw [List.cons_append, byteLinesFrom_cons (Ne.symm h.1), ih h.2]
      simp

/-- **Texts that are written one on a line** are read back, each without a carriage return at its end. -/
theorem lines_join {texts : List String} (h : ∀ t ∈ texts, '\n' ∉ t.toList) :
    lines (String.join (texts.map (· ++ "\n"))).toUTF8 = texts.map fun t => some (chomp t) := by
  rw [lines, toList_toUTF8]
  induction texts with
  | nil => rfl
  | cons t texts ih =>
      have hbytes : lineFeed ∉ bytesOf t := by
        rw [lineFeed_mem_bytesOf_iff]
        exact h t List.mem_cons_self
      have hend : bytesOf "\n" = [lineFeed] := by decide
      rw [List.map_cons, String.join_cons, bytesOf_append, bytesOf_append, hend, List.append_assoc,
        List.singleton_append, byteLinesFrom_append hbytes, List.append_nil, List.map_cons,
        ih fun u hu => h u (List.mem_cons_of_mem _ hu), closeLine_bytesOf, List.map_cons,
        decode?_eq_some_iff.mpr rfl]

/-! ## Reading a line -/

theorem lineFeed_not_mem_closeLine (h : lineFeed ∉ bs) : lineFeed ∉ closeLine bs := by
  cases bs with
  | nil => exact h
  | cons b bs =>
      rw [List.mem_cons, not_or] at h
      rw [closeLine]
      split <;> simp [h]

theorem lineFeed_not_mem_byteLinesFrom (hreading : lineFeed ∉ reading) :
    ∀ line ∈ byteLinesFrom reading bs, lineFeed ∉ line := by
  induction bs generalizing reading with
  | nil =>
      intro line hline
      unfold byteLinesFrom at hline
      split at hline
      · cases hline
      · rw [List.mem_singleton.mp hline, List.mem_reverse]
        exact hreading
  | cons b bs ih =>
      intro line hline
      by_cases hb : b = lineFeed
      · subst hb
        rw [byteLinesFrom_lineFeed, List.mem_cons] at hline
        rcases hline with rfl | hline
        · exact lineFeed_not_mem_closeLine hreading
        · exact ih List.not_mem_nil line hline
      · rw [byteLinesFrom_cons hb] at hline
        refine ih ?_ line hline
        simp [hreading, Ne.symm hb]

theorem lineFeed_not_mem_lines {content : ByteArray} (h : some t ∈ lines content) :
    '\n' ∉ t.toList := by
  obtain ⟨line, hline, hdecode⟩ := List.mem_map.mp h
  rw [← lineFeed_mem_bytesOf_iff, ← decode?_eq_some_iff.mp hdecode]
  exact lineFeed_not_mem_byteLinesFrom List.not_mem_nil line hline

/-! ## Contents one after the other -/

/-- Whether a content ends where a line does, so that whatever follows begins a line. -/
def Ended (content : ByteArray) : Prop := ∀ b ∈ content.data.toList.getLast?, b = lineFeed

/-- A line feed parts the lines before it from those after it. -/
theorem byteLinesFrom_lineFeed_append (reading bs rest : List UInt8) :
    byteLinesFrom reading (bs ++ lineFeed :: rest) =
      byteLinesFrom reading (bs ++ [lineFeed]) ++ byteLinesFrom [] rest := by
  induction bs generalizing reading with
  | nil => simp
  | cons b bs ih =>
      by_cases hb : b = lineFeed
      · subst hb
        rw [List.cons_append, byteLinesFrom_lineFeed, ih, List.cons_append, byteLinesFrom_lineFeed,
          List.cons_append]
      · rw [List.cons_append, byteLinesFrom_cons hb, ih, List.cons_append, byteLinesFrom_cons hb]

/-- **Contents one after the other** have the lines of the first and then those of the second. -/
theorem lines_append {first : ByteArray} (h : Ended first) (second : ByteArray) :
    lines (first ++ second) = lines first ++ lines second := by
  have hbytes : (first ++ second).data.toList = first.data.toList ++ second.data.toList := by simp
  rw [lines, lines, lines, hbytes, ← List.map_append]
  refine congrArg (List.map decode?) ?_
  rcases List.eq_nil_or_concat first.data.toList with hnil | ⟨bs, b, hbs⟩
  · rw [hnil]
    rfl
  · rw [List.concat_eq_append] at hbs
    obtain rfl : b = lineFeed := h b (by simp [hbs])
    rw [hbs, List.append_assoc, List.singleton_append, byteLinesFrom_lineFeed_append]

/-- Texts that are written one on a line end where a line does. -/
theorem ended_join (texts : List String) : Ended (String.join (texts.map (· ++ "\n"))).toUTF8 := by
  intro b hb
  rcases List.eq_nil_or_concat texts with rfl | ⟨texts, t, rfl⟩
  · cases hb
  · have hend : bytesOf "\n" = [lineFeed] := by decide
    rw [toList_toUTF8, List.concat_eq_append, List.map_append, String.join_append, bytesOf_append] at hb
    simpa [bytesOf_append, hend, eq_comm] using hb

end GraphPlacement.Text
