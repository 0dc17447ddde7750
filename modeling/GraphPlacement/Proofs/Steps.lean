import GraphPlacement.Step

/-!
# Taking steps apart

What it takes for a step to come to a result, for each way in which steps are made.  A proof about a
longer step goes through it from the front with these, and never looks at how a `Step` is represented.

**In sequence.** `bind_eq_ok` and `bind_eq_error`: a sequence comes to a result through the result of
its first part, and to a fault through that of either part.

**In a part.** `onPart_eq_ok` and `onPart_eq_error`: a step of a part does to the part what it does alone.

**In a loop.** `forM_eq_error` and `foldlM_eq_error`: a loop that meets a fault meets it at some element, and
has gone through all elements before that one.  `exists_mapM_eq_ok` and `exists_foldlM_eq_ok`: a loop meets
none if its steps keep an invariant and meet none under it.
-/

namespace GraphPlacement.Step

variable {σ τ α β : Type}

/-- A computation without a state comes to a result exactly through a result of its first part. -/
theorem except_bind_eq_ok {first : Except Fault α} {next : α → Except Fault β} {b : β} :
    (first >>= next) = .ok b ↔ ∃ a, first = .ok a ∧ next a = .ok b := by
  cases first <;> simp [bind, Except.bind]

/-- Results that are all there are told from others by their values. -/
theorem map_ok_inj {as bs : List α} (h : as.map (Except.ok (ε := Fault)) = bs.map Except.ok) : as = bs :=
  (List.map_inj_right fun _ _ => Except.ok.inj).mp h

@[simp] theorem mapError_ok {ε : Type} (change : ε → Fault) (a : α) :
    (Except.ok a).mapError change = .ok a := rfl

@[simp] theorem mapError_error {ε : Type} (change : ε → Fault) (e : ε) :
    (Except.error e : Except ε α).mapError change = .error (change e) := rfl

/-- A sequence comes to a result exactly through a result of its first part. -/
theorem bind_eq_ok {first : Step σ α} {next : α → Step σ β} {s t : σ} {b : β} :
    (first >>= next) s = .ok b t ↔ ∃ a m, first s = .ok a m ∧ next a m = .ok b t := by
  show EStateM.bind first next s = .ok b t ↔ _
  unfold EStateM.bind
  cases first s with
  | ok a m =>
      constructor
      · intro h
        exact ⟨a, m, rfl, h⟩
      · rintro ⟨_, _, h, hnext⟩
        cases h
        exact hnext
  | error fault m => simp

/-- A sequence goes on from the result of its first part. -/
theorem bind_of_ok {first : Step σ α} {s m : σ} {a : α} (h : first s = .ok a m) (next : α → Step σ β) :
    (first >>= next) s = next a m := by
  show EStateM.bind first next s = _
  unfold EStateM.bind
  rw [h]

theorem bind_of_error {first : Step σ α} {s m : σ} {fault : Fault} (h : first s = .error fault m)
    (next : α → Step σ β) : (first >>= next) s = .error fault m := by
  show EStateM.bind first next s = _
  unfold EStateM.bind
  rw [h]

/-- Steps that come to the same have the same sequel. -/
theorem bind_congr_apply {first first' : Step σ α} {s s' : σ} (h : first s = first' s')
    (next : α → Step σ β) : (first >>= next) s = (first' >>= next) s' := by
  show EStateM.bind first next s = EStateM.bind first' next s'
  unfold EStateM.bind
  rw [h]

/-- A sequence meets a fault in its first part or after a result of it. -/
theorem bind_eq_error {first : Step σ α} {next : α → Step σ β} {s t : σ} {fault : Fault} :
    (first >>= next) s = .error fault t ↔
      first s = .error fault t ∨ ∃ a m, first s = .ok a m ∧ next a m = .error fault t := by
  show EStateM.bind first next s = .error fault t ↔ _
  unfold EStateM.bind
  cases first s with
  | ok a m =>
      constructor
      · intro h
        exact Or.inr ⟨a, m, rfl, h⟩
      · rintro (h | ⟨_, _, h, hnext⟩)
        · cases h
        · cases h
          exact hnext
  | error other m => simp

/-- What a sequence comes to from a state, by what its first part comes to there. -/
theorem bind_apply (first : Step σ α) (next : α → Step σ β) (s : σ) :
    (first >>= next) s =
      match first s with
      | .ok a m => next a m
      | .error fault m => .error fault m := by
  show EStateM.bind first next s = _
  unfold EStateM.bind
  cases first s <;> rfl

theorem map_apply (f : α → β) (first : Step σ α) (s : σ) :
    (f <$> first) s =
      match first s with
      | .ok a m => .ok (f a) m
      | .error fault m => .error fault m := by
  show EStateM.map f first s = _
  unfold EStateM.map
  cases first s <;> rfl

@[simp] theorem pure_apply (a : α) (s : σ) : (pure a : Step σ α) s = .ok a s := rfl

@[simp] theorem throw_apply (fault : Fault) (s : σ) :
    (throw fault : Step σ α) s = .error fault s := rfl

@[simp] theorem get_apply (s : σ) : (get : Step σ σ) s = .ok s s := rfl

@[simp] theorem modify_apply (change : σ → σ) (s : σ) :
    (modify change : Step σ PUnit) s = .ok ⟨⟩ (change s) := rfl

theorem ofExcept_eq_ok {result : Except Fault α} {s t : σ} {a : α} :
    (ofExcept result : Step σ α) s = .ok a t ↔ result = .ok a ∧ s = t := by
  cases result with
  | ok b => simp
  | error fault => simp

theorem ofExcept_eq_error {result : Except Fault α} {s t : σ} {fault : Fault} :
    (ofExcept result : Step σ α) s = .error fault t ↔ result = .error fault ∧ s = t := by
  cases result with
  | ok b => simp
  | error other => simp

theorem ofOption_eq_ok {fault : Fault} {answer : Option α} {s t : σ} {a : α} :
    (ofOption fault answer : Step σ α) s = .ok a t ↔ answer = some a ∧ s = t := by
  cases answer with
  | none => simp
  | some b => simp

/-- A step made in a part comes to what it comes to alone, and the part is put back as it leaves it. -/
theorem onPart_eq_ok {split : σ → τ × (τ → σ)} {step : Step τ α} {s t : σ} {a : α} :
    onPart split step s = .ok a t ↔ ∃ part, step (split s).1 = .ok a part ∧ t = (split s).2 part := by
  cases h : step (split s).1 with
  | ok b part =>
      simp only [onPart, h, EStateM.Result.ok.injEq]
      constructor
      · rintro ⟨rfl, rfl⟩
        exact ⟨part, ⟨rfl, rfl⟩, rfl⟩
      · rintro ⟨_, ⟨rfl, rfl⟩, rfl⟩
        exact ⟨rfl, rfl⟩
  | error fault part => simp [onPart, h]

theorem onPart_eq_error {split : σ → τ × (τ → σ)} {step : Step τ α} {s t : σ} {fault : Fault} :
    onPart split step s = .error fault t ↔
      ∃ part, step (split s).1 = .error fault part ∧ t = (split s).2 part := by
  cases h : step (split s).1 with
  | ok b part => simp [onPart, h]
  | error other part =>
      simp only [onPart, h, EStateM.Result.error.injEq]
      constructor
      · rintro ⟨rfl, rfl⟩
        exact ⟨part, ⟨rfl, rfl⟩, rfl⟩
      · rintro ⟨_, ⟨rfl, rfl⟩, rfl⟩
        exact ⟨rfl, rfl⟩

/-! ## Loops -/

/-- A loop goes on after some elements from where they have led. -/
theorem forM_append_of_ok {f : α → Step σ Unit} {as : List α} {s t : σ} (h : as.forM f s = .ok () t)
    (bs : List α) : (as ++ bs).forM f s = bs.forM f t := by
  rw [List.forM_eq_forM] at h ⊢
  rw [List.forM_append, bind_of_ok h]

theorem forM_eq_error {f : α → Step σ Unit} {as : List α} {s t : σ} {fault : Fault}
    (h : as.forM f s = .error fault t) :
    ∃ before a later m, as = before ++ a :: later ∧ before.forM f s = .ok () m ∧
      f a m = .error fault t := by
  induction as generalizing s with
  | nil => cases h
  | cons a as ih =>
      rcases bind_eq_error.mp h with hfirst | ⟨_, m, hfirst, hrest⟩
      · exact ⟨[], a, as, s, rfl, rfl, hfirst⟩
      · obtain ⟨before, b, later, n, rfl, hbefore, hb⟩ := ih hrest
        exact ⟨a :: before, b, later, n, rfl, bind_eq_ok.mpr ⟨_, m, hfirst, hbefore⟩, hb⟩

theorem foldlM_eq_error {f : β → α → Except Fault β} {as : List α} {b : β} {fault : Fault}
    (h : as.foldlM f b = .error fault) :
    ∃ before a later c, as = before ++ a :: later ∧ before.foldlM f b = .ok c ∧
      f c a = .error fault := by
  induction as generalizing b with
  | nil => cases h
  | cons a as ih =>
      rw [List.foldlM_cons] at h
      cases hfirst : f b a with
      | error other =>
          rw [hfirst] at h
          cases h
          exact ⟨[], a, as, b, rfl, rfl, hfirst⟩
      | ok c =>
          rw [hfirst] at h
          obtain ⟨before, x, later, d, rfl, hbefore, hx⟩ := ih h
          refine ⟨a :: before, x, later, d, rfl, ?_, hx⟩
          rw [List.foldlM_cons, hfirst]
          exact hbefore

theorem exists_mapM_eq_ok {f : α → Step σ β} {Inv : σ → Prop} {as : List α}
    (hstep : ∀ a ∈ as, ∀ s, Inv s → ∃ b t, f a s = .ok b t ∧ Inv t) {s : σ} (hs : Inv s) :
    ∃ bs t, as.mapM f s = .ok bs t ∧ Inv t := by
  induction as generalizing s with
  | nil => exact ⟨[], s, rfl, hs⟩
  | cons a as ih =>
      obtain ⟨b, m, ha, hm⟩ := hstep a List.mem_cons_self s hs
      obtain ⟨bs, t, has, ht⟩ := ih (fun a' ha' => hstep a' (List.mem_cons_of_mem _ ha')) hm
      refine ⟨b :: bs, t, ?_, ht⟩
      rw [List.mapM_cons, bind_of_ok ha, bind_of_ok has, pure_apply]

theorem exists_foldlM_eq_ok {f : β → α → Step σ β} {Inv : β → Prop} {as : List α}
    (hstep : ∀ b, ∀ a ∈ as, ∀ s, Inv b → ∃ c t, f b a s = .ok c t ∧ Inv c) {b : β} (hb : Inv b) (s : σ) :
    ∃ c t, as.foldlM f b s = .ok c t ∧ Inv c := by
  induction as generalizing b s with
  | nil => exact ⟨b, s, rfl, hb⟩
  | cons a as ih =>
      obtain ⟨c, m, ha, hc⟩ := hstep b a List.mem_cons_self s hb
      obtain ⟨d, t, has, hd⟩ := ih (fun b a' ha' => hstep b a' (List.mem_cons_of_mem _ ha')) hc m
      exact ⟨d, t, by rw [List.foldlM_cons, bind_of_ok ha, has], hd⟩

end GraphPlacement.Step
