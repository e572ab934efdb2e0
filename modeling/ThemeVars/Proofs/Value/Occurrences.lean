/-
The references of a value in the order in which a rewriting asks about them, and
the text that it writes. `exists_writes`: where the callback fails at none of
them, a text is written, and each reference in it is kept or replaced by an
answer.
-/
import ThemeVars.Proofs.Value.Rewriting

namespace ThemeVars

/-- A reference as a rewriting asks about it. -/
structure Occurrence where
  name : String
  kind : ReferenceKind
  /-- It stands in an interpolation. -/
  inside : Bool
deriving DecidableEq, Repr

def Reference.occurrence (r : Reference) (inside : Bool) : Occurrence := ⟨r.name, r.kind, inside⟩

namespace Value

/-- Every reference in the order of the text. -/
def occurrences (inside : Bool) : Value → List Occurrence
  | .done => []
  | .text _ rest => rest.occurrences inside
  | .interpolation inner rest => inner.occurrences true ++ rest.occurrences inside
  | .reference r rest => r.occurrence inside :: rest.occurrences inside
  | .guarded r fallback rest => r.occurrence inside :: (fallback.occurrences inside ++ rest.occurrences inside)

@[simp] theorem occurrences_consText (inside : Bool) (s : String) (v : Value) :
    (consText s v).occurrences inside = v.occurrences inside := by
  unfold consText
  split
  · rfl
  · split
    · rfl
    · rfl

@[simp] theorem occurrences_append (inside : Bool) (v w : Value) :
    (v.append w).occurrences inside = v.occurrences inside ++ w.occurrences inside := by
  induction v with
  | done => rfl
  | text s rest ih =>
    rw [append, occurrences_consText, ih]
    rfl
  | interpolation inner rest _ ih => simp [append, occurrences, ih]
  | reference r rest ih => simp [append, occurrences, ih]
  | guarded r fallback rest _ ih => simp [append, occurrences, ih]

/-! ## What is written -/

section

-- What a callback answers about a reference, inside or outside interpolations.
variable (answers : Reference → Bool → Option String → Prop)

/-- The text is the value written with such answers. -/
inductive Writes : Bool → Value → String → Prop
  | done {b} : Writes b .done ""
  | text {b s v o} : Writes b v o → Writes b (.text s v) (s ++ o)
  | interpolation {b a v i o} : Writes true a i → Writes b v o → Writes b (.interpolation a v) (interpolated i ++ o)
  | reference {b r v new o} : answers r b new → Writes b v o → Writes b (.reference r v) (new.getD r.raw ++ o)
  | replaced {b r a v new o} : answers r b (.some new) → Writes b v o → Writes b (.guarded r a v) (new ++ o)
  | kept {b r a v o} : answers r b .none → Writes b a a.verbatim → Writes b v o → Writes b (.guarded r a v) (r.raw ++ o)
  | anew {b r a v i o} : answers r b .none → Writes b a i → i ≠ a.verbatim → Writes b v o →
    Writes b (.guarded r a v) (varText r.name i.trimmedEnd ++ o)

variable {answers} {b : Bool} {v w : Value} {out : String}

theorem Writes.of_consText {s : String} (h : Writes answers b (consText s v) out) :
    ∃ o, out = s ++ o ∧ Writes answers b v o := by
  unfold consText at h
  split at h
  · rename_i hs
    exact ⟨out, by rw [String.isEmpty_iff.1 hs, String.empty_append], h⟩
  · split at h
    · cases h with
      | text h => exact ⟨_, String.append_assoc, .text h⟩
    · cases h with
      | text h => exact ⟨_, rfl, h⟩

theorem Writes.of_append (h : Writes answers b (v.append w) out) :
    ∃ o₁ o₂, out = o₁ ++ o₂ ∧ Writes answers b v o₁ ∧ Writes answers b w o₂ := by
  induction v generalizing out with
  | done => exact ⟨"", out, String.empty_append.symm, .done, h⟩
  | text s rest ih =>
    obtain ⟨o, rfl, hrest⟩ := Writes.of_consText h
    obtain ⟨o₁, o₂, rfl, h₁, h₂⟩ := ih hrest
    exact ⟨s ++ o₁, o₂, String.append_assoc.symm, .text h₁, h₂⟩
  | interpolation inner rest _ ih =>
    cases h with
    | interpolation hi h =>
      obtain ⟨o₁, o₂, rfl, h₁, h₂⟩ := ih h
      exact ⟨_, o₂, String.append_assoc.symm, .interpolation hi h₁, h₂⟩
  | reference r rest ih =>
    cases h with
    | reference ha h =>
      obtain ⟨o₁, o₂, rfl, h₁, h₂⟩ := ih h
      exact ⟨_, o₂, String.append_assoc.symm, .reference ha h₁, h₂⟩
  | guarded r fallback rest _ ih =>
    cases h with
    | replaced ha h =>
      obtain ⟨o₁, o₂, rfl, h₁, h₂⟩ := ih h
      exact ⟨_, o₂, String.append_assoc.symm, .replaced ha h₁, h₂⟩
    | kept ha hf h =>
      obtain ⟨o₁, o₂, rfl, h₁, h₂⟩ := ih h
      exact ⟨_, o₂, String.append_assoc.symm, .kept ha hf h₁, h₂⟩
    | anew ha hf hne h =>
      obtain ⟨o₁, o₂, rfl, h₁, h₂⟩ := ih h
      exact ⟨_, o₂, String.append_assoc.symm, .anew ha hf hne h₁, h₂⟩

/-- With no reference replaced, the value is written as it was read. -/
theorem writes_verbatim (b : Bool) (v : Value) : Writes (fun _ _ new => new = .none) b v v.verbatim := by
  induction v generalizing b with
  | done => exact .done
  | text s rest ih => exact .text (ih b)
  | interpolation inner rest ihi ihr => exact .interpolation (ihi true) (ihr b)
  | reference r rest ih => exact .reference rfl (ih b)
  | guarded r fallback rest ihf ihr => exact .kept rfl (ihf b) (ihr b)

/-- What is asked for and not replaced changes nothing. -/
theorem Writes.eq_verbatim {asks : Occurrence → Bool} (ha : ∀ r b new, answers r b (.some new) → asks (r.occurrence b) = true)
    (h : Writes answers b v out) (hv : (v.occurrences b).any asks = false) : out = v.verbatim := by
  have hnone {r b new} (hr : answers r b new) (hasks : asks (r.occurrence b) = false) : new = .none := by
    cases new with
    | none => rfl
    | some new =>
      rw [ha r b new hr] at hasks
      cases hasks
  induction h with
  | done => rfl
  | text _ ih => rw [verbatim, ih hv]
  | interpolation _ _ ihi ih =>
    rw [occurrences, List.any_append, Bool.or_eq_false_iff] at hv
    rw [verbatim, ihi hv.1, ih hv.2]
  | reference hr _ ih =>
    rw [occurrences, List.any_cons, Bool.or_eq_false_iff] at hv
    rw [verbatim, ih hv.2, hnone hr hv.1]
    rfl
  | replaced hr _ ih =>
    rw [occurrences, List.any_cons, Bool.or_eq_false_iff] at hv
    cases hnone hr hv.1
  | kept _ _ _ _ ih =>
    rw [occurrences, List.any_cons, List.any_append, Bool.or_eq_false_iff, Bool.or_eq_false_iff] at hv
    rw [verbatim, ih hv.2.2]
  | anew _ _ hne _ ihf _ =>
    rw [occurrences, List.any_cons, List.any_append, Bool.or_eq_false_iff, Bool.or_eq_false_iff] at hv
    exact absurd (ihf hv.2.1) hne

end

section

variable {σ ε : Type} {f : Reference → Bool → StateT σ (Except ε) (Option String)}
  {answers : Reference → Bool → Option String → Prop}

/-- Where the callback has an answer to everything, the value is written with
its answers. -/
theorem exists_writes (hf : ∀ r b s, ∃ new t, (f r b).run s = .ok (new, t) ∧ answers r b new) (v : Value) (b : Bool)
    (s : σ) : ∃ out t, (v.rewrite f b).run s = .ok (out, t) ∧ Writes answers b v out := by
  induction v generalizing b s with
  | done => exact ⟨"", s, rfl, .done⟩
  | text a rest ih =>
    obtain ⟨o, t, ht, hw⟩ := ih b s
    exact ⟨a ++ o, t, bind_ok.2 ⟨_, ht, rfl⟩, .text hw⟩
  | interpolation inner rest ihi ihr =>
    obtain ⟨i, t, ht, hwi⟩ := ihi true s
    obtain ⟨o, u, hu, hw⟩ := ihr b t
    exact ⟨_, u, bind_ok.2 ⟨_, ht, bind_ok.2 ⟨_, hu, rfl⟩⟩, .interpolation hwi hw⟩
  | reference r rest ih =>
    obtain ⟨new, t, ht, ha⟩ := hf r b s
    obtain ⟨o, u, hu, hw⟩ := ih b t
    exact ⟨_, u, bind_ok.2 ⟨_, ht, bind_ok.2 ⟨_, hu, rfl⟩⟩, .reference ha hw⟩
  | guarded r fallback rest ihf ihr =>
    obtain ⟨new, t, ht, ha⟩ := hf r b s
    cases new with
    | some new =>
      obtain ⟨o, u, hu, hw⟩ := ihr b t
      exact ⟨_, u, bind_ok.2 ⟨_, ht, bind_ok.2 ⟨_, hu, rfl⟩⟩, .replaced ha hw⟩
    | none =>
      obtain ⟨i, u, hu, hwi⟩ := ihf b t
      obtain ⟨o, w, hw, hwo⟩ := ihr b u
      refine ⟨_, w, bind_ok.2 ⟨_, ht, bind_ok.2 ⟨_, hu, bind_ok.2 ⟨_, hw, rfl⟩⟩⟩, ?_⟩
      by_cases hi : i = fallback.verbatim
      · rw [if_pos (by simp [hi])]
        exact .kept ha (hi ▸ hwi) hwo
      · rw [if_neg (by simp [hi])]
        exact .anew ha hwi hi hwo

end

/-- Where a run comes out, the value is written with what the callback answers
about the references in it, if the states that it goes through are such. -/
theorem writes_of_run {σ ε : Type} {f : Reference → Bool → StateT σ (Except ε) (Option String)} {state : σ → Prop}
    {answers : Reference → Bool → Option String → Prop} {v : Value} {b : Bool} {s t : σ} {out : String}
    (hf : ∀ r ∈ v.references, ∀ b s new t, state s → (f r b).run s = .ok (new, t) → state t ∧ answers r b new)
    (hs : state s) (h : (v.rewrite f b).run s = .ok (out, t)) : state t ∧ Writes answers b v out := by
  induction v generalizing b s t out with
  | done =>
    cases h
    exact ⟨hs, .done⟩
  | text a rest ih =>
    obtain ⟨⟨o, u⟩, hrest, hret⟩ := bind_ok.1 h
    cases hret
    obtain ⟨hu, ho⟩ := ih hf hs hrest
    exact ⟨hu, .text ho⟩
  | interpolation inner rest ihi ihr =>
    obtain ⟨⟨i, u⟩, hinner, h⟩ := bind_ok.1 h
    obtain ⟨⟨o, w⟩, hrest, hret⟩ := bind_ok.1 h
    cases hret
    obtain ⟨hu, hi⟩ := ihi (fun r hr => hf r (List.mem_append_left _ hr)) hs hinner
    obtain ⟨hw, ho⟩ := ihr (fun r hr => hf r (List.mem_append_right _ hr)) hu hrest
    exact ⟨hw, .interpolation hi ho⟩
  | reference r rest ih =>
    obtain ⟨⟨new, u⟩, hr, h⟩ := bind_ok.1 h
    obtain ⟨⟨o, w⟩, hrest, hret⟩ := bind_ok.1 h
    cases hret
    obtain ⟨hu, hnew⟩ := hf r List.mem_cons_self b s new u hs hr
    obtain ⟨hw, ho⟩ := ih (fun r hr => hf r (List.mem_cons_of_mem _ hr)) hu hrest
    exact ⟨hw, .reference hnew ho⟩
  | guarded r fallback rest ihf ihr =>
    have hfallback : ∀ q ∈ fallback.references, q ∈ (Value.guarded r fallback rest).references :=
      fun q hq => List.mem_cons_of_mem _ (List.mem_append_left _ hq)
    have hlater : ∀ q ∈ rest.references, q ∈ (Value.guarded r fallback rest).references :=
      fun q hq => List.mem_cons_of_mem _ (List.mem_append_right _ hq)
    obtain ⟨⟨new, u⟩, hr, h⟩ := bind_ok.1 h
    obtain ⟨hu, hnew⟩ := hf r List.mem_cons_self b s new u hs hr
    cases new with
    | some new =>
      obtain ⟨⟨o, w⟩, hrest, hret⟩ := bind_ok.1 h
      cases hret
      obtain ⟨hw, ho⟩ := ihr (fun q hq => hf q (hlater q hq)) hu hrest
      exact ⟨hw, .replaced hnew ho⟩
    | none =>
      obtain ⟨⟨i, w⟩, hinner, h⟩ := bind_ok.1 h
      obtain ⟨⟨o, x⟩, hrest, hret⟩ := bind_ok.1 h
      cases hret
      obtain ⟨hw, hi⟩ := ihf (fun q hq => hf q (hfallback q hq)) hu hinner
      obtain ⟨hx, ho⟩ := ihr (fun q hq => hf q (hlater q hq)) hw hrest
      refine ⟨hx, ?_⟩
      by_cases hsame : i = fallback.verbatim
      · rw [if_pos (by simp [hsame])]
        exact .kept hnew (hsame ▸ hi) ho
      · rw [if_neg (by simp [hsame])]
        exact .anew hnew hi hsame ho

/-- A callback without effects has an answer to everything. -/
theorem writes_pure (g : Reference → Bool → Option String) (v : Value) (b : Bool) :
    Writes (fun r inside new => new = g r inside) b v (Id.run (v.rewrite (fun r inside => pure (g r inside)) b)) := by
  induction v generalizing b with
  | done => exact .done
  | text s rest ih => exact .text (ih b)
  | interpolation inner rest ihi ihr => exact .interpolation (ihi true) (ihr b)
  | reference r rest ih => exact .reference rfl (ih b)
  | guarded r fallback rest ihf ihr =>
    simp only [rewrite, Id.run_bind, Id.run_pure]
    cases hg : g r b with
    | some new => exact .replaced hg.symm (ihr b)
    | none =>
      by_cases hi : Id.run (fallback.rewrite (fun r inside => pure (g r inside)) b) = fallback.verbatim
      · simp only [Id.run_bind, Id.run_pure, hi, beq_self_eq_true, if_true]
        exact .kept hg.symm (hi ▸ ihf b) (ihr b)
      · simp only [Id.run_bind, Id.run_pure, beq_iff_eq, hi, if_false]
        exact .anew hg.symm (ihf b) hi (ihr b)

end Value

end ThemeVars
