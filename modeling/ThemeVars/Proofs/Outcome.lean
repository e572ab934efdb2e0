/-
Computations that can fail: what is known once one has succeeded. Where a
computation also changes a state, `Ends` says what it comes to.
-/
import Mathlib.Tactic.Common

namespace ThemeVars

variable {ε ε' α β : Type}

theorem bind_ok {x : Except ε α} {f : α → Except ε β} {b : β} :
    x >>= f = .ok b ↔ ∃ a, x = .ok a ∧ f a = .ok b := by
  constructor
  · intro h
    cases x with
    | error e => cases h
    | ok a => exact ⟨a, rfl, h⟩
  · rintro ⟨a, rfl, h⟩
    exact h

/-- What is done with a result may hang on that it is one. -/
theorem bind_congr_ok {x : Except ε α} {f g : α → Except ε β} (h : ∀ a, x = .ok a → f a = g a) : x >>= f = x >>= g := by
  cases x with
  | error e => rfl
  | ok a => exact h a rfl

/-- What only puts a result together does not fail. -/
theorem bind_pure_error {x : Except ε α} {f : α → β} :
    (∃ e, (x >>= fun a => pure (f a)) = .error e) ↔ ∃ e, x = .error e := by
  cases x with
  | error e => exact ⟨fun _ => ⟨e, rfl⟩, fun _ => ⟨e, rfl⟩⟩
  | ok a => exact ⟨fun ⟨_, h⟩ => (nomatch h), fun ⟨_, h⟩ => (nomatch h)⟩

theorem mapError_error {x : Except ε α} {f : ε → ε'} : (∃ e, x.mapError f = .error e) ↔ ∃ e, x = .error e := by
  cases x with
  | error e => exact ⟨fun _ => ⟨e, rfl⟩, fun _ => ⟨f e, rfl⟩⟩
  | ok a => exact ⟨fun ⟨_, h⟩ => (nomatch h), fun ⟨_, h⟩ => (nomatch h)⟩

theorem map_error {x : Except ε α} {f : α → β} : (∃ e, x.map f = .error e) ↔ ∃ e, x = .error e := by
  cases x with
  | error e => exact ⟨fun _ => ⟨e, rfl⟩, fun _ => ⟨e, rfl⟩⟩
  | ok a => exact ⟨fun ⟨_, h⟩ => (nomatch h), fun ⟨_, h⟩ => (nomatch h)⟩

theorem map_ok {x : Except ε α} {f : α → β} {b : β} : x.map f = .ok b ↔ ∃ a, x = .ok a ∧ f a = b := by
  constructor
  · intro h
    cases x with
    | error e => cases h
    | ok a => exact ⟨a, rfl, Except.ok.inj h⟩
  · rintro ⟨a, rfl, rfl⟩
    rfl

theorem mapError_ok {x : Except ε α} {f : ε → ε'} {a : α} : x.mapError f = .ok a ↔ x = .ok a := by
  constructor
  · intro h
    cases x with
    | error e => cases h
    | ok b => rw [← Except.ok.inj h]
  · rintro rfl
    rfl

theorem ok_of_toOption {x : Except ε α} {f : α → β} {b : β} (h : x.toOption.map f = .some b) : ∃ a, x = .ok a ∧ f a = b := by
  cases x with
  | error e => cases h
  | ok a => exact ⟨a, rfl, Option.some.inj h⟩

theorem run_bindId (x : ExceptT ε Id α) (f : α → ExceptT ε Id β) :
    (x >>= f).run = @bind (Except ε) _ α β x.run fun a => (f a).run := by
  rw [ExceptT.run_bind]
  cases (x.run : Except ε α) <;> rfl

theorem run_pureId (x : Except ε α) : (ExceptT.mk (pure x) : ExceptT ε Id α).run = x := rfl

/-- Both fail, or both come out, with results that `R` relates. -/
inductive Together (R : α → β → Prop) : Except ε α → Except ε' β → Prop
  | error {e : ε} {e' : ε'} : Together R (.error e) (.error e')
  | ok {a : α} {b : β} (h : R a b) : Together R (.ok a) (.ok b)

section

variable {α' β' : Type} {R : α → β → Prop} {S : α' → β' → Prop} {x : Except ε α} {y : Except ε' β}

theorem Together.mono {R' : α → β → Prop} (h : Together R x y) (hr : ∀ a b, R a b → R' a b) : Together R' x y := by
  cases h with
  | error => exact .error
  | ok h => exact .ok (hr _ _ h)

theorem Together.bind {f : α → Except ε α'} {g : β → Except ε' β'} (h : Together R x y)
    (hf : ∀ a b, R a b → Together S (f a) (g b)) : Together S (x >>= f) (y >>= g) := by
  cases h with
  | error => exact .error
  | ok h => exact hf _ _ h

theorem Together.map {f : α → α'} {g : β → β'} (h : Together R x y) (hf : ∀ a b, R a b → S (f a) (g b)) :
    Together S (x.map f) (y.map g) := by
  cases h with
  | error => exact .error
  | ok h => exact .ok (hf _ _ h)

theorem Together.mapError {ε₁ ε₂ : Type} {f : ε → ε₁} {g : ε' → ε₂} (h : Together R x y) :
    Together R (x.mapError f) (y.mapError g) := by
  cases h with
  | error => exact .error
  | ok h => exact .ok h

theorem Together.eq_ok {x : Except ε α} {y : Except ε' α} (h : Together (· = ·) x y) {a : α} : x = .ok a ↔ y = .ok a := by
  cases h with
  | error => exact ⟨fun h => (nomatch h), fun h => (nomatch h)⟩
  | ok h => rw [h, Except.ok.injEq, Except.ok.injEq]

/-- Two that each go together with a third go together. -/
theorem Together.join {ε'' γ : Type} {z : Except ε'' γ} {R : α → γ → Prop} {S : β → γ → Prop} {T : α → β → Prop}
    (h : Together R x z) (h' : Together S y z) (ht : ∀ a b c, R a c → S b c → T a b) : Together T x y := by
  cases h with
  | error =>
    cases h' with
    | error => exact .error
  | ok h =>
    cases h' with
    | ok h' => exact .ok (ht _ _ _ h h')

end

/-! ## With a state -/

section

variable {σ : Type} {p : σ} {done : α → σ → Prop} {failed : σ → Prop}

theorem run_bind (x : ExceptT ε (StateM σ) α) (f : α → ExceptT ε (StateM σ) β) (p : σ) :
    ((x >>= f).run.run p : Except ε β × σ) =
      match (x.run.run p : Except ε α × σ) with
      | (.ok a, q) => (f a).run.run q
      | (.error e, q) => (.error e, q) := by
  simp only [ExceptT.run_bind, StateT.run_bind]
  rcases (x.run.run p : Except ε α × σ) with ⟨_ | _, _⟩ <;> rfl

theorem run_get (f : σ → ExceptT ε (StateM σ) α) (p : σ) :
    ((get >>= f).run.run p : Except ε α × σ) = (f p).run.run p := rfl

/-- From the state `p`, the computation ends with a result and a state of which
`done` holds, or fails in a state of which `failed` holds. -/
def Ends (x : ExceptT ε (StateM σ) α) (p : σ) (done : α → σ → Prop) (failed : σ → Prop) : Prop :=
  match (x.run.run p : Except ε α × σ) with
  | (.ok a, q) => done a q
  | (.error _, q) => failed q

theorem ends_iff {x : ExceptT ε (StateM σ) α} : Ends x p done failed ↔
    (∀ a q, (x.run.run p : Except ε α × σ) = (.ok a, q) → done a q) ∧
      ∀ e q, (x.run.run p : Except ε α × σ) = (.error e, q) → failed q := by
  unfold Ends
  rcases (x.run.run p : Except ε α × σ) with ⟨e | a, q⟩
  · exact ⟨fun h => ⟨fun _ _ h => (nomatch h), fun _ _ he => (Prod.mk.inj he).2 ▸ h⟩, fun h => h.2 e q rfl⟩
  · refine ⟨fun h => ⟨fun _ _ ha => ?_, fun _ _ h => (nomatch h)⟩, fun h => h.1 a q rfl⟩
    cases ha
    exact h

theorem ends_pure {a : α} : Ends (pure a : ExceptT ε (StateM σ) α) p done failed ↔ done a p := Iff.rfl

theorem ends_throw {e : ε} : Ends (throw e : ExceptT ε (StateM σ) α) p done failed ↔ failed p := Iff.rfl

theorem ends_get {done : σ → σ → Prop} : Ends (get : ExceptT ε (StateM σ) σ) p done failed ↔ done p p := Iff.rfl

theorem ends_modify {f : σ → σ} {done : PUnit → σ → Prop} :
    Ends (modify f : ExceptT ε (StateM σ) PUnit) p done failed ↔ done ⟨⟩ (f p) := Iff.rfl

theorem ends_lift {x : Except ε α} : Ends (liftM x : ExceptT ε (StateM σ) α) p done failed ↔
    (∀ a, x = .ok a → done a p) ∧ (∀ e, x = .error e → failed p) := by
  cases x with
  | error e => exact ⟨fun h => ⟨fun _ h => (nomatch h), fun _ _ => h⟩, fun h => h.2 e rfl⟩
  | ok a => exact ⟨fun h => ⟨fun _ ha => Except.ok.inj ha ▸ h, fun _ h => (nomatch h)⟩, fun h => h.1 a rfl⟩

theorem ends_bind {x : ExceptT ε (StateM σ) α} {f : α → ExceptT ε (StateM σ) β} {done : β → σ → Prop} :
    Ends (x >>= f) p done failed ↔ Ends x p (fun a q => Ends (f a) q done failed) failed := by
  unfold Ends
  rw [run_bind]
  rcases (x.run.run p : Except ε α × σ) with ⟨_ | _, _⟩ <;> exact Iff.rfl

theorem Ends.mono {x : ExceptT ε (StateM σ) α} {done' : α → σ → Prop} {failed' : σ → Prop}
    (h : Ends x p done failed) (hd : ∀ a q, done a q → done' a q) (hf : ∀ q, failed q → failed' q) :
    Ends x p done' failed' := by
  unfold Ends at h ⊢
  rcases hx : (x.run.run p : Except ε α × σ) with ⟨_ | a, q⟩
  · rw [hx] at h
    exact hf q h
  · rw [hx] at h
    exact hd a q h

/-- What is known of a computation in two ways holds at once. -/
theorem Ends.and {x : ExceptT ε (StateM σ) α} {done' : α → σ → Prop} {failed' : σ → Prop} (h : Ends x p done failed)
    (h' : Ends x p done' failed') : Ends x p (fun a q => done a q ∧ done' a q) fun q => failed q ∧ failed' q := by
  unfold Ends at h h' ⊢
  rcases hx : (x.run.run p : Except ε α × σ) with ⟨_ | a, q⟩
  · rw [hx] at h h'
    exact ⟨h, h'⟩
  · rw [hx] at h h'
    exact ⟨h, h'⟩

/-- What holds of every result and state holds at the end. -/
theorem ends_trivial {x : ExceptT ε (StateM σ) α} (h : ∀ a q, done a q) : Ends x p done fun _ => True := by
  unfold Ends
  rcases (x.run.run p : Except ε α × σ) with ⟨_ | a, q⟩
  · trivial
  · exact h a q

end

end ThemeVars
