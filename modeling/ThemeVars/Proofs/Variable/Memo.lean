/-
What a memo of relocations is good for. A `Script` is a computation that knows
of its memo only what that answers. `Scripted.unaided`: where all that it
relocates are variables that the imports hold, a memo answers each request, and
brings the computation to the end, as an empty one would.
-/
import ThemeVars.Proofs.Variable.Resolution

namespace ThemeVars

variable {τ α β : Type} {file : Option Path} {memo : Relocations}

/-- The memo is asked for this variable. -/
structure Request where
  memo : Relocations
  record : Variable

/-- What the memo answers for the target file. -/
def Request.answer (q : Request) (file : Option Path) : Except Error String :=
  (q.memo.relocate q.record file).map (·.1)

/-- The same request to an empty memo. -/
def Request.afresh (q : Request) : Request := ⟨{}, q.record⟩

/-- A computation with a state `τ`, which it can read and write, and a memo,
which it can only ask. -/
inductive Script (τ α : Type) where
  | done (a : α)
  | fail (e : Error)
  | relocate (v : Variable) (next : String → Script τ α)
  | read (next : τ → Script τ α)
  | write (t : τ) (next : Script τ α)

namespace Script

/-- The script with a memo that keeps what it has answered. -/
def run (file : Option Path) : Script τ α → Relocations → τ → Except Error (α × Relocations × τ)
  | .done a, memo, t => .ok (a, memo, t)
  | .fail e, _, _ => .error e
  | .relocate v next, memo, t => (memo.relocate v file).bind fun (x, memo) => (next x).run file memo t
  | .read next, memo, t => (next t).run file memo t
  | .write t next, memo, _ => next.run file memo t

/-- Everything that the memo is asked on the way. -/
def requests (file : Option Path) : Script τ α → Relocations → τ → List Request
  | .done _, _, _ => []
  | .fail _, _, _ => []
  | .relocate v next, memo, t =>
    ⟨memo, v⟩ ::
      match memo.relocate v file with
      | .ok (x, memo) => (next x).requests file memo t
      | .error _ => []
  | .read next, memo, t => (next t).requests file memo t
  | .write t next, memo, _ => next.requests file memo t

/-- The script with an empty memo for each request. -/
def runAfresh (file : Option Path) : Script τ α → τ → Except Error (α × τ)
  | .done a, t => .ok (a, t)
  | .fail e, _ => .error e
  | .relocate v next, t => ((⟨{}, v⟩ : Request).answer file).bind fun x => (next x).runAfresh file t
  | .read next, t => (next t).runAfresh file t
  | .write t next, _ => next.runAfresh file t

/-- Nothing but such variables is relocated. -/
def Relocates (P : Variable → Prop) : Script τ α → Prop
  | .done _ => True
  | .fail _ => True
  | .relocate v next => P v ∧ ∀ x, (next x).Relocates P
  | .read next => ∀ t, (next t).Relocates P
  | .write _ next => next.Relocates P

/-- One script after the other. -/
def bind : Script τ α → (α → Script τ β) → Script τ β
  | .done a, f => f a
  | .fail e, _ => .fail e
  | .relocate v next, f => .relocate v fun x => (next x).bind f
  | .read next, f => .read fun t => (next t).bind f
  | .write t next, f => .write t (next.bind f)

theorem run_bind (c : Script τ α) (f : α → Script τ β) (memo : Relocations) (t : τ) :
    (c.bind f).run file memo t = (c.run file memo t).bind fun (a, memo, t) => (f a).run file memo t := by
  induction c generalizing memo t with
  | done a => rfl
  | fail e => rfl
  | relocate v next ih =>
    simp only [bind, run]
    cases memo.relocate v file with
    | error e => rfl
    | ok p => exact ih p.1 p.2 t
  | read next ih => exact ih t memo t
  | write u next ih => exact ih memo u

theorem Relocates.bind {P : Variable → Prop} {c : Script τ α} {f : α → Script τ β} (h : c.Relocates P)
    (hf : ∀ a, (f a).Relocates P) : (c.bind f).Relocates P := by
  induction c with
  | done a => exact hf a
  | fail e => trivial
  | relocate v next ih => exact ⟨h.1, fun x => ih x (h.2 x)⟩
  | read next ih => exact fun t => ih t (h t)
  | write t next ih => exact ih h

end Script

/-! ## Imported variables -/

/-- The variable is the one that the imports hold under its ident. -/
def Surroundings.Holds (s : Surroundings) (v : Variable) : Prop := Table.findLast? s.externals v.ident = .some v

theorem Surroundings.holds_of_findLast? {s : Surroundings} {i : Ident} {v : Variable}
    (h : Table.findLast? s.externals i = .some v) : s.Holds v := by
  rw [Holds, ident_of_findLast? h]
  exact h

theorem Request.answer_afresh (s : Surroundings) (v : Variable) :
    (⟨{}, v⟩ : Request).answer s.file = s.imported v := by
  unfold answer Relocations.relocate Surroundings.imported
  rcases v.urls with _ | urls
  · rfl
  · rcases s.file with _ | file
    · rfl
    · change (Except.map _ (Relocations.compute v urls file)).map _ = Relocations.compute v urls file
      rcases Relocations.compute v urls file with e | x
      · rfl
      · rfl

/-- A faithful memo answers as an empty one, and stays faithful. -/
theorem Request.answer_faithful {s : Surroundings} (hm : s.Faithful memo) {v : Variable} (hv : s.Holds v) :
    (⟨memo, v⟩ : Request).answer s.file = (⟨{}, v⟩ : Request).answer s.file ∧
      ∀ x memo', memo.relocate v s.file = .ok (x, memo') → s.Faithful memo' := by
  obtain ⟨hok, herror⟩ := Surroundings.relocate_faithful hm hv
  refine ⟨?_, fun x memo' h => (hok x memo' h).2⟩
  rw [answer_afresh, answer]
  rcases h : memo.relocate v s.file with e | ⟨x, memo'⟩
  · exact (herror e h).symm
  · exact (hok x memo' h).1.symm

/-- A script that relocates only what the imports hold: an induction on the
script, in which the memo stays faithful. -/
theorem Script.run_faithful {s : Surroundings} {c : Script τ α} (hc : c.Relocates s.Holds) (hm : s.Faithful memo) (t : τ) :
    (∀ q ∈ c.requests s.file memo t, q.answer s.file = q.afresh.answer s.file) ∧
      (c.run s.file memo t).map (fun (a, _, t) => (a, t)) = c.runAfresh s.file t ∧
      ∀ a memo' t', c.run s.file memo t = .ok (a, memo', t') → s.Faithful memo' := by
  induction c generalizing memo t with
  | done a =>
    refine ⟨fun q hq => (nomatch hq), rfl, fun a memo' t' h => ?_⟩
    cases h
    exact hm
  | fail e => exact ⟨fun q hq => (nomatch hq), rfl, fun _ _ _ h => nomatch h⟩
  | read next ih => exact ih t (hc t) hm t
  | write u next ih => exact ih hc hm u
  | relocate v next ih =>
    obtain ⟨hanswer, hfaithful⟩ := Request.answer_faithful hm hc.1
    simp only [requests, run, runAfresh, List.forall_mem_cons]
    rw [show (⟨{}, v⟩ : Request).answer s.file = (memo.relocate v s.file).map (·.1) from hanswer.symm]
    rcases h : memo.relocate v s.file with e | ⟨x, memo'⟩
    · exact ⟨⟨hanswer, fun q hq => (nomatch hq)⟩, rfl, fun _ _ _ h => (nomatch h)⟩
    · obtain ⟨hrest, hrun, hend⟩ := ih x (hc.2 x) (hfaithful x memo' h) t
      exact ⟨⟨hanswer, hrest⟩, hrun, hend⟩

/-! ## Computations that are scripts -/

/-- A kind of computation that carries a memo along with a state `τ`. -/
class Carries (m : Type → Type) [Monad m] (τ : outParam Type) where
  outcome {α : Type} : m α → Relocations → τ → Except Error (α × Relocations × τ)
  outcome_pure {α : Type} (a : α) (memo : Relocations) (t : τ) : outcome (pure a) memo t = .ok (a, memo, t)
  outcome_bind {α β : Type} (x : m α) (f : α → m β) (memo : Relocations) (t : τ) :
    outcome (x >>= f) memo t = (outcome x memo t).bind fun (a, memo, t) => outcome (f a) memo t

section

variable {m : Type → Type} [Monad m] [Carries m τ] {P : Variable → Prop}

/-- The computation does what the script says. -/
def Follows (file : Option Path) (x : m α) (c : Script τ α) : Prop :=
  ∀ memo t, Carries.outcome x memo t = c.run file memo t

/-- The computation is a script that relocates nothing but such variables. -/
def Scripted (file : Option Path) (P : Variable → Prop) (x : m α) : Prop :=
  ∃ c : Script τ α, Follows file x c ∧ c.Relocates P

theorem scripted_pure (a : α) : Scripted file P (pure a : m α) := ⟨.done a, Carries.outcome_pure a, trivial⟩

theorem Scripted.bind {x : m α} {f : α → m β} (hx : Scripted file P x) (hf : ∀ a, Scripted file P (f a)) :
    Scripted file P (x >>= f) := by
  obtain ⟨c, hc, hP⟩ := hx
  choose d hd hQ using hf
  refine ⟨c.bind d, fun memo t => ?_, hP.bind hQ⟩
  rw [Carries.outcome_bind, hc, Script.run_bind]
  congr 1
  funext p
  exact hd p.1 p.2.1 p.2.2

/-- All that the memo is asked while the computation runs, from here on, it
answers as an empty one, and the outcome is as if each request were to an empty
one. -/
def Unaided (file : Option Path) (x : m α) (memo : Relocations) (t : τ) : Prop :=
  ∃ c : Script τ α, Follows file x c ∧
    (∀ q ∈ c.requests file memo t, q.answer file = q.afresh.answer file) ∧
    (Carries.outcome x memo t).map (fun (a, _, t) => (a, t)) = c.runAfresh file t

/-- A faithful memo is of no consequence where only imported variables are
relocated, and stays faithful. -/
theorem Scripted.unaided {s : Surroundings} {x : m α} (h : Scripted s.file s.Holds x) (hm : s.Faithful memo) (t : τ) :
    Unaided s.file x memo t ∧
      ∀ a memo' t', Carries.outcome x memo t = .ok (a, memo', t') → s.Faithful memo' := by
  obtain ⟨c, hc, hP⟩ := h
  obtain ⟨hrequests, hrun, hend⟩ := Script.run_faithful hP hm t
  rw [← hc memo t] at hrun hend
  exact ⟨⟨c, hc, hrequests, hrun⟩, hend⟩

end

end ThemeVars
