/-
Invariants of a resolution. A property of states is one if each step keeps it:
the memo that grows, and the record that is resolved. `Invariant.resolveTable`:
a run then keeps it. `parsed_resolveAll`: what a run has been through is
resolved.
-/
import ThemeVars.Proofs.Outcome
import ThemeVars.Proofs.Variable.Table
import ThemeVars.Variable.Resolution

namespace ThemeVars

/-- The variable once its value has come to this. -/
def Variable.finished (v : Variable) (e : Expansion) (urls : Option RelativeUrls) : Variable :=
  { v with resolved := e.1, dependencies := OrderedSet.remove v.ident e.2, urls, parsed := true }

namespace Surroundings

variable {s : Surroundings} {I : Progress → Prop} {α β : Type}

/-- Where `I` holds before the computation, it holds after, unless that fails. -/
def Preserves (I : Progress → Prop) (x : Resolving α) : Prop := ∀ p, I p → Ends x p (fun _ q => I q) fun _ => True

theorem preserves_pure (a : α) : Preserves I (pure a) := fun _ hp => hp

theorem preserves_lift (x : Except Error α) : Preserves I (liftM x) :=
  fun _ hp => ends_lift.2 ⟨fun _ _ => hp, fun _ _ => trivial⟩

theorem Preserves.bind {x : Resolving α} {f : α → Resolving β} (h : Preserves I x) (hf : ∀ a, Preserves I (f a)) :
    Preserves I (x >>= f) :=
  fun p hp => ends_bind.2 ((h p hp).mono (fun a q hq => hf a q hq) fun _ _ => trivial)

/-- What is done with the state may hang on that it is the state still. -/
theorem Preserves.get {f : Progress → Resolving α}
    (hf : ∀ p, I p → Ends (f p) p (fun _ q => I q) fun _ => True) : Preserves I (get >>= f) := hf

/-! ## Every step -/

/-- `I` is kept by the memo as it grows. -/
def KeptByMemo (s : Surroundings) (I : Progress → Prop) : Prop :=
  ∀ p ident v x memo, I p → Table.findLast? s.externals ident = .some v →
    p.memo.relocate v s.file = .ok (x, memo) → I { p with memo }

section

variable (hmemo : s.KeptByMemo I)
include hmemo

theorem preserves_external? (ident : Ident) : Preserves I (s.external? ident) := by
  unfold external?
  rcases hv : Table.findLast? s.externals ident with _ | v
  · exact preserves_pure _
  · refine .get fun p hp => ?_
    rcases hx : p.memo.relocate v s.file with e | ⟨x, memo⟩
    · exact trivial
    · exact hmemo p ident v x memo hp hv hx

variable {settle : Ident → Resolving Bool} (hsettle : ∀ next, Preserves I (settle next))
include hsettle

theorem preserves_find? (r : Reference) : Preserves I (s.find? settle r) := by
  unfold find?
  split
  · exact preserves_pure _
  · refine .get fun p hp => ?_
    split
    · refine (hsettle _).bind (fun b => ?_) p hp
      cases b with
      | false => exact preserves_pure _
      | true =>
        refine .get fun q hq => ?_
        split
        · exact preserves_pure _ q hq
        · exact preserves_pure _ q hq
    · exact preserves_external? hmemo _ p hp

theorem preserves_expand (value : Value) : Preserves I (value.expand (s.find? settle)) := by
  induction value with
  | done => exact preserves_pure _
  | text x rest ih => exact ih.bind fun _ => preserves_pure _
  | interpolation inner rest ihi ihr => exact ihi.bind fun _ => ihr.bind fun _ => preserves_pure _
  | reference r rest ih => exact (preserves_find? hmemo hsettle r).bind fun _ => ih.bind fun _ => preserves_pure _
  | guarded r fallback rest ihf ihr =>
    refine (preserves_find? hmemo hsettle r).bind fun found => ?_
    cases found with
    | some e => exact ihr.bind fun _ => preserves_pure _
    | none => exact ihf.bind fun _ => ihr.bind fun _ => preserves_pure _

theorem preserves_expandText (text : String) : Preserves I (s.expandText settle text) :=
  (preserves_lift _).bind fun value => preserves_expand hmemo hsettle value

end

/-- `I` is kept by the memo as it grows, and by a record that is resolved, where
it is kept by whatever resolves the variables that the record refers to. -/
structure Invariant (s : Surroundings) (I : Progress → Prop) : Prop where
  memo : s.KeptByMemo I
  record : ∀ settle v p, (∀ next, Preserves I (settle next)) → I p → p.table.get? v.ident = .some v →
    v.parsed = false →
      Ends (s.expandText settle v.raw) p
        (fun e q => ∀ urls, RelativeUrls.ofValue e.1 v.source = .ok urls →
          I { q with table := q.table.insert (v.finished e urls) }) fun _ => True

/-! ## A whole run -/

/-- An induction on the number of the variables that are not under way. -/
theorem Invariant.resolve (h : s.Invariant I) (waiting : List Ident) (ident : Ident) :
    Preserves I (s.resolve waiting ident) := by
  induction waiting using Table.erase_induction generalizing ident with
  | step waiting ih =>
    rw [Surroundings.resolve]
    refine .get fun p hp => ?_
    split
    · exact preserves_pure _ p hp
    · rename_i v hv
      split
      · exact preserves_pure _ p hp
      · rename_i hparsed
        have hident : v.ident = ident := Table.ident_of_get? hv
        subst hident
        refine ends_bind.2 ((h.record _ v p (fun next => ?_) hp hv (by simpa using hparsed)).mono (fun e q hq => ?_)
          fun _ _ => trivial)
        · split
          · rename_i hnext
            exact (ih next hnext next).bind fun _ => preserves_pure _
          · exact preserves_pure _
        · exact ends_bind.2 (ends_lift.2 ⟨fun urls hurls => ends_modify.2 (hq urls hurls), fun _ _ => trivial⟩)

theorem Invariant.resolveAll (h : s.Invariant I) (locals order : List Ident) :
    Preserves I (s.resolveAll locals order) := by
  induction order with
  | nil => exact preserves_pure _
  | cons ident order ih => exact (h.resolve _ ident).bind fun _ => ih

theorem Invariant.resolveTable (h : s.Invariant I) : Preserves I s.resolveTable :=
  .get fun p hp => h.resolveAll _ _ p hp

/-! ## What is resolved -/

/-- A variable that is resolved stays so. -/
theorem invariant_parsed (ident : Ident) :
    s.Invariant fun p => ∀ v, p.table.get? ident = .some v → v.parsed = true where
  memo _ _ _ _ _ hp _ _ := hp
  record settle v p hsettle hp hv _ := by
    refine (preserves_expandText (fun _ _ _ _ _ hp _ _ => hp) hsettle v.raw p hp).mono (fun e q hq urls _ w hw => ?_)
      fun _ _ => trivial
    rw [Table.get?_insert] at hw
    split at hw
    · cases hw
      rfl
    · exact hq w hw

theorem parsed_resolve (waiting : List Ident) (ident : Ident) (p : Progress) :
    Ends (s.resolve waiting ident) p (fun _ q => ∀ v, q.table.get? ident = .some v → v.parsed = true) fun _ => True := by
  rw [resolve]
  simp only [ends_bind, ends_get]
  rcases hv : p.table.get? ident with _ | v
  · refine ends_pure.2 fun v hv' => ?_
    rw [hv] at hv'
    cases hv'
  · simp only
    split
    · rename_i hparsed
      refine ends_pure.2 fun w hw => ?_
      cases hv.symm.trans hw
      exact hparsed
    · refine ends_bind.2 (ends_trivial fun e q => ends_bind.2 (ends_lift.2 ⟨fun urls _ => ?_, fun _ _ => trivial⟩))
      refine ends_modify.2 fun w hw => ?_
      rw [Table.get?_insert, if_pos (Table.ident_of_get? hv)] at hw
      cases hw
      rfl

/-- A run resolves every variable that it goes through. -/
theorem parsed_resolveAll (locals order : List Ident) (p : Progress) :
    Ends (s.resolveAll locals order) p
      (fun _ q => ∀ i ∈ order, ∀ v, q.table.get? i = .some v → v.parsed = true) fun _ => True := by
  induction order generalizing p with
  | nil => exact ends_pure.2 fun i hi => nomatch hi
  | cons ident order ih =>
    refine ends_bind.2 ((parsed_resolve _ ident p).mono (fun _ q hq => ?_) fun _ _ => trivial)
    have hstays := (invariant_parsed (s := s) ident).resolveAll locals order q hq
    exact ((ih q).and hstays).mono (fun _ r hr => List.forall_mem_cons.2 ⟨hr.2, hr.1⟩) fun _ _ => trivial

end Surroundings

end ThemeVars
