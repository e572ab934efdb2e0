/-
Two resolutions under idents that stand for each other. `InStep` relates their
states, and every step of the two keeps them so: both fail, or both come out
with results that differ in idents only. `lockstep_resolveTable` says so of a
whole run.
-/
import ThemeVars.Proofs.Emission.Relocation
import ThemeVars.Proofs.Variable.Renaming

namespace ThemeVars

open Relator (BiUnique)

variable {ρ : Ident → Ident → Prop} {i j : Ident}

/-- A variable differs in idents only when its value has come to the same. -/
theorem Variable.Renames.resolve (hρ : BiUnique ρ) {v w : Variable} (h : v.Renames ρ w) (hij : ρ i j) (x : String)
    {ds es : List Ident} (hds : SameMembers ρ ds es) (urls : Option RelativeUrls) :
    { v with resolved := x, dependencies := OrderedSet.remove i ds, urls, parsed := true }.Renames ρ
      { w with resolved := x, dependencies := OrderedSet.remove j es, urls, parsed := true } := by
  refine ⟨h.ident, ?_, hds.remove hρ hij⟩
  rw [h.others]

/-! ## Expansions -/

/-- The same text, and dependencies that stand for each other. -/
def Expansion.Renames (ρ : Ident → Ident → Prop) (e f : Expansion) : Prop := e.1 = f.1 ∧ SameMembers ρ e.2 f.2

namespace Expansion

theorem renames_empty : empty.Renames ρ empty := ⟨rfl, .nil⟩

theorem renames_text (x : String) : Renames ρ (x, []) (x, []) := ⟨rfl, .nil⟩

theorem Renames.append {a b a' b' : Expansion} (ha : a.Renames ρ a') (hb : b.Renames ρ b') :
    (a.append b).Renames ρ (a'.append b') :=
  ⟨congrArg₂ (· ++ ·) ha.1 hb.1, ha.2.union hb.2⟩

theorem renames_ofVariable (hij : ρ i j) (x : String) {ds es : List Ident} (h : SameMembers ρ ds es) :
    (ofVariable i x ds).Renames ρ (ofVariable j x es) := by
  unfold ofVariable
  split
  · exact renames_empty
  · exact ⟨rfl, h.insert hij⟩

end Expansion

/-! ## Steps -/

section

variable {α β α' β' : Type} {S : Progress → Progress → Prop} {R : α → β → Prop} {Q : α' → β' → Prop}

/-- From states that `S` relates, both computations fail, or both come out in
such states, with results that `R` relates. -/
def Lockstep (S : Progress → Progress → Prop) (R : α → β → Prop) (x : Resolving α) (y : Resolving β) : Prop :=
  ∀ p q, S p q → Together (fun a b => R a.1 b.1 ∧ S ⟨a.2.2, a.2.1⟩ ⟨b.2.2, b.2.1⟩)
    (Carries.outcome x p.memo p.table) (Carries.outcome y q.memo q.table)

theorem lockstep_pure {a : α} {b : β} (h : R a b) : Lockstep S R (pure a) (pure b) := fun _ _ hpq => .ok ⟨h, hpq⟩

theorem Lockstep.bind {x : Resolving α} {y : Resolving β} {f : α → Resolving α'} {g : β → Resolving β'}
    (h : Lockstep S R x y) (hf : ∀ a b, R a b → Lockstep S Q (f a) (g b)) : Lockstep S Q (x >>= f) (y >>= g) := by
  intro p q hpq
  rw [Carries.outcome_bind, Carries.outcome_bind]
  exact (h p q hpq).bind fun a b hab => hf _ _ hab.1 _ _ hab.2

theorem lockstep_lift {x : Except Error α} {y : Except Error β} (h : Together R x y) :
    Lockstep S R (liftM x : Resolving α) (liftM y : Resolving β) := by
  intro p q hpq
  cases h with
  | error => exact .error
  | ok h => exact .ok ⟨h, hpq⟩

/-- What is done with the states may hang on that they are the states still. -/
theorem lockstep_get {f : Progress → Resolving α} {g : Progress → Resolving β}
    (h : ∀ p q, S p q → Together (fun a b => R a.1 b.1 ∧ S ⟨a.2.2, a.2.1⟩ ⟨b.2.2, b.2.1⟩)
      (Carries.outcome (f p) p.memo p.table) (Carries.outcome (g q) q.memo q.table)) :
    Lockstep S R (get >>= f) (get >>= g) := h

end

namespace Surroundings

/-- The same file is resolved against tables that differ in idents only. -/
structure Renames (ρ : Ident → Ident → Prop) (s s' : Surroundings) : Prop where
  dialect : s'.dialect = s.dialect
  file : s'.file = s.file
  externals : List.Forall₂ (Table.Renames ρ) s.externals s'.externals

variable {s s' : Surroundings}

/-- The variables that the value refers to have idents that stand for each other. -/
def Knows (ρ : Ident → Ident → Prop) (s s' : Surroundings) (value : Value) : Prop :=
  ∀ r ∈ value.references, r.name.isEmpty = false → ρ (s.target r) (s'.target r)

/-- The tables differ in idents only, and so do the memos. -/
structure InStep (ρ : Ident → Ident → Prop) (s s' : Surroundings) (p q : Progress) : Prop where
  table : p.table.Renames ρ q.table
  memo : p.memo.Renames ρ q.memo
  knows : ∀ v ∈ p.table.records, ∀ value, s.reading v.raw = .ok value → s.Knows ρ s' value

variable (hρ : BiUnique ρ) (hs : s.Renames ρ s')
include hρ hs

theorem lockstep_external? (hij : ρ i j) :
    Lockstep (s.InStep ρ s') (Option.Rel (Expansion.Renames ρ)) (s.external? i) (s'.external? j) := by
  unfold external?
  have hfind := Table.Renames.findLast? hρ hs.externals hij
  generalize Table.findLast? s.externals i = o, Table.findLast? s'.externals j = o' at hfind
  cases hfind with
  | none => exact lockstep_pure .none
  | @some v w hvw =>
    refine lockstep_get fun p q hpq => ?_
    have hrelocate := hpq.memo.relocate hρ hvw s.file
    rw [hs.file]
    generalize p.memo.relocate v s.file = a, q.memo.relocate w s.file = b at hrelocate ⊢
    cases hrelocate with
    | error => exact .error
    | @ok a b h =>
      obtain ⟨x, memo⟩ := a
      obtain ⟨y, memo'⟩ := b
      obtain ⟨rfl, hmemo⟩ : x = y ∧ memo.Renames ρ memo' := h
      exact .ok ⟨.some (Expansion.renames_ofVariable hij x hvw.dependencies), hpq.table, hmemo, hpq.knows⟩

variable {settle settle' : Ident → Resolving Bool}
  (hsettle : ∀ i j, ρ i j → Lockstep (s.InStep ρ s') Eq (settle i) (settle' j))
include hsettle

theorem lockstep_find? {r : Reference} (hr : r.name.isEmpty = false → ρ (s.target r) (s'.target r)) :
    Lockstep (s.InStep ρ s') (Option.Rel (Expansion.Renames ρ)) (s.find? settle r) (s'.find? settle' r) := by
  unfold find?
  rcases hname : r.name.isEmpty with _ | _
  · have hij := hr hname
    refine lockstep_get fun p q hpq => ?_
    change Together _ (Carries.outcome (if p.table.contains (s.target r) = true then _ else _) _ _)
      (Carries.outcome (if q.table.contains (s'.target r) = true then _ else _) _ _)
    rw [← hpq.table.contains hρ hij]
    split
    · refine (hsettle _ _ hij).bind (fun b b' hb => ?_) p q hpq
      cases hb
      cases b with
      | false => exact lockstep_pure (.some Expansion.renames_empty)
      | true =>
        refine lockstep_get fun p q hpq => ?_
        have hget : Option.Rel (Variable.Renames ρ) (p.table.get? (.ofName s.mode r.name))
          (q.table.get? (.ofName s'.mode r.name)) := hpq.table.get? hρ hij
        generalize p.table.get? (.ofName s.mode r.name) = o, q.table.get? (.ofName s'.mode r.name) = o' at hget ⊢
        cases hget with
        | none => exact lockstep_pure (.some Expansion.renames_empty) p q hpq
        | @some v w hvw =>
          simp only [hvw.resolved]
          exact lockstep_pure (.some (Expansion.renames_ofVariable hij _ hvw.dependencies)) p q hpq
    · exact lockstep_external? hρ hs hij p q hpq
  · exact lockstep_pure (.some Expansion.renames_empty)

/-- Expanding a value: an induction on the value. -/
theorem lockstep_expand {value : Value} (hvalue : s.Knows ρ s' value) :
    Lockstep (s.InStep ρ s') (Expansion.Renames ρ) (value.expand (s.find? settle)) (value.expand (s'.find? settle')) := by
  induction value with
  | done => exact lockstep_pure Expansion.renames_empty
  | text x rest ih =>
    exact (ih hvalue).bind fun a a' ha => lockstep_pure ((Expansion.renames_text x).append ha)
  | interpolation inner rest ihi ihr =>
    obtain ⟨hinner, hrest⟩ := List.forall_mem_append.1 hvalue
    exact (ihi hinner).bind fun a a' ha => (ihr hrest).bind fun b b' hb => lockstep_pure (ha.append hb)
  | reference r rest ih =>
    obtain ⟨hr, hrest⟩ := List.forall_mem_cons.1 hvalue
    refine (lockstep_find? hρ hs hsettle hr).bind fun found found' hfound => (ih hrest).bind fun b b' hb => ?_
    cases hfound with
    | none => exact lockstep_pure (Expansion.renames_empty.append hb)
    | some ha => exact lockstep_pure (ha.append hb)
  | guarded r fallback rest ihf ihr =>
    obtain ⟨hr, hothers⟩ := List.forall_mem_cons.1 hvalue
    obtain ⟨hfallback, hrest⟩ := List.forall_mem_append.1 hothers
    refine (lockstep_find? hρ hs hsettle hr).bind fun found found' hfound => ?_
    cases hfound with
    | none => exact (ihf hfallback).bind fun a a' ha => (ihr hrest).bind fun b b' hb => lockstep_pure (ha.append hb)
    | some ha => exact (ihr hrest).bind fun b b' hb => lockstep_pure (ha.append hb)

theorem lockstep_expandText {text : String} (htext : ∀ value, s.reading text = .ok value → s.Knows ρ s' value) :
    Lockstep (s.InStep ρ s') (Expansion.Renames ρ) (s.expandText settle text) (s'.expandText settle' text) := by
  unfold expandText
  rw [hs.dialect]
  have hread : Together (fun a b => a = b ∧ s.Knows ρ s' a) (s.reading text) (s.reading text) := by
    rcases h : s.reading text with e | value
    · exact .error
    · exact .ok ⟨rfl, htext value h⟩
  refine (lockstep_lift hread).bind fun value value' h => ?_
  obtain ⟨rfl, hknows⟩ := h
  exact lockstep_expand hρ hs hsettle hknows

omit hsettle

omit hs in
/-- What has been resolved is put in the place of what it was. -/
theorem lockstep_insert {v w : Variable} (hvw : v.Renames ρ w)
    (hv : ∀ value, s.reading v.raw = .ok value → s.Knows ρ s' value) :
    Lockstep (s.InStep ρ s') (fun _ _ => True)
      (modify fun p => { p with table := p.table.insert v } : Resolving Unit)
      (modify fun p => { p with table := p.table.insert w } : Resolving Unit) := by
  intro p q hpq
  refine .ok ⟨trivial, hpq.table.insert hρ hvw, hpq.memo, fun u hu => ?_⟩
  rw [Table.records_insert] at hu
  rcases Keyed.mem_put hu with rfl | hu
  · exact hv
  · exact hpq.knows u hu

/-- Resolving a variable: an induction on the number of the variables that are not
under way. -/
theorem lockstep_resolve {waiting waiting' : List Ident} (hw : List.Forall₂ ρ waiting waiting') (hij : ρ i j) :
    Lockstep (s.InStep ρ s') (fun _ _ => True) (s.resolve waiting i) (s'.resolve waiting' j) := by
  induction waiting using Table.erase_induction generalizing waiting' i j with
  | step waiting ih =>
    rw [resolve, resolve]
    refine lockstep_get fun p q hpq => ?_
    have hget := hpq.table.get? hρ hij
    generalize ho : p.table.get? i = o, q.table.get? j = o' at hget ⊢
    cases hget with
    | none => exact lockstep_pure (R := fun _ _ => True) trivial p q hpq
    | @some v w hvw =>
      simp only [hvw.parsed]
      split
      · exact lockstep_pure (R := fun _ _ => True) trivial p q hpq
      · have hv : v ∈ p.table.records := Table.mem_of_get? ho
        have hvi : v.ident = i := Table.ident_of_get? ho
        rw [hvw.raw]
        refine (lockstep_expandText hρ hs (fun k l hkl => ?_) (hpq.knows v hv)).bind
          (Q := fun _ _ => True) (fun e f hef => ?_) p q hpq
        · have hmem : k ∈ waiting ↔ l ∈ waiting' := List.rel_mem hρ hkl hw
          by_cases hk : k ∈ waiting
          · rw [dif_pos hk, dif_pos (hmem.1 hk)]
            exact (ih k hk (erase_renames hρ hw hkl) hkl).bind fun _ _ _ => lockstep_pure rfl
          · rw [dif_neg hk, dif_neg fun hl => hk (hmem.2 hl)]
            exact lockstep_pure rfl
        · obtain ⟨x, ds⟩ := e
          obtain ⟨y, es⟩ := f
          obtain ⟨rfl, hds⟩ : x = y ∧ SameMembers ρ ds es := hef
          simp only [hvw.source]
          have hurls : Together Eq (RelativeUrls.ofValue x v.source) (RelativeUrls.ofValue x v.source) := by
            rcases RelativeUrls.ofValue x v.source with _ | urls
            · exact .error
            · exact .ok rfl
          refine (lockstep_lift hurls).bind fun urls _ h => ?_
          subst h
          have hdone := hvw.resolve hρ hij x hds urls
          rw [hvw.raw, hvw.source] at hdone
          exact lockstep_insert hρ hdone (hpq.knows v hv)

theorem lockstep_resolveAll {locals locals' order order' : List Ident} (hl : List.Forall₂ ρ locals locals')
    (ho : List.Forall₂ ρ order order') :
    Lockstep (s.InStep ρ s') (fun _ _ => True) (s.resolveAll locals order) (s'.resolveAll locals' order') := by
  induction ho with
  | nil => exact lockstep_pure trivial
  | cons hij _ ih => exact (lockstep_resolve hρ hs (erase_renames hρ hl hij) hij).bind fun _ _ _ => ih

/-- A whole run. -/
theorem lockstep_resolveTable : Lockstep (s.InStep ρ s') (fun _ _ => True) s.resolveTable s'.resolveTable :=
  lockstep_get fun p q hpq => lockstep_resolveAll hρ hs hpq.table.idents hpq.table.idents p q hpq

end Surroundings

end ThemeVars
