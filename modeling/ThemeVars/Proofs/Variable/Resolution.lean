/-
Resolution is substitution. On a table of unresolved records whose references
lead to no cycle, `Fits` is kept by every step: each record is as it was or as
it has to become, and the memo holds what relocation gives.
`resolveTable_settles`: the table is resolved exactly if each record has an
expansion, and each record then has it, in every order and whatever values
were resolved before.
-/
import ThemeVars.Proofs.Outcome
import ThemeVars.Proofs.Variable.Substitution

namespace ThemeVars.Surroundings

variable {s : Surroundings} {t : Table} {D : Ident → Prop} {p : Progress}

/-! ## The memo -/

/-- A memo that holds what relocation gives for external variables. -/
def Faithful (s : Surroundings) (memo : Relocations) : Prop :=
  ∀ i v urls file x, Table.findLast? s.externals i = .some v → v.urls = .some urls → s.file = .some file →
    memo.find? v.ident file = .some x → Relocations.compute v urls file = .ok x

theorem faithful_empty (s : Surroundings) : s.Faithful {} := by
  intro i v urls file x _ _ _ hx
  cases hx

theorem ident_of_findLast? {ts : List Table} {i : Ident} {v : Variable} (h : Table.findLast? ts i = .some v) :
    v.ident = i := by
  obtain ⟨t, -, ht⟩ := List.exists_of_findSome?_eq_some h
  exact Table.ident_of_get? ht

/-- With such a memo, relocation gives what it gives without, and the memo
stays one. -/
theorem relocate_faithful {memo : Relocations} (hm : s.Faithful memo) {i : Ident} {v : Variable}
    (hv : Table.findLast? s.externals i = .some v) :
    (∀ x memo', memo.relocate v s.file = .ok (x, memo') → s.imported v = .ok x ∧ s.Faithful memo') ∧
      (∀ e, memo.relocate v s.file = .error e → s.imported v = .error e) := by
  unfold Relocations.relocate imported
  rcases hu : v.urls with _ | urls
  · refine ⟨fun x memo' h => ?_, fun e h => (nomatch h)⟩
    cases h
    exact ⟨rfl, hm⟩
  · rcases hfile : s.file with _ | file
    · refine ⟨fun x memo' h => ?_, fun e h => (nomatch h)⟩
      cases h
      exact ⟨rfl, hm⟩
    · simp only
      rcases hx : memo.find? v.ident file with _ | x
      · simp only
        rcases hc : Relocations.compute v urls file with e | x
        · refine ⟨fun _ _ h => (nomatch h), fun e' h => ?_⟩
          cases h
          rfl
        · refine ⟨fun x' memo' h => ?_, fun _ h => (nomatch h)⟩
          cases h
          refine ⟨rfl, fun j w urls' file' x' hw hwu hwf hx' => ?_⟩
          simp only [Relocations.find?, List.find?_cons] at hx'
          split at hx'
          · rename_i hkey
            simp only [Bool.and_eq_true, beq_iff_eq] at hkey
            -- the new entry is for `v`, of which there is only one
            have hij : i = j := by rw [← ident_of_findLast? hv, hkey.1, ident_of_findLast? hw]
            subst hij
            cases hv.symm.trans hw
            cases hu.symm.trans hwu
            cases hfile.symm.trans hwf
            rw [hc, ← Option.some.inj hx']
          · exact hm j w urls' file' x' hw hwu hwf hx'
      · refine ⟨fun x' memo' h => ?_, fun e h => (nomatch h)⟩
        cases h
        exact ⟨hm i v urls file x hv hu hfile hx, hm⟩

/-! ## What every step keeps -/

/-- A state on the way from `t`: records are as they were or resolved, those
with idents in `D` resolved, and the memo holds what relocation gives. -/
structure Fits (s : Surroundings) (t : Table) (D : Ident → Prop) (p : Progress) : Prop where
  records : List.Forall₂ (fun v w => w = v ∨ s.Settles t v w) t.records p.table.records
  done : ∀ i w, D i → p.table.get? i = .some w → w.parsed = true
  memo : s.Faithful p.memo

theorem ident_of_fits (v w : Variable) (h : w = v ∨ s.Settles t v w) : w.ident = v.ident := by
  rcases h with rfl | h
  · rfl
  · exact h.ident

theorem Fits.start (s : Surroundings) (t : Table) : s.Fits t (fun _ => False) ⟨t, {}⟩ :=
  ⟨List.forall₂_same.2 fun _ _ => .inl rfl, fun _ _ h => h.elim, faithful_empty s⟩

theorem Fits.idents (h : s.Fits t D p) : p.table.idents = t.idents := Table.idents_forall₂ ident_of_fits h.records

theorem Fits.contains (h : s.Fits t D p) (i : Ident) : p.table.contains i = t.contains i := by
  rw [Bool.eq_iff_iff, Table.contains_iff, Table.contains_iff, ← Table.mem_idents, ← Table.mem_idents, h.idents]

theorem Fits.get? (h : s.Fits t D p) {i : Ident} {v : Variable} (hv : t.get? i = .some v) :
    ∃ w, p.table.get? i = .some w ∧ (w = v ∨ s.Settles t v w) := by
  have hrel := Table.get?_forall₂ ident_of_fits h.records i
  rw [hv] at hrel
  generalize p.table.get? i = o at hrel ⊢
  cases hrel with
  | some hw => exact ⟨_, rfl, hw⟩

theorem Fits.weaken {D' : Ident → Prop} (h : s.Fits t D p) (hD : ∀ i, D' i → D i) : s.Fits t D' p :=
  ⟨h.records, fun i w hi => h.done i w (hD i hi), h.memo⟩

theorem Fits.withMemo (h : s.Fits t D p) {memo : Relocations} (hm : s.Faithful memo) :
    s.Fits t D { p with memo } := ⟨h.records, h.done, hm⟩

/-- A resolved record may take the place of the one that comes to it. -/
theorem Fits.insert (h : s.Fits t D p) {v w : Variable} (hv : t.get? v.ident = .some v) (hw : s.Settles t v w) :
    s.Fits t D { p with table := p.table.insert w } := by
  refine ⟨Table.forall₂_insert ident_of_fits h.records hv (.inr hw), fun i x hi hx => ?_, h.memo⟩
  simp only [Table.get?_insert] at hx
  split at hx
  · rw [← Option.some.inj hx]
    exact hw.parsed
  · exact h.done i x hi hx

/-! ## One step -/

/-- `settle` brings the local variable to what it comes to, or fails where it
comes to nothing. -/
def Settling (s : Surroundings) (t : Table) (D : Ident → Prop) (settle : Ident → Resolving Bool) (i : Ident) : Prop :=
  ∀ v p, t.get? i = .some v → s.Fits t D p →
    Ends (settle i) p
      (fun b q => b = true ∧ s.Fits t D q ∧ ∃ w, q.table.get? i = .some w ∧ s.Settles t v w)
      (fun q => s.Fits t D q ∧ ∀ w, ¬ s.Settles t v w)

theorem external?_ends {r : Reference} (hp : s.Fits t D p) (hr : r.name.isEmpty = false)
    (hv : t.get? (s.target r) = .none) :
    Ends (s.external? (s.target r)) p (fun o q => s.Fits t D q ∧ s.Gives t r o)
      (fun q => s.Fits t D q ∧ ∀ o, ¬ s.Gives t r o) := by
  unfold external?
  rcases hx : Table.findLast? s.externals (s.target r) with _ | v
  · exact ends_pure.2 ⟨hp, .missing hr hv hx⟩
  · obtain ⟨hok, herr⟩ := relocate_faithful hp.memo hx
    simp only [ends_bind, ends_get]
    rcases hm : p.memo.relocate v s.file with e | ⟨x, memo⟩
    · refine ends_throw.2 ⟨hp, fun o ho => ?_⟩
      cases ho with
      | blank hr' => simp [hr] at hr'
      | record _ hv' => cases hv.symm.trans hv'
      | external _ _ hx' hi =>
        cases hx.symm.trans hx'
        cases (herr e hm).symm.trans hi
      | missing _ _ hx' => cases hx.symm.trans hx'
    · obtain ⟨hi, hmemo⟩ := hok x memo hm
      exact ⟨hp.withMemo hmemo, .external hr hv hx hi⟩

/-- Finding a reference ends in what it gives. -/
theorem find?_ends {settle : Ident → Resolving Bool} {r : Reference} (hp : s.Fits t D p)
    (hs : r.name.isEmpty = false → s.Settling t D settle (s.target r)) :
    Ends (s.find? settle r) p (fun o q => s.Fits t D q ∧ s.Gives t r o)
      (fun q => s.Fits t D q ∧ ∀ o, ¬ s.Gives t r o) := by
  unfold find?
  rcases hr : r.name.isEmpty with _ | _
  · simp only [Bool.false_eq_true, if_false, ends_bind, ends_get]
    rw [show Ident.ofName s.mode r.name = s.target r from rfl, hp.contains]
    rcases hc : t.contains (s.target r) with _ | _
    · exact external?_ends hp hr (Table.contains_eq_false.1 hc)
    · obtain ⟨v, hv⟩ := Table.contains_iff.1 hc
      simp only [if_true, ends_bind]
      refine (hs hr v p hv hp).mono ?_ ?_
      · rintro b q ⟨rfl, hq, w, hw, hsettles⟩
        simp only [if_true, ends_bind, ends_get, hw]
        exact ⟨hq, .record hr hv hsettles⟩
      · rintro q ⟨hq, hno⟩
        refine ⟨hq, fun o ho => ?_⟩
        cases ho with
        | blank hr' => simp [hr] at hr'
        | record _ hv' hw =>
          cases hv.symm.trans hv'
          exact hno _ hw
        | external _ hv' => cases hv.symm.trans hv'
        | missing _ hv' => cases hv.symm.trans hv'
  · exact ends_pure.2 ⟨hp, .blank hr⟩

/-- Expanding a value ends in its expansion: an induction on the value, each
step of which keeps the state fit. -/
theorem expand_ends {settle : Ident → Resolving Bool} {value : Value} (hp : s.Fits t D p)
    (hs : ∀ r ∈ value.references, r.name.isEmpty = false → s.Settling t D settle (s.target r)) :
    Ends (value.expand (s.find? settle)) p (fun e q => s.Fits t D q ∧ s.Expands t value e)
      (fun q => s.Fits t D q ∧ ∀ e, ¬ s.Expands t value e) := by
  induction value generalizing p with
  | done => exact ends_pure.2 ⟨hp, .done⟩
  | text x rest ih =>
    simp only [Value.expand, ends_bind]
    refine (ih hp hs).mono ?_ ?_
    · rintro e q ⟨hq, he⟩
      exact ends_pure.2 ⟨hq, .text he⟩
    · rintro q ⟨hq, hno⟩
      refine ⟨hq, fun e he => ?_⟩
      cases he with
      | text he => exact hno _ he
  | interpolation inner rest ihi ihr =>
    simp only [Value.references, List.mem_append] at hs
    simp only [Value.expand, ends_bind]
    refine (ihi hp fun r hr => hs r (.inl hr)).mono ?_ ?_
    · rintro a q ⟨hq, ha⟩
      refine (ihr hq fun r hr => hs r (.inr hr)).mono ?_ ?_
      · rintro b q ⟨hq, hb⟩
        exact ends_pure.2 ⟨hq, .interpolation ha hb⟩
      · rintro q ⟨hq, hno⟩
        refine ⟨hq, fun e he => ?_⟩
        cases he with
        | interpolation _ hb => exact hno _ hb
    · rintro q ⟨hq, hno⟩
      refine ⟨hq, fun e he => ?_⟩
      cases he with
      | interpolation ha _ => exact hno _ ha
  | reference r rest ih =>
    simp only [Value.references, List.mem_cons] at hs
    simp only [Value.expand, ends_bind]
    refine (find?_ends hp (hs r (.inl rfl))).mono ?_ ?_
    · rintro o q ⟨hq, ho⟩
      refine (ih hq fun r hr => hs r (.inr hr)).mono ?_ ?_
      · rintro b q ⟨hq, hb⟩
        refine ends_pure.2 ⟨hq, .reference ?_⟩
        cases o with
        | none => exact ho.expands_none .done hb
        | some a => exact ho.expands_some hb .done
      · rintro q ⟨hq, hno⟩
        refine ⟨hq, fun e he => ?_⟩
        cases he with
        | reference he =>
          obtain ⟨⟨b, hb⟩, -⟩ := he.guarded_inv
          exact hno b hb
    · rintro q ⟨hq, hno⟩
      refine ⟨hq, fun e he => ?_⟩
      cases he with
      | reference he =>
        obtain ⟨-, ⟨a, ha⟩ | ⟨ha, -⟩⟩ := he.guarded_inv
        · exact hno _ ha
        · exact hno _ ha
  | guarded r fallback rest ihf ihr =>
    simp only [Value.references, List.mem_cons, List.mem_append, List.cons_append] at hs
    simp only [Value.expand, ends_bind]
    refine (find?_ends hp (hs r (.inl rfl))).mono ?_ ?_
    · rintro o q ⟨hq, ho⟩
      cases o with
      | some a =>
        simp only [ends_bind]
        refine (ihr hq fun r hr => hs r (.inr (.inr hr))).mono ?_ ?_
        · rintro b q ⟨hq, hb⟩
          exact ends_pure.2 ⟨hq, ho.expands_some hb _⟩
        · rintro q ⟨hq, hno⟩
          refine ⟨hq, fun e he => ?_⟩
          obtain ⟨⟨b, hb⟩, -⟩ := he.guarded_inv
          exact hno b hb
      | none =>
        simp only [ends_bind]
        refine (ihf hq fun r hr => hs r (.inr (.inl hr))).mono ?_ ?_
        · rintro a q ⟨hq, ha⟩
          refine (ihr hq fun r hr => hs r (.inr (.inr hr))).mono ?_ ?_
          · rintro b q ⟨hq, hb⟩
            exact ends_pure.2 ⟨hq, ho.expands_none ha hb⟩
          · rintro q ⟨hq, hno⟩
            refine ⟨hq, fun e he => ?_⟩
            obtain ⟨⟨b, hb⟩, -⟩ := he.guarded_inv
            exact hno b hb
        · rintro q ⟨hq, hno⟩
          refine ⟨hq, fun e he => ?_⟩
          obtain ⟨-, ⟨a, ha⟩ | ⟨-, a, ha⟩⟩ := he.guarded_inv
          · exact ho.not_some a ha
          · exact hno a ha
    · rintro q ⟨hq, hno⟩
      refine ⟨hq, fun e he => ?_⟩
      obtain ⟨-, ⟨a, ha⟩ | ⟨ha, -⟩⟩ := he.guarded_inv
      · exact hno _ ha
      · exact hno _ ha

/-- Expanding the text of a value ends in the expansion of what it is read as. -/
theorem expandText_ends {settle : Ident → Resolving Bool} {text : String} (hp : s.Fits t D p)
    (hs : ∀ value, Value.parse s.dialect.sigil? (Value.stripPriority text) = .ok value →
      ∀ r ∈ value.references, r.name.isEmpty = false → s.Settling t D settle (s.target r)) :
    Ends (s.expandText settle text) p (fun e q => s.Fits t D q ∧ s.TextExpands t text e)
      (fun q => s.Fits t D q ∧ ∀ e, ¬ s.TextExpands t text e) := by
  unfold expandText
  rw [ends_bind, ends_lift]
  refine ⟨fun value hvalue => ?_, fun error herror => ⟨hp, ?_⟩⟩
  · refine (expand_ends hp (hs value hvalue)).mono ?_ ?_
    · rintro e q ⟨hq, he⟩
      exact ⟨hq, value, hvalue, he⟩
    · rintro q ⟨hq, hno⟩
      refine ⟨hq, ?_⟩
      rintro e ⟨value', hvalue', he⟩
      cases hvalue.symm.trans hvalue'
      exact hno e he
  · rintro e ⟨value, hvalue, -⟩
    cases herror.symm.trans hvalue

/-- All that a local variable leads to is left when the variable itself is
taken out. -/
theorem Acyclic.mem_erase (ha : s.Acyclic t) {i j : Ident} (hij : Relation.TransGen (s.Refers t) i j) : j ∈ t.idents.erase i := by
  have hlocal : j ∈ t.idents := by
    rcases Relation.TransGen.tail'_iff.1 hij with ⟨k, -, v, value, r, -, -, -, -, -, hc⟩
    exact Table.mem_idents.2 (Table.contains_iff.1 hc)
  have hne : j ≠ i := fun h => ha i (h ▸ hij)
  exact (List.mem_erase_of_ne hne).2 hlocal

/-! ## A whole run -/

section

variable (hu : ∀ v ∈ t.records, v.parsed = false) (ha : s.Acyclic t)
include hu ha

/-- Resolving a local variable ends in what it comes to, if all that it leads
to is waiting: on a graph without cycles, the variable itself is not among it. -/
theorem resolve_ends {waiting : List Ident} {i : Ident} {v : Variable} (hv : t.get? i = .some v)
    (hw : ∀ j, Relation.TransGen (s.Refers t) i j → j ∈ waiting) (hp : s.Fits t D p) :
    Ends (s.resolve waiting i) p
      (fun _ q => s.Fits t D q ∧ ∃ w, q.table.get? i = .some w ∧ s.Settles t v w)
      (fun q => s.Fits t D q ∧ ∀ w, ¬ s.Settles t v w) := by
  induction waiting using Table.erase_induction generalizing i v p with
  | step waiting ih =>
    obtain ⟨w, hw', hrel⟩ := hp.get? hv
    have hunparsed := hu v (Table.mem_of_get? hv)
    rw [resolve]
    simp only [ends_bind, ends_get, hw']
    rcases hparsed : w.parsed with _ | _
    · have hwv : w = v := hrel.resolve_right fun h => by simp [h.parsed] at hparsed
      subst hwv
      simp only [Bool.false_eq_true, if_false, ends_bind]
      refine (expandText_ends hp fun value hvalue r hr hname => ?_).mono ?_ ?_
      · intro v' q hv' hq
        have hedge : s.Refers t i (s.target r) :=
          ⟨w, value, r, hv, hvalue, hr, hname, rfl, Table.contains_iff.2 ⟨v', hv'⟩⟩
        have hmem : s.target r ∈ waiting := hw _ (.single hedge)
        beta_reduce
        rw [dif_pos hmem, ends_bind]
        refine (ih _ hmem hv' (fun j hj => ?_) hq).mono ?_ fun _ hq => hq
        · have hne : j ≠ s.target r := fun h => ha j (h ▸ hj)
          exact (List.mem_erase_of_ne hne).2 (hw j (.head hedge hj))
        · rintro - q ⟨hq, hsettled⟩
          exact ⟨rfl, hq, hsettled⟩
      · rintro ⟨resolved, dependencies⟩ q ⟨hq, he⟩
        rw [ends_lift]
        refine ⟨fun urls hurls => ?_, fun e hurls => ⟨hq, ?_⟩⟩
        · have hsettles : s.Settles t w { w with resolved, dependencies := OrderedSet.remove i dependencies, urls, parsed := true } :=
            ⟨(resolved, dependencies), urls, he, hurls, by rw [Table.ident_of_get? hv]⟩
          refine ends_modify.2 ⟨hq.insert (by rwa [Table.ident_of_get? hv]) hsettles, _, ?_, hsettles⟩
          rw [Table.get?_insert, if_pos (Table.ident_of_get? hv)]
        · rintro x ⟨e', urls', he', hurls', -⟩
          cases he.unique he'
          cases hurls.symm.trans hurls'
      · rintro q ⟨hq, hno⟩
        refine ⟨hq, ?_⟩
        rintro x ⟨e, -, he, -⟩
        exact hno e he
    · refine ends_pure.2 ⟨hp, w, hw', hrel.resolve_left ?_⟩
      rintro rfl
      simp [hunparsed] at hparsed

/-- Resolving a list of local variables ends when each has been brought to what
it comes to. -/
theorem resolveAll_ends {order : List Ident} (ho : ∀ i ∈ order, i ∈ t.idents) (hp : s.Fits t D p) :
    Ends (s.resolveAll t.idents order) p (fun _ q => s.Fits t (fun i => D i ∨ i ∈ order) q)
      (fun q => s.Fits t D q ∧ ∃ v ∈ t.records, ∀ w, ¬ s.Settles t v w) := by
  induction order generalizing D p with
  | nil => exact ends_pure.2 (hp.weaken fun i hi => hi.resolve_right (List.not_mem_nil))
  | cons i order ih =>
    obtain ⟨v, hv⟩ := Table.mem_idents.1 (ho i (by simp))
    simp only [resolveAll, ends_bind]
    refine (resolve_ends hu ha hv (fun j => ha.mem_erase) hp).mono ?_ ?_
    · rintro - q ⟨hq, w, hw, hsettles⟩
      have hq' : s.Fits t (fun j => D j ∨ j = i) q := by
        refine ⟨hq.records, fun j x hj hx => ?_, hq.memo⟩
        rcases hj with hj | rfl
        · exact hq.done j x hj hx
        · cases hw.symm.trans hx
          exact hsettles.parsed
      refine (ih (fun j hj => ho j (by simp [hj])) hq').mono ?_ ?_
      · intro _ r hr
        refine hr.weaken fun j hj => ?_
        rcases hj with hj | hj
        · exact .inl (.inl hj)
        · rcases List.mem_cons.1 hj with rfl | hj
          · exact .inl (.inr rfl)
          · exact .inr hj
      · rintro r ⟨hr, hno⟩
        exact ⟨hr.weaken fun _ => .inl, hno⟩
    · rintro q ⟨hq, hno⟩
      exact ⟨hq, v, Table.mem_of_get? hv, hno⟩

/-- Resolving a value that no variable has ends in its expansion. -/
theorem resolveValue_ends (value : String) (hp : s.Fits t D p) :
    Ends (s.resolveValue value) p (fun e q => s.Fits t D q ∧ s.TextExpands t value e)
      (fun q => s.Fits t D q ∧ ∀ e, ¬ s.TextExpands t value e) := by
  unfold resolveValue
  simp only [ends_bind, ends_get, hp.idents]
  refine expandText_ends hp fun _ _ r _ _ v q hv hq => ?_
  have hmem : t.idents.contains (s.target r) = true := by
    rw [List.contains_iff_mem]
    exact Table.mem_idents.2 ⟨v, hv⟩
  rw [if_pos hmem, ends_bind]
  refine (resolve_ends hu ha hv (fun j => ha.mem_erase) hq).mono ?_ fun _ hq => hq
  rintro - q ⟨hq, hsettled⟩
  exact ⟨rfl, hq, hsettled⟩

/-- Resolving the table ends with every record resolved. -/
theorem resolveTable_ends (hp : s.Fits t D p) :
    Ends s.resolveTable p (fun _ q => List.Forall₂ (s.Settles t) t.records q.table.records)
      (fun _ => ∃ v ∈ t.records, ∀ w, ¬ s.Settles t v w) := by
  unfold resolveTable
  simp only [ends_bind, ends_get, hp.idents]
  refine (resolveAll_ends hu ha (fun _ hi => hi) hp).mono ?_ fun _ hq => hq.2
  intro _ q hq
  have hparsed : ∀ w ∈ q.table.records, w.parsed = true := by
    intro w hw
    have hget : q.table.get? w.ident = .some w := Table.get?_of_mem hw
    exact hq.done w.ident w (.inr (hq.idents ▸ Table.mem_idents.2 ⟨w, hget⟩)) hget
  have hleft := (List.forall₂_and_left _ _).2 ⟨hu, hq.records⟩
  have hboth := (List.forall₂_and_left _ _).2 ⟨hparsed, List.Forall₂.flip (R := fun w v => _) hleft⟩
  refine List.Forall₂.flip (hboth.imp ?_)
  rintro w v ⟨hw, hv, rfl | hvw⟩
  · rw [hv] at hw
    cases hw
  · exact hvw

end

/-! ## The outcome -/

/-- The state after these values have been resolved, with or without success. -/
def asking (s : Surroundings) (p : Progress) : List String → Progress
  | [] => p
  | value :: rest => s.asking ((s.resolveValue value).run.run p).2 rest

/-- The table resolved, after these values have been. -/
def outcome (s : Surroundings) (t : Table) (asked : List String) : Except Error Table :=
  match s.resolveTable.run.run (s.asking ⟨t, {}⟩ asked) with
  | (.ok _, q) => .ok q.table
  | (.error e, _) => .error e

theorem asking_fits (hu : ∀ v ∈ t.records, v.parsed = false) (ha : s.Acyclic t) (asked : List String)
    (hp : s.Fits t D p) : s.Fits t D (s.asking p asked) := by
  induction asked generalizing p with
  | nil => exact hp
  | cons value rest ih =>
    refine ih ?_
    have hends := resolveValue_ends hu ha value hp
    unfold Ends at hends
    rcases h : ((s.resolveValue value).run.run p : Except Error Expansion × Progress) with ⟨_ | _, q⟩
    · rw [h] at hends
      exact hends.1
    · rw [h] at hends
      exact hends.1

theorem exists_of_forall₂ {R : Variable → Variable → Prop} {vs ws : List Variable} (h : List.Forall₂ R vs ws)
    {v : Variable} (hv : v ∈ vs) : ∃ w ∈ ws, R v w := by
  induction h with
  | nil => cases hv
  | cons hvw _ ih =>
    rcases List.mem_cons.1 hv with rfl | hv
    · exact ⟨_, List.mem_cons_self, hvw⟩
    · obtain ⟨w, hw, hvw⟩ := ih hv
      exact ⟨w, List.mem_cons_of_mem _ hw, hvw⟩

/-- There is a table of what the records come to if each comes to something. -/
theorem exists_settled_iff : (∃ u : Table, List.Forall₂ (s.Settles t) t.records u.records) ↔
    ∀ v ∈ t.records, ∃ w, s.Settles t v w := by
  constructor
  · rintro ⟨u, hu⟩ v hv
    obtain ⟨w, -, hw⟩ := exists_of_forall₂ hu hv
    exact ⟨w, hw⟩
  · intro h
    have hall : ∀ vs : List Variable, (∀ v ∈ vs, ∃ w, s.Settles t v w) → ∃ ws, List.Forall₂ (s.Settles t) vs ws := by
      intro vs hvs
      induction vs with
      | nil => exact ⟨[], .nil⟩
      | cons v vs ih =>
        obtain ⟨w, hw⟩ := hvs v (by simp)
        obtain ⟨ws, hws⟩ := ih fun v hv => hvs v (by simp [hv])
        exact ⟨w :: ws, .cons hw hws⟩
    obtain ⟨ws, hws⟩ := hall t.records h
    have hidents : ws.map (·.ident) = t.idents := Table.map_ident_forall₂ (fun _ _ => Settles.ident) hws
    exact ⟨⟨.ofEntries ws (hidents ▸ t.nodup_idents)⟩, hws⟩

/-- The table is resolved exactly if every record has an expansion, and then
every record has it. -/
theorem outcome_ok_iff (hu : ∀ v ∈ t.records, v.parsed = false) (ha : s.Acyclic t)
    (asked : List String) (u : Table) :
    s.outcome t asked = .ok u ↔ List.Forall₂ (s.Settles t) t.records u.records := by
  have hends := resolveTable_ends hu ha (asking_fits hu ha asked (.start s t))
  unfold Ends at hends
  unfold outcome
  rcases h : (s.resolveTable.run.run (s.asking ⟨t, {}⟩ asked) : Except Error Unit × Progress) with ⟨e | _, q⟩
  · rw [h] at hends
    obtain ⟨v, hv, hno⟩ := hends
    refine ⟨fun h => (nomatch h), fun hall => ?_⟩
    obtain ⟨w, -, hw⟩ := exists_of_forall₂ hall hv
    exact absurd hw (hno w)
  · rw [h] at hends
    constructor
    · intro hq
      cases hq
      exact hends
    · intro hall
      have hrecords : q.table.records = u.records :=
        List.right_unique_forall₂' (fun _ _ _ hw hx => hw.unique hx) hends hall
      rw [← Table.ext_records hrecords]

/-- Resolution is substitution. Whether a table of unresolved records is
resolved, and what each of its variables comes to, depends on what its records
expand to, and not on their order or on the values resolved before. -/
theorem outcome_expands (hu : ∀ v ∈ t.records, v.parsed = false) (ha : s.Acyclic t) (asked : List String) :
    (∀ u, s.outcome t asked = .ok u ↔ List.Forall₂ (s.Settles t) t.records u.records) ∧
      ∀ t' asked', t.records.Perm t'.records →
        ((∃ u, s.outcome t asked = .ok u) ↔ ∃ u, s.outcome t' asked' = .ok u) ∧
        ∀ u u', s.outcome t asked = .ok u → s.outcome t' asked' = .ok u' → ∀ i, u.get? i = u'.get? i := by
  refine ⟨outcome_ok_iff hu ha asked, fun t' asked' hperm => ?_⟩
  have hget := Table.get?_perm hperm
  have hu' : ∀ v ∈ t'.records, v.parsed = false := fun v hv => hu v (hperm.mem_iff.2 hv)
  have hiff := outcome_ok_iff hu ha asked
  have hiff' := outcome_ok_iff hu' (ha.congr hget) asked'
  refine ⟨?_, fun u u' hok hok' i => ?_⟩
  · simp only [hiff, hiff', exists_settled_iff]
    constructor
    · intro h v hv
      obtain ⟨w, hw⟩ := h v (hperm.mem_iff.2 hv)
      exact ⟨w, hw.congr hget⟩
    · intro h v hv
      obtain ⟨w, hw⟩ := h v (hperm.mem_iff.1 hv)
      exact ⟨w, hw.congr fun i => (hget i).symm⟩
  · have hrel := Table.get?_forall₂ (fun _ _ => Settles.ident) ((hiff u).1 hok) i
    have hrel' := Table.get?_forall₂ (fun _ _ => Settles.ident) ((hiff' u').1 hok') i
    rw [← hget] at hrel'
    generalize t.get? i = o, u.get? i = w, u'.get? i = w' at hrel hrel' ⊢
    cases hrel with
    | none =>
      cases hrel'
      rfl
    | some hw =>
      cases hrel' with
      | some hw' => rw [hw.unique (hw'.congr fun i => (hget i).symm)]

/-- A file without imports. -/
def alone : Surroundings := ⟨.scss, .debug, [], .none⟩

/-- Two variables, the first of which refers to the second. -/
def chain : Table :=
  .ofList [
    { ident := .ofName .debug "$a", name := "$a", raw := "$b 1px" },
    { ident := .ofName .debug "$b", name := "$b", raw := "red" }]

theorem acyclic_chain : alone.Acyclic chain := by
  have hfirst : alone.reading "$b 1px" = .ok (.reference ⟨"$b", "$b", .sigil⟩ (.text " 1px" .done)) := by
    decide +kernel
  have hsecond : alone.reading "red" = .ok (.text "red" .done) := by decide +kernel
  have hne : Ident.ofName .debug "$b" ≠ Ident.ofName .debug "$a" := by decide +kernel
  refine .of_rank (fun i => if i = .ofName .debug "$a" then 1 else 0) ?_
  rintro i j ⟨v, value, r, hv, hp, hr, -, rfl, -⟩
  have hmem := Table.mem_ofList (Table.mem_of_get? hv)
  rw [← Table.ident_of_get? hv]
  simp only [List.mem_cons, List.not_mem_nil, or_false] at hmem
  rcases hmem with rfl | rfl
  · rw [hfirst] at hp
    cases hp
    cases List.mem_singleton.1 hr
    simp [target, alone, hne]
  · rw [hsecond] at hp
    cases hp
    cases hr

theorem outcome_expands_chain :
    (∀ v ∈ chain.records, v.parsed = false) ∧ alone.Acyclic chain ∧
      ∃ u, alone.outcome chain ["$b"] = .ok u ∧
        u.records.map (fun v => (v.name, v.resolved, v.dependencies)) =
          [("$a", "red 1px", [.ofName .debug "$b"]), ("$b", "red", [])] ∧
        List.Forall₂ (alone.Settles chain) chain.records u.records := by
  have hu : ∀ v ∈ chain.records, v.parsed = false := by decide +kernel
  have hok : alone.outcome chain ["$b"] = .ok
      (.ofList [
        { ident := .ofName .debug "$a", name := "$a", raw := "$b 1px", resolved := "red 1px",
          dependencies := [.ofName .debug "$b"], parsed := true },
        { ident := .ofName .debug "$b", name := "$b", raw := "red", resolved := "red", parsed := true }]) := by
    decide +kernel
  have hexpands := outcome_expands hu acyclic_chain ["$b"]
  exact ⟨hu, acyclic_chain, _, hok, by decide +kernel, (hexpands.1 _).1 hok⟩

end ThemeVars.Surroundings
