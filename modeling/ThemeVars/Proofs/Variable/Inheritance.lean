/-
What a variable inherits from the theme. A variable that refers to imported
variables alone depends on these and on all that they depend on, whose idents
the file may use for variables of its own. `mem_reference_iff`: it is a
reference variable if what it inherits is the theme's still or follows the
theme in turn. No other variable of the file has a say in that.
-/
import ThemeVars.Proofs.Emission.Relocation
import ThemeVars.Proofs.OrderedSet
import ThemeVars.Proofs.Value.Resource
import ThemeVars.Proofs.Variable.Classification
import ThemeVars.Proofs.Variable.Declaration
import ThemeVars.Proofs.Variable.Scan

namespace ThemeVars

namespace Value

/-- The references that stand in no fallback. -/
def direct : Value → List Reference
  | .done => []
  | .text _ rest => rest.direct
  | .interpolation inner rest => inner.direct ++ rest.direct
  | .reference r rest => r :: rest.direct
  | .guarded r _ rest => r :: rest.direct

/-- A value with references has some that stand in no fallback. -/
theorem direct_ne_nil {v : Value} (h : v.references ≠ []) : v.direct ≠ [] := by
  induction v with
  | done => exact h
  | text s rest ih => exact ih h
  | interpolation inner rest ihi ihr =>
    intro hnil
    obtain ⟨hi, hr⟩ := List.append_eq_nil_iff.1 hnil
    have hinner : inner.references = [] := by_contra fun hne => ihi hne hi
    have hrest : rest.references = [] := by_contra fun hne => ihr hne hr
    exact h (by rw [references, hinner, hrest, List.append_nil])
  | reference r rest ih => exact List.cons_ne_nil _ _
  | guarded r fallback rest ihf ihr => exact List.cons_ne_nil _ _

theorem mem_references_of_mem_direct {v : Value} {r : Reference} (h : r ∈ v.direct) : r ∈ v.references := by
  induction v with
  | done => exact h
  | text s rest ih => exact ih h
  | interpolation inner rest ihi ihr => exact List.mem_append.2 ((List.mem_append.1 h).imp ihi ihr)
  | reference q rest ih => exact List.mem_cons.2 ((List.mem_cons.1 h).imp_right ih)
  | guarded q fallback rest ihf ihr =>
    rcases List.mem_cons.1 h with rfl | h
    · exact List.mem_cons_self
    · exact List.mem_cons_of_mem _ (List.mem_append_right _ (ihr h))

end Value

namespace Surroundings

variable {s : Surroundings} {t : Table} {value : Value} {e : Expansion}

/-! ## Imported variables -/

/-- What has a text keeps one in another file. -/
theorem imported_ne_empty {v : Variable} {x : String} (h : s.imported v = .ok x) (hv : v.resolved ≠ "") : x ≠ "" := by
  unfold imported at h
  split at h
  · exact Value.rewriteResources_ne_empty (mapError_ok.1 h) hv
  · cases h
    exact hv

/-- The value refers to imported variables alone, each of which has a text. -/
def Imports (s : Surroundings) (t : Table) (value : Value) : Prop :=
  ∀ r ∈ value.references, r.name.isEmpty = false ∧ t.get? (s.target r) = .none ∧
    ∃ w, Table.findLast? s.externals (s.target r) = .some w ∧ w.resolved ≠ ""

/-- The variable is one that the value refers to, or one that such a variable
depends on. -/
def Inherits (s : Surroundings) (value : Value) (d : Ident) : Prop :=
  ∃ r ∈ value.direct, ∃ w, Table.findLast? s.externals (s.target r) = .some w ∧ (d = s.target r ∨ d ∈ w.dependencies)

theorem mem_append {a b : Expansion} {d : Ident} : d ∈ (a.append b).2 ↔ d ∈ a.2 ∨ d ∈ b.2 := OrderedSet.mem_union

/-- A value that refers to imported variables depends on what it inherits: an
induction on the expansion, in which every direct reference is found. -/
theorem Expands.inherits (h : s.Expands t value e) (hvalue : s.Imports t value) (d : Ident) :
    d ∈ e.2 ↔ s.Inherits value d := by
  induction h with
  | done => simp [Expansion.empty, Inherits, Value.direct]
  | @text x rest e _ ih =>
    rw [mem_append, ih hvalue]
    simp [Inherits, Value.direct]
  | @interpolation inner rest a b _ _ iha ihb =>
    obtain ⟨hinner, hrest⟩ := List.forall_mem_append.1 hvalue
    rw [mem_append, iha hinner, ihb hrest]
    simp only [Inherits, Value.direct, List.mem_append, or_and_right, exists_or]
  | reference _ ih => exact ih hvalue
  | blank hr =>
    have hname := (List.forall_mem_cons.1 hvalue).1.1
    rw [hr] at hname
    cases hname
  | record hr hv => exact nomatch hv.symm.trans (List.forall_mem_cons.1 hvalue).1.2.1
  | @external r fallback rest v x b hr hv hx hi _ ihb =>
    obtain ⟨⟨-, -, w, hw, htext⟩, hothers⟩ := List.forall_mem_cons.1 hvalue
    cases hx.symm.trans hw
    rw [mem_append, if_neg (imported_ne_empty hi htext), OrderedSet.mem_insert, ihb (List.forall_mem_append.1 hothers).2]
    simp [Inherits, Value.direct, hx]
  | fallback hr hv hx =>
    obtain ⟨w, hw, -⟩ := (List.forall_mem_cons.1 hvalue).1.2.2
    exact nomatch hx.symm.trans hw

/-! ## A run -/

/-- A state on the way from `t` in which the resolved variables that refer to
imported ones depend on what they inherit, themselves aside. -/
structure Inherited (s : Surroundings) (t : Table) (p : Progress) : Prop where
  idents : p.table.idents = t.idents
  memo : s.Faithful p.memo
  dependencies : ∀ i v value, p.table.get? i = .some v → v.parsed = true → s.reading v.raw = .ok value →
    s.Imports t value → ∀ d, d ∈ v.dependencies ↔ d ≠ i ∧ s.Inherits value d

theorem Imports.congr {u : Table} (h : s.Imports t value) (hu : u.idents = t.idents) : s.Imports u value := by
  intro r hr
  obtain ⟨hname, hlocal, hw⟩ := h r hr
  refine ⟨hname, ?_, hw⟩
  rw [← Table.contains_eq_false, ← Bool.not_eq_true, Table.contains_iff, ← Table.mem_idents] at hlocal ⊢
  rwa [hu]

theorem invariant_inherited (t : Table) : s.Invariant (s.Inherited t) := by
  have hmemo : s.KeptByMemo (s.Inherited t) := fun p ident v x memo hp hv hx =>
    ⟨hp.idents, ((relocate_faithful hp.memo hv).1 x memo hx).2, hp.dependencies⟩
  refine ⟨hmemo, fun settle v p hsettle hp hv _ => ?_⟩
  -- what the value refers to is not in the table, so that `settle` has no say in what it expands to
  have hexpands : Ends (s.expandText settle v.raw) p
      (fun e _ => ∀ value, s.reading v.raw = .ok value → s.Imports t value → s.Expands p.table value e)
      fun _ => True := by
    by_cases h : ∃ value, s.reading v.raw = .ok value ∧ s.Imports t value
    · obtain ⟨value, hvalue, himports⟩ := h
      have hfits : s.Fits p.table (fun _ => False) p :=
        ⟨List.forall₂_same.2 fun _ _ => .inl rfl, fun _ _ h => h.elim, hp.memo⟩
      refine (expandText_ends hfits fun value' hvalue' r hr _ w q hw _ => ?_).mono (fun e q hq value' hvalue' _ => ?_)
        fun _ _ => trivial
      · cases hvalue.symm.trans hvalue'
        exact nomatch hw.symm.trans (himports.congr hp.idents r hr).2.1
      · obtain ⟨-, value'', hvalue'', he⟩ := hq
        cases hvalue'.symm.trans hvalue''
        exact he
    · exact ends_trivial fun e q value hvalue himports => absurd ⟨value, hvalue, himports⟩ h
  refine ((preserves_expandText hmemo hsettle v.raw p hp).and hexpands).mono (fun e q h urls _ => ?_) fun _ _ => trivial
  obtain ⟨hq, he⟩ := h
  have hlocal : v.ident ∈ q.table.idents := by
    rw [hq.idents, ← hp.idents]
    exact Table.mem_idents.2 ⟨v, hv⟩
  refine ⟨(Table.idents_insert (v := v.finished e urls) hlocal).trans hq.idents, hq.memo,
    fun i w value hw hparsed hvalue himports d => ?_⟩
  rw [Table.get?_insert] at hw
  split at hw
  · rename_i hi
    cases hw
    cases hi
    have hexpands := he value hvalue himports
    rw [← hexpands.inherits (himports.congr hp.idents)]
    exact OrderedSet.mem_remove
  · exact hq.dependencies i w value hw hparsed hvalue himports d

end Surroundings

namespace Pass

open Surroundings (Imports Inherits target reading)

variable {context : PassContext} {sheet : Sheet} {file : Option Path} {p : Pass} {v : Variable} {value : Value}

/-- A variable of the file that refers to imported variables depends on what it
inherits, itself aside. -/
theorem mem_dependencies (hp : (scan context sheet file).resolve context = .ok p)
    (hv : p.table.get? v.ident = .some v) (hvalue : (surroundings context file).reading v.raw = .ok value)
    (himports : (surroundings context file).Imports (scan context sheet file).table value) (d : Ident) :
    d ∈ v.dependencies ↔ d ≠ v.ident ∧ (surroundings context file).Inherits value d := by
  let s := surroundings context file
  let t := (scan context sheet file).table
  obtain ⟨-, -, hends⟩ := resolve_ok hp
  have hstart : s.Inherited t ⟨t, {}⟩ := by
    refine ⟨rfl, s.faithful_empty, fun i w value hw hparsed => ?_⟩
    obtain ⟨_, -, rfl⟩ := Sheet.mem_scan (Table.mem_of_get? hw)
    cases hparsed
  have hinherited : s.Inherited t ⟨p.table, p.memo⟩ := hends ((Surroundings.invariant_inherited t).resolveTable _ hstart)
  have hparsed : v.parsed = true := hends (Surroundings.resolveTable_parsed _) _ v hv
  exact hinherited.dependencies v.ident v value hv hparsed hvalue himports d

/-- A variable of the file that refers to imported variables alone, none of them
declared in the file and none without a text, is a reference variable exactly
if all that these depend on, but for the variable itself, is the theme's still
or a reference variable in turn. -/
theorem mem_reference_iff (htheme : context.theme = .merged context.imports)
    (hp : (scan context sheet file).resolve context = .ok p) (hv : v ∈ p.table.records) (hvalue : (surroundings context file).reading v.raw = .ok value)
    (hreferences : value.references ≠ [])
    (himports : (surroundings context file).Imports (scan context sheet file).table value) :
    v.ident ∈ (p.classify context).reference ↔
      ∀ r ∈ value.direct, ∀ w, context.theme.get? ((surroundings context file).target r) = .some w →
        ∀ d ∈ w.dependencies, d ≠ v.ident →
          (p.emitter context).classifier.isTheme d = true ∨ d ∈ (p.classify context).reference := by
  let s := surroundings context file
  let c := (p.emitter context).classifier
  have hidents : p.table.idents = (scan context sheet file).table.idents := by
    rw [← Table.idents_undone, (resolve_undone hp).1, Table.idents_undone]
  have hget : p.table.get? v.ident = .some v := Table.get?_of_mem hv
  have hdependencies := mem_dependencies hp hget hvalue himports
  have hfind (i : Ident) : context.theme.get? i = Table.findLast? s.externals i := by
    rw [htheme]
    exact Table.get?_merged _ i
  have htarget : ∀ r ∈ value.direct, c.isTheme (s.target r) = true ∧ s.target r ≠ v.ident := by
    intro r hr
    obtain ⟨-, hlocal, w, hw, -⟩ := himports.congr hidents r (Value.mem_references_of_mem_direct hr)
    refine ⟨?_, fun he => ?_⟩
    · have hcontains : context.theme.contains (s.target r) = true := Table.contains_iff.2 ⟨w, (hfind _).trans hw⟩
      rw [Classifier.isTheme, show c.context = p.table from rfl, Table.contains_eq_false.2 hlocal]
      exact hcontains
    · rw [he, hget] at hlocal
      cases hlocal
  rw [show p.classify context = c.classify from rfl, Classifier.mem_reference, Classifier.mem_follows]
  constructor
  · intro h r hr w hw d hd hne
    obtain ⟨v', hv', -, hall⟩ := h
    cases hget.symm.trans hv'
    have hdepends : d ∈ v.dependencies := (hdependencies d).2 ⟨hne, r, hr, w, (hfind _).symm.trans hw, .inr hd⟩
    exact (hall d hdepends).imp_right Classifier.mem_reference.2
  · intro h
    refine ⟨v, hget, fun hnil => ?_, fun d hd => ?_⟩
    · obtain ⟨r, hr⟩ := List.exists_mem_of_ne_nil _ (Value.direct_ne_nil hreferences)
      obtain ⟨-, -, w, hw, -⟩ := himports r (Value.mem_references_of_mem_direct hr)
      have hdepends : s.target r ∈ v.dependencies := (hdependencies _).2 ⟨(htarget r hr).2, r, hr, w, hw, .inl rfl⟩
      rw [hnil] at hdepends
      cases hdepends
    · obtain ⟨hne, r, hr, w, hw, rfl | hd⟩ := (hdependencies d).1 hd
      · exact .inl (htarget r hr).1
      · exact (h r hr w ((hfind _).trans hw) d hd hne).imp_right Classifier.mem_reference.1

/-- A variable that depends on another. -/
def primary : Variable :=
  { ident := .ofName .debug "$primary", name := "$primary", raw := "$base", resolved := "red",
    dependencies := [.ofName .debug "$base"], parsed := true }

/-- A theme file with both. -/
def layered : Table :=
  .ofList [
    { ident := .ofName .debug "$base", name := "$base", raw := "red", resolved := "red", parsed := true }, primary]

def layering : PassContext := ⟨{}, .scss, [layered], .merged [layered]⟩

/-- The second variable refers to a variable of the theme; the first has the name
of what that one depends on, and this value. -/
def shadowing (value : String) : Pass :=
  scan layering { nodes := [.declaration "$base" value {} true, .declaration "$link" "$primary" {} true] } .none

/-- What the second variable is read as. -/
def toPrimary : Value := .reference ⟨"$primary", "$primary", .sigil⟩ .done

theorem reading_toPrimary : (surroundings layering .none).reading "$primary" = .ok toPrimary := by
  decide +kernel

theorem imports_toPrimary {t : Table} (h : t.get? (.ofName .debug "$primary") = .none) :
    (surroundings layering .none).Imports t toPrimary := by
  intro r hr
  cases List.mem_singleton.1 hr
  refine ⟨by decide +kernel, h, primary, by decide +kernel, by decide +kernel⟩

/-- The second variable, resolved. -/
def linked : Variable :=
  { ident := .ofName .debug "$link", name := "$link", raw := "$primary", resolved := "red",
    dependencies := [.ofName .debug "$base", .ofName .debug "$primary"], parsed := true, position := 1 }

/-- Where the first variable follows the theme, so does the second. -/
theorem mem_reference_iff_shadowing : ∃ p, (shadowing "$primary").resolve layering = .ok p ∧
    linked ∈ p.table.records ∧ (surroundings layering .none).reading linked.raw = .ok toPrimary ∧
    toPrimary.references ≠ [] ∧ (surroundings layering .none).Imports (shadowing "$primary").table toPrimary ∧
    (p.emitter layering).classifier.isTheme (.ofName .debug "$base") = false ∧
    linked.ident ∈ (p.classify layering).reference := by
  have hrun : ((shadowing "$primary").resolve layering).toOption.map (·.table) =
      .some (.ofList [
        { ident := .ofName .debug "$base", name := "$base", raw := "$primary", resolved := "red",
          dependencies := [.ofName .debug "$primary"], parsed := true, position := 0 }, linked]) := by
    decide +kernel
  obtain ⟨p, hp, htable⟩ := ok_of_toOption hrun
  have hlinked : linked ∈ p.table.records := by
    rw [htable]
    decide +kernel
  have himports : (surroundings layering .none).Imports (shadowing "$primary").table toPrimary :=
    imports_toPrimary (by decide +kernel)
  have hbase : .ofName .debug "$base" ∈ (p.classify layering).reference := by
    rw [classify, htable]
    decide +kernel
  have hlocal : (p.emitter layering).classifier.isTheme (.ofName .debug "$base") = false := by
    change (Classifier.mk p.table layering.theme layering.settings.onlyColor).isTheme _ = false
    rw [htable]
    decide +kernel
  refine ⟨p, hp, hlinked, reading_toPrimary, List.cons_ne_nil _ _, himports, hlocal, ?_⟩
  refine (mem_reference_iff rfl hp hlinked reading_toPrimary (List.cons_ne_nil _ _) himports).2 ?_
  intro r hr w hw d hd _
  cases List.mem_singleton.1 hr
  have hprimary : layering.theme.get? ((surroundings layering .none).target ⟨"$primary", "$primary", .sigil⟩) =
      .some primary := by decide +kernel
  cases hprimary.symm.trans hw
  cases List.mem_singleton.1 hd
  exact .inr hbase

/-- Where the first does not, the second is a context variable, though the theme
declares what it refers to. -/
theorem not_mem_reference_shadowing : ∃ p, (shadowing "blue").resolve layering = .ok p ∧
    linked ∈ p.table.records ∧ (surroundings layering .none).reading linked.raw = .ok toPrimary ∧
    toPrimary.references ≠ [] ∧ (surroundings layering .none).Imports (shadowing "blue").table toPrimary ∧
    linked.ident ∉ (p.classify layering).reference := by
  have hrun : ((shadowing "blue").resolve layering).toOption.map (·.table) =
      .some (.ofList [
        { ident := .ofName .debug "$base", name := "$base", raw := "blue", resolved := "blue", parsed := true,
          position := 0 }, linked]) := by
    decide +kernel
  obtain ⟨p, hp, htable⟩ := ok_of_toOption hrun
  have hlinked : linked ∈ p.table.records := by
    rw [htable]
    decide +kernel
  refine ⟨p, hp, hlinked, reading_toPrimary, List.cons_ne_nil _ _, imports_toPrimary (by decide +kernel), ?_⟩
  rw [classify, htable]
  decide +kernel

end Pass

end ThemeVars
