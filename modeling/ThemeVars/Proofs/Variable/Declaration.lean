/-
What resolution leaves of a variable as it was declared. `resolve_undone`: in
the order of the table, every record keeps its ident, name, value as written,
scope, source and position. `resolveTable_parsed`: every record is resolved.
-/
import ThemeVars.Emission
import ThemeVars.Proofs.Variable.Invariant

namespace ThemeVars

/-- The variable as it is declared, nothing of it resolved. -/
def Variable.undone (v : Variable) : Variable :=
  { v with resolved := "", dependencies := [], urls := .none, parsed := false }

namespace Table

theorem map_undone (vs : List Variable) : (vs.map Variable.undone).map (·.ident) = vs.map (·.ident) := List.map_map

def undone (t : Table) : Table :=
  ⟨.ofEntries (t.records.map Variable.undone) ((map_undone t.records).symm ▸ t.nodup_idents)⟩

theorem idents_undone (t : Table) : t.undone.idents = t.idents := map_undone t.records

theorem get?_undone (t : Table) (ident : Ident) : t.undone.get? ident = (t.get? ident).map Variable.undone := by
  rw [get?_eq, get?_eq]
  exact List.find?_map

theorem undone_insert {t : Table} {v w : Variable} (h : t.get? w.ident = .some v) (hw : w.undone = v.undone) :
    (t.insert w).undone = t.undone := by
  refine ext_records ?_
  change (t.insert w).records.map Variable.undone = t.records.map Variable.undone
  rw [get?_eq] at h
  rw [records_insert]
  generalize t.records = vs at h ⊢
  induction vs with
  | nil => cases h
  | cons x xs ih =>
    rw [List.find?_cons] at h
    rw [Keyed.put]
    split at h
    · rename_i hx
      cases h
      rw [if_pos hx, List.map_cons, List.map_cons, hw]
    · rename_i hx
      rw [if_neg (by simpa using hx), List.map_cons, List.map_cons, ih h]

end Table

namespace Surroundings

variable {s : Surroundings}

/-- Resolution leaves every variable as it is declared. The record that is
resolved may be another by the time that it is put back, but is declared as it
was. -/
theorem invariant_undone (t : Table) : s.Invariant fun p => p.table.undone = t.undone where
  memo _ _ _ _ _ hp _ _ := hp
  record settle v p hsettle hp hv _ := by
    refine (preserves_expandText (fun _ _ _ _ _ hp _ _ => hp) hsettle v.raw p hp).mono (fun e q hq urls _ => ?_)
      fun _ _ => trivial
    have hv' : q.table.undone.get? v.ident = .some v.undone := by rw [hq, ← hp, Table.get?_undone, hv, Option.map_some]
    rw [Table.get?_undone, Option.map_eq_some_iff] at hv'
    obtain ⟨w, hw, hwv⟩ := hv'
    refine (Table.undone_insert (w := v.finished e urls) hw ?_).trans hq
    rw [hwv]
    rfl

theorem resolveTable_undone (p : Progress) :
    Ends s.resolveTable p (fun _ q => q.table.undone = p.table.undone) fun _ => True :=
  (invariant_undone p.table).resolveTable p rfl

/-- A run that succeeds leaves every variable resolved. -/
theorem resolveTable_parsed (p : Progress) :
    Ends s.resolveTable p (fun _ q => ∀ i v, q.table.get? i = .some v → v.parsed = true) fun _ => True := by
  refine ((parsed_resolveAll p.table.idents p.table.idents p).and (resolveTable_undone p)).mono ?_ fun _ _ => trivial
  intro _ q hq i v hv
  have hidents : q.table.idents = p.table.idents := by rw [← Table.idents_undone, hq.2, Table.idents_undone]
  exact hq.1 i (hidents ▸ Table.mem_idents.2 ⟨v, hv⟩) v hv

end Surroundings

/-- What a file is after it has been resolved. -/
theorem Pass.resolve_ok {context : PassContext} {p q : Pass} (h : p.resolve context = .ok q) :
    q.sheet = p.sheet ∧ q.file = p.file ∧
      ∀ {done : Unit → Progress → Prop},
        Ends (⟨context.dialect, context.settings.identMode, context.imports, p.file⟩ : Surroundings).resolveTable
          ⟨p.table, p.memo⟩ done (fun _ => True) → done () ⟨q.table, q.memo⟩ := by
  let s : Surroundings := ⟨context.dialect, context.settings.identMode, context.imports, p.file⟩
  rcases hrun : (s.resolveTable.run.run ⟨p.table, p.memo⟩ : Except Error Unit × Progress) with ⟨_ | _, progress⟩
  · have hrun' : s.resolveTable.run ⟨p.table, p.memo⟩ = (.error _, progress) := hrun
    simp only [resolve, s, hrun'] at h
    cases h
  · have hrun' : s.resolveTable.run ⟨p.table, p.memo⟩ = (.ok _, progress) := hrun
    simp only [resolve, s, hrun'] at h
    cases h
    refine ⟨rfl, rfl, fun hends => ?_⟩
    unfold Ends at hends
    rwa [hrun] at hends

/-- A file that has been resolved has the sheet that it had, and its variables
as they are declared. -/
theorem Pass.resolve_undone {context : PassContext} {p q : Pass} (h : p.resolve context = .ok q) :
    q.table.undone = p.table.undone ∧ q.sheet = p.sheet ∧ q.file = p.file := by
  obtain ⟨hsheet, hfile, hends⟩ := resolve_ok h
  exact ⟨hends (Surroundings.resolveTable_undone _), hsheet, hfile⟩

end ThemeVars
