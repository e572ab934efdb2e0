/-
Tables of variables. `get?_insert`: what a table holds after an insertion.
`get?_perm`: since idents are distinct, the order of the records does not say
what a table holds. `get?_merged`: later tables override earlier ones.
`run_ordered`: after any insertions, updates and merges there is one variable for
each ident, in the order in which the idents came first, and it is what was
written last; the index has its place.
-/
import Mathlib.Data.List.Forall2
import ThemeVars.Proofs.Keyed
import ThemeVars.Variable.Table

namespace ThemeVars.Table

/-! ## What a table holds -/

theorem ext_records {t u : Table} (h : t.records = u.records) : t = u := congrArg mk (Keyed.ext_entries h)

theorem get?_eq (t : Table) (ident : Ident) : t.get? ident = t.records.find? (·.ident == ident) :=
  (Keyed.find?_eq t.toKeyed ident).symm

theorem nodup_idents (t : Table) : t.idents.Nodup := t.distinct

theorem ident_of_get? {t : Table} {ident : Ident} {v : Variable} (h : t.get? ident = .some v) : v.ident = ident := by
  rw [get?_eq] at h
  simpa using List.find?_some h

theorem mem_of_get? {t : Table} {ident : Ident} {v : Variable} (h : t.get? ident = .some v) : v ∈ t.records :=
  List.mem_of_find?_eq_some ((get?_eq t ident).symm.trans h)

theorem contains_iff {t : Table} {ident : Ident} : t.contains ident = true ↔ ∃ v, t.get? ident = .some v := by
  rw [contains, get?]
  cases h : t.slot? ident with
  | none => simp
  | some slot =>
    obtain ⟨v, hv, -⟩ := Keyed.key_of_lookup h
    exact ⟨fun _ => ⟨v, hv⟩, fun _ => rfl⟩

theorem contains_eq_false {t : Table} {ident : Ident} : t.contains ident = false ↔ t.get? ident = .none := by
  rw [← Bool.not_eq_true, contains_iff, ← Option.isSome_iff_exists, Option.not_isSome_iff_eq_none]

theorem mem_idents {t : Table} {ident : Ident} : ident ∈ t.idents ↔ ∃ v, t.get? ident = .some v := by
  simp [idents, get?_eq, ← Option.isSome_iff_exists, List.find?_isSome]

theorem get?_of_mem {t : Table} {v : Variable} (h : v ∈ t.records) : t.get? v.ident = .some v :=
  (get?_eq t v.ident).trans (Keyed.find?_of_mem t.nodup_idents h)

/-- A table holds what it holds in any order. -/
theorem get?_perm {t u : Table} (h : t.records.Perm u.records) (ident : Ident) :
    t.get? ident = u.get? ident := by
  rw [get?_eq, get?_eq]
  exact Keyed.find?_perm t.nodup_idents h ident

/-! ## Insertion -/

theorem records_insert (t : Table) (v : Variable) : (t.insert v).records = Keyed.put Variable.ident v t.records :=
  Keyed.entries_push t.toKeyed v

theorem get?_insert (t : Table) (v : Variable) (ident : Ident) :
    (t.insert v).get? ident = if v.ident = ident then .some v else t.get? ident := by
  rw [get?_eq, get?_eq, records_insert, Keyed.find?_put]
  simp only [beq_iff_eq]

theorem idents_insert {t : Table} {v : Variable} (h : v.ident ∈ t.idents) : (t.insert v).idents = t.idents := by
  rw [idents, records_insert]
  exact (Keyed.keys_put v t.records).trans (if_pos h)

theorem foldl_insert (vs : List Variable) (t : Table) : vs.foldl insert t = ⟨vs.foldl Keyed.push t.toKeyed⟩ := by
  induction vs generalizing t with
  | nil => rfl
  | cons v vs ih => rw [List.foldl_cons, List.foldl_cons, ih, insert]

theorem get?_foldl (vs : List Variable) (t : Table) (ident : Ident) :
    (vs.foldl insert t).get? ident = (vs.reverse.find? (·.ident == ident)).or (t.get? ident) := by
  rw [get?_eq, get?_eq, foldl_insert]
  exact Keyed.find?_foldl vs t.toKeyed ident

/-- A table made of a list holds members of the list. -/
theorem mem_ofList {vs : List Variable} {v : Variable} (h : v ∈ (ofList vs).records) : v ∈ vs := by
  have hget := get?_of_mem h
  rw [ofList, get?_foldl] at hget
  exact List.mem_reverse.1 (List.mem_of_find?_eq_some (hget.symm ▸ (Option.or_none).symm))

/-! ## Idents that are waiting -/

/-- An induction on how many idents are waiting, for a search that takes one out
on its way in. -/
theorem erase_induction {motive : List Ident → Prop}
    (step : ∀ waiting, (∀ i ∈ waiting, motive (waiting.erase i)) → motive waiting) (waiting : List Ident) :
    motive waiting := by
  induction hn : waiting.length using Nat.strongRecOn generalizing waiting with
  | _ n ih =>
    refine step waiting fun i hi => ih _ ?_ _ rfl
    have hpos := List.length_pos_of_mem hi
    rw [List.length_erase_of_mem hi, ← hn]
    omega

/-! ## Merged tables -/

/-- After the records of a table are put in, they are found first. -/
theorem get?_foldl_insert (u t : Table) (ident : Ident) :
    (u.records.foldl insert t).get? ident = (u.get? ident).or (t.get? ident) := by
  rw [get?_foldl, get?_eq u, Keyed.find?_perm u.nodup_idents u.records.reverse_perm.symm]

/-- A merged table holds what is found in the last of the tables that has it. -/
theorem get?_merged (ts : List Table) (ident : Ident) :
    (merged ts).get? ident = findLast? ts ident := by
  have hfold : ∀ all : Table, (ts.foldl (fun all t => t.records.foldl insert all) all).get? ident =
      (findLast? ts ident).or (all.get? ident) := by
    induction ts with
    | nil => exact fun _ => rfl
    | cons t ts ih =>
      intro all
      rw [List.foldl_cons, ih, get?_foldl_insert, ← Option.or_assoc]
      congr 1
      rw [findLast?, findLast?, List.reverse_cons, List.findSome?_append, List.findSome?_singleton]
  exact (hfold {}).trans (Option.or_none)

theorem mem_of_findLast? {ts : List Table} {ident : Ident} {v : Variable} (h : findLast? ts ident = .some v) :
    ∃ t ∈ ts, v ∈ t.records := by
  obtain ⟨t, ht, hv⟩ := List.exists_of_findSome?_eq_some h
  exact ⟨t, List.mem_reverse.1 ht, mem_of_get? hv⟩

/-- Merging is the insertion of all records, one after the other. -/
theorem merged_eq (ts : List Table) : merged ts = ofList (ts.flatMap records) := by
  rw [merged, ofList, List.foldl_flatMap]

/-- Variables can be put into a table first. -/
theorem foldl_ofList (vs : List Variable) (t : Table) : (ofList vs).records.foldl insert t = vs.foldl insert t := by
  rw [ofList, foldl_insert, foldl_insert, foldl_insert]
  exact congrArg mk (Keyed.foldl_entries t.toKeyed vs)

theorem ofList_append (vs ws : List Variable) : ofList (vs ++ ws) = ws.foldl insert (ofList vs) := List.foldl_append

/-- Tables can be merged in groups. -/
theorem merged_append (as bs : List Table) : merged (as ++ bs) = merged [merged as, merged bs] := by
  rw [merged_eq as, merged_eq bs, merged_eq (as ++ bs), List.flatMap_append, ofList_append, merged, List.foldl_cons,
    List.foldl_cons, List.foldl_nil, foldl_ofList, foldl_ofList]
  rfl

/-! ## Sequences of operations -/

/-- What is done to a table. -/
inductive Operation where
  | insert (v : Variable)
  | update (ident : Ident) (change : Variable → Variable)
  /-- It is merged, with tables before and after it. -/
  | merge (before after : List Table)

def perform (t : Table) : Operation → Table
  | .insert v => t.insert v
  | .update ident change => t.update ident change
  | .merge before after => merged (before ++ t :: after)

/-- The table after one thing after the other is done to an empty one. -/
def run (operations : List Operation) : Table := operations.foldl perform {}

/-- What is written after `vs` was. An update writes what was written last, as
it changes it. -/
def Operation.writesAfter (vs : List Variable) : Operation → List Variable
  | .insert v => vs ++ [v]
  | .update ident change =>
    vs ++ ((vs.reverse.find? (·.ident == ident)).map fun v => { change v with ident }).toList
  | .merge before after => before.flatMap records ++ vs ++ after.flatMap records

/-- All that is written, in its order. -/
def writes (operations : List Operation) : List Variable := operations.foldl Operation.writesAfter []

/-- Each operation does to a table what it does to what was written. -/
theorem perform_ofList (vs : List Variable) (o : Operation) : (ofList vs).perform o = ofList (o.writesAfter vs) := by
  cases o with
  | insert v => rw [perform, Operation.writesAfter, ofList_append, List.foldl_cons, List.foldl_nil]
  | update ident change =>
    have hget : (ofList vs).get? ident = vs.reverse.find? (·.ident == ident) :=
      (get?_foldl vs {} ident).trans (Option.or_none)
    rw [perform, update, hget, Operation.writesAfter]
    cases vs.reverse.find? (·.ident == ident) with
    | none => rw [Option.map_none, Option.toList_none, List.append_nil]
    | some v => rw [Option.map_some, Option.toList_some, ofList_append, List.foldl_cons, List.foldl_nil]
  | merge before after =>
    rw [perform, merged_eq, Operation.writesAfter, List.flatMap_append, List.flatMap_cons, ← List.append_assoc,
      ofList_append, ofList_append, foldl_ofList, ofList_append, ofList_append]

theorem run_eq (operations : List Operation) : run operations = ofList (writes operations) := by
  have hfrom (vs : List Variable) :
      operations.foldl perform (ofList vs) = ofList (operations.foldl Operation.writesAfter vs) := by
    induction operations generalizing vs with
    | nil => rfl
    | cons o operations ih => rw [List.foldl_cons, List.foldl_cons, perform_ofList, ih]
  exact hfrom []

/-- After any operations, each ident has one place in a table, in the order in
which the idents came first, and the index tells it; there stands what was
written last. Tables can be merged in groups. -/
theorem run_ordered (operations : List Operation) :
    (run operations).idents.Nodup ∧
      (run operations).idents = ((writes operations).map (·.ident)).eraseDups ∧
      (∀ ident slot, (run operations).slot? ident = .some slot ↔
        ((run operations).records[slot]?).map (·.ident) = .some ident) ∧
      (∀ ident, (run operations).get? ident = (writes operations).reverse.find? (·.ident == ident)) ∧
      ∀ as bs : List Table, merged (as ++ bs) = merged [merged as, merged bs] := by
  refine ⟨nodup_idents _, ?_, fun _ _ => Keyed.lookup_iff, fun ident => ?_, merged_append⟩
  · rw [run_eq, ofList, foldl_insert]
    exact Keyed.keys_foldl _
  · rw [run_eq, ofList, get?_foldl]
    exact Option.or_none

/-! ## Tables record by record -/

section

variable {R : Variable → Variable → Prop} {t u : Table}

/-- Tables whose records are related one by one hold related variables. -/
theorem get?_forall₂ (hR : ∀ v w, R v w → w.ident = v.ident) (h : List.Forall₂ R t.records u.records) (ident : Ident) :
    Option.Rel R (t.get? ident) (u.get? ident) := by
  rw [get?_eq, get?_eq]
  generalize t.records = vs, u.records = ws at h
  induction h with
  | nil => exact .none
  | @cons v w vs ws hvw _ ih =>
    rw [List.find?_cons, List.find?_cons, hR v w hvw]
    split
    · exact .some hvw
    · exact ih

theorem map_ident_forall₂ (hR : ∀ v w, R v w → w.ident = v.ident) {vs ws : List Variable} (h : List.Forall₂ R vs ws) :
    ws.map (·.ident) = vs.map (·.ident) := by
  induction h with
  | nil => rfl
  | cons hvw _ ih => exact congrArg₂ List.cons (hR _ _ hvw) ih

theorem idents_forall₂ (hR : ∀ v w, R v w → w.ident = v.ident) (h : List.Forall₂ R t.records u.records) :
    u.idents = t.idents := map_ident_forall₂ hR h

/-- An insertion in place of a variable relates the new one to its partner. -/
theorem forall₂_insert (hR : ∀ v w, R v w → w.ident = v.ident) (h : List.Forall₂ R t.records u.records)
    {v w : Variable} (hv : t.get? v.ident = .some v) (hw : R v w) :
    List.Forall₂ R t.records (u.insert w).records := by
  rw [get?_eq] at hv
  rw [records_insert]
  generalize t.records = vs, u.records = ws at h hv
  induction h with
  | nil => cases hv
  | @cons v' w' vs ws hvw hs ih =>
    rw [List.find?_cons] at hv
    simp only [Keyed.put, hR v' w' hvw, hR v w hw]
    split at hv
    · rename_i he
      rw [if_pos he, Option.some.inj hv]
      exact .cons hw hs
    · rename_i he
      rw [if_neg (by simpa using he)]
      exact .cons hvw (ih hv)

end

end ThemeVars.Table
