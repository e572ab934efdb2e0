/-
How deep resolution nests. `resolveNested` goes by the variables that are under
way and by nothing that has to get smaller; what nests too deep is left to
`beyond`. `resolveTableNested_eq`: on every table, nothing nests deeper than
there are variables, so that `beyond` is never asked.
-/
import Mathlib.Data.List.Nodup
import ThemeVars.Proofs.Outcome
import ThemeVars.Proofs.Variable.Table
import ThemeVars.Variable.Resolution

namespace ThemeVars.Surroundings

/-- Resolves a local variable; `settle` resolves the ones that it refers to. -/
def resolveWith (s : Surroundings) (settle : Ident → Resolving Bool) (ident : Ident) : Resolving Unit := do
  match (← get).table.get? ident with
  | .none => return
  | .some v =>
    if v.parsed then return
    let (resolved, dependencies) ← s.expandText settle v.raw
    let urls ← (RelativeUrls.ofValue resolved v.source : Except Error (Option RelativeUrls))
    let v := { v with resolved, dependencies := OrderedSet.remove ident dependencies, urls, parsed := true }
    modify fun progress => { progress with table := progress.table.insert v }

/-- Resolves a local variable, the ones in `visiting` being under way, with at
most `depth` calls in it, one inside the other. -/
def resolveNested (s : Surroundings) (beyond : Ident → Resolving Bool) : Nat → List Ident → Ident → Resolving Unit
  | 0, visiting, ident => s.resolveWith (fun next => if next ∈ visiting then return false else beyond next) ident
  | depth + 1, visiting, ident =>
    s.resolveWith (fun next =>
      if next ∈ visiting then return false
      else do
        s.resolveNested beyond depth (next :: visiting) next
        return true) ident

def resolveAllNested (s : Surroundings) (beyond : Ident → Resolving Bool) (depth : Nat) : List Ident → Resolving Unit
  | [] => return
  | ident :: rest => do
    s.resolveNested beyond depth [ident] ident
    s.resolveAllNested beyond depth rest

/-- Resolves every variable of the table, one after the other. -/
def resolveTableNested (s : Surroundings) (beyond : Ident → Resolving Bool) (depth : Nat) : Resolving Unit := do
  let locals := (← get).table.idents
  s.resolveAllNested beyond depth locals

variable {s : Surroundings} {L : List Ident} {α β : Type}

theorem resolve_eq (waiting : List Ident) (ident : Ident) :
    s.resolve waiting ident =
      s.resolveWith (fun next =>
        if next ∈ waiting then do
          s.resolve (waiting.erase next) next
          return true
        else return false) ident := by
  rw [resolve]
  rfl

/-! ## Computations that agree -/

/-- On tables with these idents, the computations do the same, and the idents
stay. -/
def Agree (L : List Ident) (x y : Resolving α) : Prop :=
  ∀ p : Progress, p.table.idents = L →
    (x.run.run p : Except Error α × Progress) = y.run.run p ∧ (x.run.run p : Except Error α × Progress).2.table.idents = L

theorem agree_pure (a : α) : Agree L (pure a) (pure a) := fun _ hp => ⟨rfl, hp⟩

theorem agree_lift (x : Except Error α) : Agree L (liftM x : Resolving α) (liftM x) := by
  intro p hp
  cases x <;> exact ⟨rfl, hp⟩

theorem Agree.bind {x y : Resolving α} {f g : α → Resolving β} (h : Agree L x y) (hf : ∀ a, Agree L (f a) (g a)) :
    Agree L (x >>= f) (y >>= g) := by
  intro p hp
  obtain ⟨hxy, hidents⟩ := h p hp
  rw [run_bind, run_bind, ← hxy]
  rcases hx : (x.run.run p : Except Error α × Progress) with ⟨e | a, q⟩
  · rw [hx] at hidents
    exact ⟨rfl, hidents⟩
  · rw [hx] at hidents
    exact hf a q hidents

theorem Agree.get {f g : Progress → Resolving α} (hf : ∀ p : Progress, p.table.idents = L → Agree L (f p) (g p)) :
    Agree L (get >>= f) (get >>= g) := fun p hp => hf p hp p hp

/-! ## Every step of a resolution -/

theorem agree_external? (ident : Ident) : Agree L (s.external? ident) (s.external? ident) := by
  unfold external?
  cases Table.findLast? s.externals ident with
  | none => exact agree_pure _
  | some v =>
    refine .get fun p hp => ?_
    rcases p.memo.relocate v s.file with e | ⟨x, memo⟩
    · exact fun _ hq => ⟨rfl, hq⟩
    · exact fun _ _ => ⟨rfl, hp⟩

theorem contains_idents {p : Progress} (hp : p.table.idents = L) {i : Ident} (h : p.table.contains i = true) : i ∈ L := by
  rw [← hp]
  exact Table.mem_idents.2 (Table.contains_iff.1 h)

variable {settle settle' : Ident → Resolving Bool} (h : ∀ next ∈ L, Agree L (settle next) (settle' next))
include h

theorem agree_find? (r : Reference) : Agree L (s.find? settle r) (s.find? settle' r) := by
  unfold find?
  split
  · exact agree_pure _
  · refine .get fun p hp => ?_
    split
    · rename_i hc
      refine (h _ (contains_idents hp hc)).bind fun b => ?_
      cases b with
      | false => exact agree_pure _
      | true =>
        refine .get fun q _ => ?_
        split
        · exact agree_pure _
        · exact agree_pure _
    · exact agree_external? _

theorem agree_expand (value : Value) : Agree L (value.expand (s.find? settle)) (value.expand (s.find? settle')) := by
  induction value with
  | done => exact agree_pure _
  | text x rest ih => exact ih.bind fun _ => agree_pure _
  | interpolation inner rest ihi ihr => exact ihi.bind fun _ => ihr.bind fun _ => agree_pure _
  | reference r rest ih => exact (agree_find? h r).bind fun _ => ih.bind fun _ => agree_pure _
  | guarded r fallback rest ihf ihr =>
    refine (agree_find? h r).bind fun found => ?_
    cases found with
    | some e => exact ihr.bind fun _ => agree_pure _
    | none => exact ihf.bind fun _ => ihr.bind fun _ => agree_pure _

theorem agree_resolveWith (ident : Ident) : Agree L (s.resolveWith settle ident) (s.resolveWith settle' ident) := by
  unfold resolveWith
  refine .get fun p hp => ?_
  split
  · exact agree_pure _
  · rename_i v hv
    split
    · exact agree_pure _
    · refine ((agree_lift _).bind fun value => agree_expand h value).bind fun e => (agree_lift _).bind fun urls => ?_
      intro q hq
      refine ⟨rfl, ?_⟩
      have hlocal : v.ident ∈ q.table.idents := by
        rw [Table.ident_of_get? hv, hq, ← hp]
        exact Table.mem_idents.2 ⟨v, hv⟩
      have hsame := Table.idents_insert
        (v := { v with resolved := e.1, dependencies := OrderedSet.remove ident e.2, urls, parsed := true }) hlocal
      exact hsame.trans hq

omit h

/-! ## A whole run -/

/-- With as many calls as there are variables that are not under way, `beyond`
is not asked: an induction on that number, each call taking a variable. -/
theorem agree_resolveNested (beyond : Ident → Resolving Bool) {depth : Nat} {visiting waiting : List Ident}
    (hw : waiting.Nodup) (hmem : ∀ j, j ∈ waiting ↔ j ∈ L ∧ j ∉ visiting) (hdepth : waiting.length ≤ depth)
    (ident : Ident) : Agree L (s.resolveNested beyond depth visiting ident) (s.resolve waiting ident) := by
  induction depth generalizing visiting waiting ident with
  | zero =>
    rw [resolve_eq]
    refine agree_resolveWith (fun next hnext => ?_) ident
    have hnil : waiting = [] := List.eq_nil_of_length_eq_zero (Nat.le_zero.1 hdepth)
    subst hnil
    have hv : next ∈ visiting := by
      by_contra hv
      exact List.not_mem_nil ((hmem next).2 ⟨hnext, hv⟩)
    rw [if_pos hv, if_neg List.not_mem_nil]
    exact agree_pure _
  | succ depth ih =>
    rw [resolve_eq]
    refine agree_resolveWith (fun next hnext => ?_) ident
    by_cases hv : next ∈ visiting
    · rw [if_pos hv, if_neg fun h => ((hmem next).1 h).2 hv]
      exact agree_pure _
    · have hwaits : next ∈ waiting := (hmem next).2 ⟨hnext, hv⟩
      rw [if_neg hv, if_pos hwaits]
      refine (ih (hw.erase next) (fun j => ?_) ?_ next).bind fun _ => agree_pure _
      · rw [hw.mem_erase_iff, hmem, List.mem_cons]
        grind
      · rw [List.length_erase_of_mem hwaits]
        omega

theorem agree_resolveAllNested (beyond : Ident → Resolving Bool) {depth : Nat} (hl : L.Nodup) (hdepth : L.length ≤ depth + 1)
    {order : List Ident} (ho : order ⊆ L) : Agree L (s.resolveAllNested beyond depth order) (s.resolveAll L order) := by
  induction order with
  | nil => exact agree_pure _
  | cons ident order ih =>
    obtain ⟨hident, horder⟩ := List.cons_subset.1 ho
    refine (agree_resolveNested beyond (hl.erase ident) (fun j => ?_) ?_ ident).bind fun _ => ih horder
    · rw [hl.mem_erase_iff, List.mem_singleton]
      exact and_comm
    · rw [List.length_erase_of_mem hident]
      omega

/-- Resolution on a table nests no deeper than the table has variables. -/
theorem resolveTableNested_eq {t : Table} (memo : Relocations) (beyond : Ident → Resolving Bool) {depth : Nat}
    (hdepth : t.size ≤ depth + 1) :
    ((s.resolveTableNested beyond depth).run.run ⟨t, memo⟩ : Except Error Unit × Progress) =
      s.resolveTable.run.run ⟨t, memo⟩ := by
  have hlen : t.idents.length ≤ depth + 1 := by
    rw [Table.idents, List.length_map]
    exact hdepth
  exact (agree_resolveAllNested beyond t.nodup_idents hlen (fun _ h => h) ⟨t, memo⟩ rfl).1

end ThemeVars.Surroundings
