/-
Resolution ends on every table, and what it leaves of dependencies is sound.
`Sound` is kept of every resolved record: a record is finished only after all
local variables that it depends on, and a finished record never changes again.
`resolveTable_sound`: calls nest no deeper than there are local variables, and
in a table that has been resolved, dependencies lead to no cycle.
-/
import Mathlib.Logic.Relation
import ThemeVars.Proofs.OrderedSet
import ThemeVars.Proofs.Outcome
import ThemeVars.Proofs.Variable.Nesting
import ThemeVars.Proofs.Variable.Table

namespace ThemeVars

namespace Table

variable {t u w : Table} {W W' : List Ident}

/-- The local variables among these are resolved, and what they depend on is
among these too. -/
def Closed (t : Table) (ds : List Ident) : Prop :=
  ∀ d ∈ ds, ∀ v, t.get? d = .some v → v.parsed = true ∧ v.dependencies ⊆ ds

/-- Dependencies as a resolved record has them. -/
structure Sound (t : Table) (v : Variable) : Prop where
  closed : t.Closed v.dependencies
  apart : v.ident ∉ v.dependencies
  text : v.dependencies ≠ [] → v.resolved ≠ ""

/-- Every resolved record has such dependencies. -/
def AllSound (t : Table) : Prop := ∀ i v, t.get? i = .some v → v.parsed = true → t.Sound v

/-- From `t` to `u`, resolved records and those of variables not in `W` stay as
they are, and no variable comes or goes. -/
structure Grows (W : List Ident) (t u : Table) : Prop where
  idents : u.idents = t.idents
  parsed : ∀ i v, t.get? i = .some v → v.parsed = true → u.get? i = .some v
  others : ∀ i v, t.get? i = .some v → i ∉ W → u.get? i = .some v

theorem Grows.refl (W : List Ident) (t : Table) : t.Grows W t := ⟨rfl, fun _ _ h _ => h, fun _ _ h _ => h⟩

theorem Grows.trans (h : t.Grows W u) (h' : u.Grows W w) : t.Grows W w where
  idents := h'.idents.trans h.idents
  parsed i v hv hp := h'.parsed i v (h.parsed i v hv hp) hp
  others i v hv hi := h'.others i v (h.others i v hv hi) hi

theorem Grows.weaken (h : t.Grows W u) (hW : W ⊆ W') : t.Grows W' u :=
  ⟨h.idents, h.parsed, fun i v hv hi => h.others i v hv fun hm => hi (hW hm)⟩

theorem Grows.closed (h : t.Grows W u) {ds : List Ident} (hc : t.Closed ds) : u.Closed ds := by
  intro d hd v hv
  obtain ⟨v', hv'⟩ := mem_idents.1 (h.idents ▸ mem_idents.2 ⟨v, hv⟩)
  obtain ⟨hp, hsub⟩ := hc d hd v' hv'
  cases (h.parsed d v' hv' hp).symm.trans hv
  exact ⟨hp, hsub⟩

theorem Grows.sound (h : t.Grows W u) {v : Variable} (hv : t.Sound v) : u.Sound v :=
  ⟨h.closed hv.closed, hv.apart, hv.text⟩

theorem closed_nil (t : Table) : t.Closed [] := fun _ h => nomatch h

theorem Closed.union {ds es : List Ident} (hd : t.Closed ds) (he : t.Closed es) : t.Closed (OrderedSet.union ds es) := by
  intro d hmem v hv
  rcases OrderedSet.mem_union.1 hmem with h | h
  · obtain ⟨hp, hsub⟩ := hd d h v hv
    exact ⟨hp, fun x hx => OrderedSet.mem_union.2 (.inl (hsub hx))⟩
  · obtain ⟨hp, hsub⟩ := he d h v hv
    exact ⟨hp, fun x hx => OrderedSet.mem_union.2 (.inr (hsub hx))⟩

theorem grows_insert {v old : Variable} (hold : t.get? v.ident = .some old) (hp : old.parsed = false) :
    t.Grows [v.ident] (t.insert v) := by
  refine ⟨idents_insert (mem_idents.2 ⟨old, hold⟩), fun i x hx hxp => ?_, fun i x hx hni => ?_⟩
  · rw [get?_insert, if_neg]
    · exact hx
    · rintro rfl
      cases hold.symm.trans hx
      simp [hp] at hxp
  · rw [get?_insert, if_neg]
    · exact hx
    · rintro rfl
      simp at hni

/-- A record that is finished may take the place of one that is not: nothing
finished depends on that one. -/
theorem Sound.insert {v old : Variable} (hv : t.Sound v) (h : t.AllSound) (hold : t.get? v.ident = .some old)
    (hp : old.parsed = false) : (t.insert v).AllSound ∧ t.Grows [v.ident] (t.insert v) := by
  have hgrows := grows_insert hold hp
  refine ⟨fun i x hx hxp => ?_, hgrows⟩
  rw [get?_insert] at hx
  split at hx
  · cases hx
    exact hgrows.sound hv
  · exact hgrows.sound (h i x hx hxp)

/-- The local variable `i` depends on the local variable `j`. -/
def DependsOn (t : Table) (i j : Ident) : Prop := ∃ v, t.get? i = .some v ∧ j ∈ v.dependencies ∧ j ∈ t.idents

/-- Every variable is resolved, none depends on itself, nor does any chain of
dependencies lead back, dependencies of dependencies are dependencies, and what
has any has a text. -/
structure Settled (t : Table) : Prop where
  parsed : ∀ v ∈ t.records, v.parsed = true
  apart : ∀ v ∈ t.records, v.ident ∉ v.dependencies
  acyclic : ∀ i, ¬ Relation.TransGen t.DependsOn i i
  transitive : ∀ v ∈ t.records, ∀ w ∈ t.records, w.ident ∈ v.dependencies → w.dependencies ⊆ v.dependencies
  text : ∀ v ∈ t.records, v.dependencies ≠ [] → v.resolved ≠ ""

/-- A relation that is transitive has no cycle if nothing is related to itself. -/
theorem Settled.of_allSound (hp : ∀ v ∈ t.records, v.parsed = true) (h : t.AllSound) : t.Settled := by
  have hsound : ∀ v ∈ t.records, t.Sound v := fun v hv => h v.ident v (get?_of_mem hv) (hp v hv)
  have htrans : ∀ i j k, t.DependsOn i j → t.DependsOn j k → t.DependsOn i k := by
    rintro i j k ⟨v, hv, hj, -⟩ ⟨w, hw, hk, hlocal⟩
    exact ⟨v, hv, ((hsound v (mem_of_get? hv)).closed j hj w hw).2 hk, hlocal⟩
  refine ⟨hp, fun v hv => (hsound v hv).apart, fun i hi => ?_, fun v hv w hw hmem => ?_, fun v hv => (hsound v hv).text⟩
  · have hself : ∀ j, Relation.TransGen t.DependsOn i j → t.DependsOn i j := by
      intro j hj
      induction hj with
      | single hj => exact hj
      | tail _ hjk ih => exact htrans _ _ _ ih hjk
    obtain ⟨v, hv, hmem, -⟩ := hself i hi
    exact (hsound v (mem_of_get? hv)).apart (ident_of_get? hv ▸ hmem)
  · exact ((hsound v hv).closed w.ident hmem w (get?_of_mem hw)).2

end Table

namespace Surroundings

variable {s : Surroundings} {t : Table} {W : List Ident} {p : Progress}

/-- What is expanded so far: all that it depends on is finished, and what
depends on anything has a text. -/
structure Supported (t : Table) (e : Expansion) : Prop where
  closed : t.Closed e.2
  text : e.2 ≠ [] → e.1 ≠ ""

theorem Supported.grow {u : Table} {e : Expansion} (h : Supported t e) (hg : t.Grows W u) : Supported u e :=
  ⟨hg.closed h.closed, h.text⟩

theorem supported_empty (t : Table) : Supported t .empty := ⟨t.closed_nil, fun h => absurd rfl h⟩

theorem Supported.append {a b : Expansion} (ha : Supported t a) (hb : Supported t b) : Supported t (a.append b) := by
  refine ⟨ha.closed.union hb.closed, fun hne => ?_⟩
  intro htext
  obtain ⟨hx, hy⟩ := String.append_eq_empty_iff.1 htext
  have hnil : a.2 = [] ∧ b.2 = [] :=
    ⟨by_contra fun h => ha.text h hx, by_contra fun h => hb.text h hy⟩
  refine hne ?_
  rw [Expansion.append, hnil.1, hnil.2]
  rfl

theorem supported_text (t : Table) (x : String) : Supported t (x, []) := ⟨t.closed_nil, fun h => absurd rfl h⟩

/-- A variable that is finished, or not local, may be depended on with all that
it depends on. -/
theorem supported_ofVariable {i : Ident} {x : String} {ds : List Ident} (hds : t.Closed ds)
    (hi : ∀ v, t.get? i = .some v → v.parsed = true ∧ v.dependencies ⊆ ds) : Supported t (.ofVariable i x ds) := by
  unfold Expansion.ofVariable
  split
  · exact supported_empty t
  · rename_i hx
    refine ⟨fun d hd v hv => ?_, fun _ => by simpa using hx⟩
    rcases OrderedSet.mem_insert.1 hd with rfl | hd
    · obtain ⟨hp, hsub⟩ := hi v hv
      exact ⟨hp, fun y hy => OrderedSet.mem_insert.2 (.inr (hsub hy))⟩
    · obtain ⟨hp, hsub⟩ := hds d hd v hv
      exact ⟨hp, fun y hy => OrderedSet.mem_insert.2 (.inr (hsub hy))⟩

/-! ## One step -/

/-- No external table has a record that depends on a local variable. -/
def Outward (s : Surroundings) (t : Table) : Prop :=
  ∀ u ∈ s.externals, ∀ w ∈ u.records, ∀ d ∈ w.dependencies, d ∉ t.idents

/-- A computation keeps dependencies sound, changes records of `W` only, and
ends with a result of which `post` holds, if it succeeds. -/
def Keeps (s : Surroundings) (W : List Ident) {α : Type} (x : Resolving α) (post : α → Table → Prop) : Prop :=
  ∀ p : Progress, p.table.AllSound → s.Outward p.table →
    Ends x p (fun a q => q.table.AllSound ∧ p.table.Grows W q.table ∧ post a q.table) fun _ => True

theorem Outward.grow {u : Table} (h : s.Outward t) (hg : t.Grows W u) : s.Outward u := by
  unfold Outward at h ⊢
  rwa [hg.idents]

theorem Keeps.bind {α β : Type} {x : Resolving α} {f : α → Resolving β} {post : α → Table → Prop}
    {post' : β → Table → Prop} (hx : s.Keeps W x post)
    (hf : ∀ a (p : Progress), post a p.table → p.table.AllSound → s.Outward p.table →
      Ends (f a) p (fun b q => q.table.AllSound ∧ p.table.Grows W q.table ∧ post' b q.table) fun _ => True) :
    s.Keeps W (x >>= f) post' := by
  intro p hp hs
  rw [ends_bind]
  refine (hx p hp hs).mono ?_ fun _ _ => trivial
  rintro a q ⟨hq, hg, ha⟩
  refine (hf a q ha hq (hs.grow hg)).mono ?_ fun _ _ => trivial
  rintro b r ⟨hr, hg', hb⟩
  exact ⟨hr, hg.trans hg', hb⟩

theorem keeps_external? {i : Ident} (W : List Ident) (p : Progress) (hp : p.table.AllSound) (hs : s.Outward p.table)
    (hi : p.table.get? i = .none) :
    Ends (s.external? i) p (fun o q => q.table.AllSound ∧ p.table.Grows W q.table ∧ ∀ e, o = .some e → Supported q.table e)
      fun _ => True := by
  unfold external?
  rcases hv : Table.findLast? s.externals i with _ | v
  · exact ends_pure.2 ⟨hp, .refl W _, fun e he => nomatch he⟩
  · simp only [ends_bind, ends_get]
    rcases p.memo.relocate v s.file with e | ⟨x, memo⟩
    · exact ends_throw.2 trivial
    · refine ⟨hp, .refl W _, fun e he => ?_⟩
      cases he
      obtain ⟨u, hu, hvu⟩ := Table.mem_of_findLast? hv
      refine supported_ofVariable (fun d hd w hw => ?_) fun w hw => nomatch hi.symm.trans hw
      exact absurd (Table.mem_idents.2 ⟨w, hw⟩) (hs u hu v hvu d hd)

/-- `settle` finishes a local variable, unless it is under way. -/
def Finishing (s : Surroundings) (W : List Ident) (settle : Ident → Resolving Bool) : Prop :=
  ∀ i, s.Keeps W (settle i) fun b t => b = true → ∀ v, t.get? i = .some v → v.parsed = true

/-- What a reference gives is supported. -/
theorem keeps_find? {settle : Ident → Resolving Bool} (hsettle : s.Finishing W settle) (r : Reference) :
    s.Keeps W (s.find? settle r) fun o t => ∀ e, o = .some e → Supported t e := by
  intro p hp hs
  have hempty (q : Table) (e : Expansion) (he : some Expansion.empty = some e) : Supported q e := by
    cases he
    exact supported_empty q
  unfold find?
  rcases hr : r.name.isEmpty with _ | _
  · simp only [Bool.false_eq_true, if_false, ends_bind, ends_get]
    rcases hc : p.table.contains (Ident.ofName s.mode r.name) with _ | _
    · exact keeps_external? W p hp hs (Table.contains_eq_false.1 hc)
    · simp only [if_true, ends_bind]
      refine (hsettle _ p hp hs).mono ?_ fun _ _ => trivial
      rintro (_ | _) q ⟨hq, hg, hb⟩
      · exact ends_pure.2 ⟨hq, hg, hempty _⟩
      · simp only [if_true, ends_bind, ends_get]
        rcases hv : q.table.get? (Ident.ofName s.mode r.name) with _ | v
        · exact ends_pure.2 ⟨hq, hg, hempty _⟩
        · refine ends_pure.2 ⟨hq, hg, fun e he => ?_⟩
          cases he
          have hv' := hb rfl v hv
          refine supported_ofVariable (hq _ v hv hv').closed fun w hw => ?_
          cases hv.symm.trans hw
          exact ⟨hv', fun _ h => h⟩
  · exact ends_pure.2 ⟨hp, .refl W _, hempty _⟩

/-- What a value expands to is supported: an induction on the value, in which
what is supported stays so while more is resolved. -/
theorem keeps_expand {settle : Ident → Resolving Bool} (hsettle : s.Finishing W settle) (value : Value) :
    s.Keeps W (value.expand (s.find? settle)) fun e t => Supported t e := by
  induction value with
  | done => exact fun p hp _ => ends_pure.2 ⟨hp, .refl W _, supported_empty _⟩
  | text x rest ih =>
    refine Keeps.bind ih fun e q he hq _ => ?_
    exact ends_pure.2 ⟨hq, .refl W _, (supported_text _ x).append he⟩
  | interpolation inner rest ihi ihr =>
    refine Keeps.bind ihi fun a q ha hq hs => ?_
    rw [ends_bind]
    refine (ihr q hq hs).mono ?_ fun _ _ => trivial
    rintro b r ⟨hr, hg, hb⟩
    exact ends_pure.2 ⟨hr, hg, (ha.grow hg).append hb⟩
  | reference r rest ih =>
    refine Keeps.bind (keeps_find? hsettle r) fun o q ho hq hs => ?_
    rw [ends_bind]
    refine (ih q hq hs).mono ?_ fun _ _ => trivial
    rintro b r ⟨hr, hg, hb⟩
    refine ends_pure.2 ⟨hr, hg, ?_⟩
    cases o with
    | none => exact (supported_empty _).append hb
    | some a => exact ((ho a rfl).grow hg).append hb
  | guarded r fallback rest ihf ihr =>
    refine Keeps.bind (keeps_find? hsettle r) fun o q ho hq hs => ?_
    cases o with
    | some a =>
      simp only [ends_bind]
      refine (ihr q hq hs).mono ?_ fun _ _ => trivial
      rintro b r ⟨hr, hg, hb⟩
      exact ends_pure.2 ⟨hr, hg, ((ho a rfl).grow hg).append hb⟩
    | none =>
      simp only [ends_bind]
      refine (ihf q hq hs).mono ?_ fun _ _ => trivial
      rintro a q' ⟨hq', hg', ha⟩
      refine (ihr q' hq' (hs.grow hg')).mono ?_ fun _ _ => trivial
      rintro b r ⟨hr, hg, hb⟩
      exact ends_pure.2 ⟨hr, hg'.trans hg, (ha.grow hg).append hb⟩

theorem keeps_expandText {settle : Ident → Resolving Bool} (hsettle : s.Finishing W settle) (text : String) :
    s.Keeps W (s.expandText settle text) fun e t => Supported t e := by
  intro p hp hs
  unfold expandText
  rw [ends_bind, ends_lift]
  exact ⟨fun value _ => keeps_expand hsettle value p hp hs, fun _ _ => trivial⟩

/-! ## A whole run -/

/-- Resolving a local variable that is not waiting finishes it, and changes
nothing else but what was waiting. -/
theorem keeps_resolve {waiting : List Ident} {i : Ident} (hw : waiting.Nodup) (hi : i ∉ waiting) :
    s.Keeps (i :: waiting) (s.resolve waiting i) fun _ t => ∀ v, t.get? i = .some v → v.parsed = true := by
  induction waiting using Table.erase_induction generalizing i with
  | step waiting ih =>
    intro p hp hs
    rw [resolve]
    simp only [ends_bind, ends_get]
    rcases hv : p.table.get? i with _ | v
    · exact ends_pure.2 ⟨hp, .refl _ _, fun v hv' => nomatch hv.symm.trans hv'⟩
    rcases hparsed : v.parsed with _ | _
    · simp only [hparsed, Bool.false_eq_true, if_false, ends_bind]
      have hsettle : s.Finishing waiting fun next =>
          if _h : next ∈ waiting then do
            s.resolve (waiting.erase next) next
            return true
          else return false := by
        intro next q hq hs
        beta_reduce
        split
        · rename_i hnext
          rw [ends_bind]
          refine (ih next hnext (hw.erase next) hw.not_mem_erase q hq hs).mono ?_ fun _ _ => trivial
          rintro - r ⟨hr, hg, hdone⟩
          refine ends_pure.2 ⟨hr, hg.weaken ?_, fun _ => hdone⟩
          exact List.cons_subset.2 ⟨hnext, List.erase_subset⟩
        · exact ends_pure.2 ⟨hq, .refl _ _, fun h => nomatch h⟩
      refine (keeps_expandText hsettle v.raw p hp hs).mono ?_ fun _ _ => trivial
      rintro ⟨resolved, dependencies⟩ q ⟨hq, hg, he⟩
      rw [ends_lift]
      refine ⟨fun urls _ => ends_modify.2 ?_, fun _ _ => trivial⟩
      have hvi : v.ident = i := Table.ident_of_get? hv
      -- the record itself is still as it was, so that nothing can depend on it
      have hv' : q.table.get? v.ident = .some v := hvi ▸ hg.others i v hv hi
      have hapart : i ∉ dependencies := by
        intro hmem
        obtain ⟨h, -⟩ := he.closed i hmem v (hvi ▸ hv')
        simp [hparsed] at h
      have hsound : q.table.Sound
          { v with resolved, dependencies := OrderedSet.remove i dependencies, urls, parsed := true } := by
        rw [OrderedSet.remove_of_not_mem hapart]
        exact ⟨he.closed, hvi ▸ hapart, he.text⟩
      obtain ⟨hall, hg'⟩ := hsound.insert hq hv' hparsed
      refine ⟨hall, (hg.weaken (List.subset_cons_self _ _)).trans (hg'.weaken (by simp [hvi])), fun w hw' => ?_⟩
      rw [Table.get?_insert, if_pos hvi] at hw'
      cases hw'
      rfl
    · simp only [hparsed, if_true]
      refine ends_pure.2 ⟨hp, .refl _ _, fun w hw' => ?_⟩
      cases hv.symm.trans hw'
      exact hparsed

/-- Resolving a list of local variables finishes each. -/
theorem keeps_resolveAll {locals : List Ident} (hl : locals.Nodup) (order : List Ident) (ho : order ⊆ locals) :
    s.Keeps locals (s.resolveAll locals order) fun _ t => ∀ i ∈ order, ∀ v, t.get? i = .some v → v.parsed = true := by
  induction order with
  | nil => exact fun p hp _ => ends_pure.2 ⟨hp, .refl _ _, fun i hi => nomatch hi⟩
  | cons i order ih =>
    obtain ⟨hi, horder⟩ := List.cons_subset.1 ho
    intro p hp hs
    simp only [resolveAll, ends_bind]
    refine (keeps_resolve (hl.erase i) hl.not_mem_erase p hp hs).mono ?_ fun _ _ => trivial
    rintro - q ⟨hq, hg, hdone⟩
    refine (ih horder q hq (hs.grow hg)).mono ?_ fun _ _ => trivial
    rintro - r ⟨hr, hg', hrest⟩
    refine ⟨hr, (hg.weaken (List.cons_subset.2 ⟨hi, List.erase_subset⟩)).trans hg', fun j hj v hv => ?_⟩
    rcases List.mem_cons.1 hj with rfl | hj
    · obtain ⟨w, hw⟩ := Table.mem_idents.1 (hg'.idents ▸ Table.mem_idents.2 ⟨v, hv⟩)
      have hw' := hdone w hw
      cases (hg'.parsed _ w hw hw').symm.trans hv
      exact hw'
    · exact hrest j hj v hv

theorem keeps_resolveTable (hp : p.table.AllSound) (hs : s.Outward p.table) :
    Ends s.resolveTable p (fun _ q => q.table.idents = p.table.idents ∧ q.table.Settled) fun _ => True := by
  unfold resolveTable
  simp only [ends_bind, ends_get]
  refine (keeps_resolveAll p.table.nodup_idents p.table.idents (fun _ h => h) p hp hs).mono ?_ fun _ _ => trivial
  rintro - q ⟨hq, hg, hdone⟩
  refine ⟨hg.idents, .of_allSound (fun v hv => ?_) hq⟩
  have hget := Table.get?_of_mem hv
  exact hdone v.ident (hg.idents ▸ Table.mem_idents.2 ⟨v, hget⟩) v hget

/-- Resolution of a table ends: variables nest no deeper than there are any,
whatever `beyond` would do there. When it succeeds on records that are not
resolved yet, dependencies are sound, provided that no external record depends
on a local variable. -/
theorem resolveTable_sound (s : Surroundings) (t : Table) (memo : Relocations) :
    (∀ (beyond : Ident → Resolving Bool) (depth : Nat), t.size ≤ depth + 1 →
      ((s.resolveTableNested beyond depth).run.run ⟨t, memo⟩ : Except Error Unit × Progress) =
        s.resolveTable.run.run ⟨t, memo⟩) ∧
    ((∀ v ∈ t.records, v.parsed = false) → s.Outward t →
      ∀ q : Progress, (s.resolveTable.run.run ⟨t, memo⟩ : Except Error Unit × Progress) = (.ok (), q) →
        q.table.idents = t.idents ∧ q.table.Settled) := by
  refine ⟨fun beyond depth hdepth => resolveTableNested_eq memo beyond hdepth, fun hfresh hs q hq => ?_⟩
  have hsound : t.AllSound := fun i v hv hp => by simp [hfresh v (Table.mem_of_get? hv)] at hp
  have h := keeps_resolveTable (p := ⟨t, memo⟩) hsound hs
  unfold Ends at h
  rwa [hq] at h

/-- Two variables that refer to each other, the second to an external one too. -/
def crossed : Table :=
  .ofList [
    { ident := .ofName .debug "$a", name := "$a", raw := "1px $b" },
    { ident := .ofName .debug "$b", name := "$b", raw := "$a $c" }]

/-- A file that imports the external variable. -/
def importing : Surroundings :=
  ⟨.scss, .debug,
    [.ofList [{ ident := .ofName .debug "$c", name := "$c", raw := "red", resolved := "red", parsed := true }]], .none⟩

/-- The second variable is resolved within the first, whose text it does
without. -/
theorem resolveTable_sound_mutual :
    crossed.size ≤ 1 + 1 ∧ (∀ v ∈ crossed.records, v.parsed = false) ∧ importing.Outward crossed ∧
      (importing.resolveTableNested (fun _ => return false) 1).run.run ⟨crossed, {}⟩ =
        importing.resolveTable.run.run ⟨crossed, {}⟩ ∧
      ∃ q : Progress, importing.resolveTable.run.run ⟨crossed, {}⟩ = (.ok (), q) ∧
        q.table.records.map (fun v => (v.name, v.resolved, v.dependencies.length)) =
          [("$a", "1px  red", 2), ("$b", " red", 1)] ∧
        q.table.idents = crossed.idents ∧ q.table.Settled := by
  have hu : ∀ v ∈ crossed.records, v.parsed = false := by decide +kernel
  have hs : importing.Outward crossed := by
    intro u hu w hw d hd
    cases List.mem_singleton.1 hu
    cases List.mem_singleton.1 hw
    cases hd
  obtain ⟨hnested, hsettled⟩ := resolveTable_sound importing crossed {}
  have hok : (importing.resolveTable.run.run ⟨crossed, {}⟩ : Except Error Unit × Progress).1.toBool = true := by
    decide +kernel
  have htexts : (importing.resolveTable.run.run ⟨crossed, {}⟩ : Except Error Unit × Progress).2.table.records.map
      (fun v => (v.name, v.resolved, v.dependencies.length)) = [("$a", "1px  red", 2), ("$b", " red", 1)] := by
    decide +kernel
  rcases hrun : (importing.resolveTable.run.run ⟨crossed, {}⟩ : Except Error Unit × Progress) with ⟨_ | _, q⟩
  · simp [hrun] at hok
    cases hok
  · rw [hrun] at htexts
    exact ⟨by decide +kernel, hu, hs, (hnested _ 1 (by decide +kernel)).trans hrun, q, rfl, htexts, hsettled hu hs q hrun⟩

end Surroundings

end ThemeVars
