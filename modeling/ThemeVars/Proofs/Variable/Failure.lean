/-
What a resolution leaves behind when it fails. `Advance`: where each step leads
on, a run does, whether it comes out or fails. `Replays`: what has come out does
so again and changes nothing, and what has failed fails again where it stopped.
`resolveTable_fails`: each record is as it was or resolved as a whole, and a
second run fails as the first did.
-/
import ThemeVars.Proofs.Variable.Dependencies
import ThemeVars.Proofs.Variable.Invariant
import ThemeVars.Proofs.Variable.Relocation

namespace ThemeVars.Surroundings

variable {s : Surroundings} {R : List Ident → Progress → Progress → Prop} {W W' : List Ident} {p q r : Progress}
  {α β : Type}

/-- Resolves a local variable that is waiting, and answers no for any other. -/
def settleAmong (s : Surroundings) (waiting : List Ident) (next : Ident) : Resolving Bool :=
  if next ∈ waiting then do
    s.resolve (waiting.erase next) next
    return true
  else return false

theorem resolve_eq_resolveWith (waiting : List Ident) (ident : Ident) :
    s.resolve waiting ident = s.resolveWith (s.settleAmong waiting) ident := resolve_eq waiting ident

theorem run_resolve_parsed (waiting : List Ident) {ident : Ident}
    (h : ∀ v, p.table.get? ident = .some v → v.parsed = true) :
    ((s.resolve waiting ident).run.run p : Except Error Unit × Progress) = (.ok (), p) := by
  rw [resolve_eq_resolveWith, resolveWith, run_get]
  rcases hv : p.table.get? ident with _ | v
  · rfl
  · simp only [h v hv, if_true]
    rfl

/-- A record is finished with what its value comes to, and with the paths in
that. -/
theorem run_resolve (waiting : List Ident) {v : Variable} (hv : p.table.get? v.ident = .some v) (hparsed : v.parsed = false) :
    ((s.resolve waiting v.ident).run.run p : Except Error Unit × Progress) =
      match ((s.expandText (s.settleAmong waiting) v.raw).run.run p : Except Error Expansion × Progress) with
      | (.error e, q) => (.error e, q)
      | (.ok e, q) =>
        match RelativeUrls.ofValue e.1 v.source with
        | .error e => (.error e, q)
        | .ok urls => (.ok (), { q with table := q.table.insert (v.finished e urls) }) := by
  rw [resolve_eq_resolveWith, resolveWith, run_get]
  simp only [hv, hparsed, Bool.false_eq_true, if_false, run_bind]
  rcases ((s.expandText (s.settleAmong waiting) v.raw).run.run p : Except Error Expansion × Progress) with ⟨e | e, q⟩
  · rfl
  · rcases hurls : RelativeUrls.ofValue e.1 v.source with e' | urls
    · simp only [hurls]
      rfl
    · simp only [hurls]
      rfl

/-! ## Where a run leads -/

/-- Steps that lead on: `R` goes through each of them, where variables among `W`
may be resolved. -/
structure Advance (s : Surroundings) (R : List Ident → Progress → Progress → Prop) : Prop where
  refl : ∀ W p, R W p p
  trans : ∀ {W p q r}, R W p q → R W q r → R W p r
  weaken : ∀ {W W' p q}, W ⊆ W' → R W p q → R W' p q
  memo : ∀ {W p i v x memo}, Table.findLast? s.externals i = .some v → p.memo.relocate v s.file = .ok (x, memo) →
    R W p { p with memo }
  record : ∀ {waiting p q v e urls}, (v.ident :: waiting).Nodup → p.table.get? v.ident = .some v → v.parsed = false →
    ((s.expandText (s.settleAmong waiting) v.raw).run.run p : Except Error Expansion × Progress) = (.ok e, q) →
    R waiting p q → RelativeUrls.ofValue e.1 v.source = .ok urls →
    R (v.ident :: waiting) p { q with table := q.table.insert (v.finished e urls) }

/-- The computation leads on, also when it fails. -/
def Leads (R : Progress → Progress → Prop) (x : Resolving α) : Prop := ∀ p, Ends x p (fun _ q => R p q) fun q => R p q

theorem Leads.of_run {R : Progress → Progress → Prop} {x : Resolving α} (h : Leads R x) {o : Except Error α}
    (hrun : (x.run.run p : Except Error α × Progress) = (o, q)) : R p q := by
  cases o with
  | error e => exact (ends_iff.1 (h p)).2 e q hrun
  | ok a => exact (ends_iff.1 (h p)).1 a q hrun

theorem Leads.mono {R R' : Progress → Progress → Prop} {x : Resolving α} (h : Leads R x) (hR : ∀ p q, R p q → R' p q) :
    Leads R' x := fun p => (h p).mono (fun _ q => hR p q) (hR p)

namespace Advance

variable (h : s.Advance R)
include h

theorem leads_pure (a : α) : Leads (R W) (pure a) := fun p => h.refl W p

theorem leads_lift (x : Except Error α) : Leads (R W) (liftM x) :=
  fun p => ends_lift.2 ⟨fun _ _ => h.refl W p, fun _ _ => h.refl W p⟩

theorem leads_bind {x : Resolving α} {f : α → Resolving β} (hx : Leads (R W) x) (hf : ∀ a, Leads (R W) (f a)) :
    Leads (R W) (x >>= f) := fun p =>
  ends_bind.2 ((hx p).mono (fun a q hq => (hf a q).mono (fun _ _ => h.trans hq) fun _ => h.trans hq) fun _ => id)

theorem leads_external? (ident : Ident) : Leads (R W) (s.external? ident) := by
  unfold external?
  rcases hv : Table.findLast? s.externals ident with _ | v
  · exact h.leads_pure _
  · intro p
    simp only [ends_bind, ends_get]
    rcases hx : p.memo.relocate v s.file with e | ⟨x, memo⟩
    · exact ends_throw.2 (h.refl W p)
    · exact h.memo hv hx

variable {settle : Ident → Resolving Bool} (hsettle : ∀ next, Leads (R W) (settle next))
include hsettle

theorem leads_find? (ref : Reference) : Leads (R W) (s.find? settle ref) := by
  unfold find?
  split
  · exact h.leads_pure _
  · intro p
    simp only [ends_bind, ends_get]
    split
    · refine h.leads_bind (hsettle _) (fun b => ?_) p
      cases b with
      | false => exact h.leads_pure _
      | true =>
        intro q
        simp only [if_true, ends_bind, ends_get]
        split
        · exact h.leads_pure _ q
        · exact h.leads_pure _ q
    · exact h.leads_external? _ p

theorem leads_expand (value : Value) : Leads (R W) (value.expand (s.find? settle)) := by
  induction value with
  | done => exact h.leads_pure _
  | text x rest ih => exact h.leads_bind ih fun _ => h.leads_pure _
  | interpolation inner rest ihi ihr => exact h.leads_bind ihi fun _ => h.leads_bind ihr fun _ => h.leads_pure _
  | reference ref rest ih =>
    exact h.leads_bind (h.leads_find? hsettle ref) fun _ => h.leads_bind ih fun _ => h.leads_pure _
  | guarded ref fallback rest ihf ihr =>
    refine h.leads_bind (h.leads_find? hsettle ref) fun found => ?_
    cases found with
    | some e => exact h.leads_bind ihr fun _ => h.leads_pure _
    | none => exact h.leads_bind ihf fun _ => h.leads_bind ihr fun _ => h.leads_pure _

theorem leads_expandText (text : String) : Leads (R W) (s.expandText settle text) :=
  h.leads_bind (h.leads_lift _) fun value => h.leads_expand hsettle value

omit hsettle

theorem leads_settleAmong {waiting : List Ident}
    (ih : ∀ next ∈ waiting, Leads (R (next :: waiting.erase next)) (s.resolve (waiting.erase next) next)) (next : Ident) :
    Leads (R waiting) (s.settleAmong waiting next) := by
  unfold settleAmong
  split
  · rename_i hnext
    refine h.leads_bind ((ih next hnext).mono fun _ _ => h.weaken ?_) fun _ => h.leads_pure _
    exact List.cons_subset.2 ⟨hnext, List.erase_subset⟩
  · exact h.leads_pure _

/-- An induction on how many variables are waiting, none of which is under way. -/
theorem leads_resolve {waiting : List Ident} {ident : Ident} (hw : waiting.Nodup) (hi : ident ∉ waiting) :
    Leads (R (ident :: waiting)) (s.resolve waiting ident) := by
  induction waiting using Table.erase_induction generalizing ident with
  | step waiting ih =>
    have hsettle := h.leads_settleAmong fun next hnext => ih next hnext (hw.erase next) hw.not_mem_erase
    intro p
    by_cases hdone : ∀ v, p.table.get? ident = .some v → v.parsed = true
    · unfold Ends
      rw [run_resolve_parsed waiting hdone]
      exact h.refl _ p
    · push Not at hdone
      obtain ⟨v, hv, hparsed⟩ := hdone
      obtain rfl : v.ident = ident := Table.ident_of_get? hv
      have hparsed := Bool.eq_false_iff.2 hparsed
      have hleads := h.leads_expandText hsettle v.raw
      have hsub : waiting ⊆ v.ident :: waiting := List.subset_cons_self _ _
      unfold Ends
      rw [run_resolve waiting hv hparsed]
      rcases hrun : ((s.expandText (s.settleAmong waiting) v.raw).run.run p : Except Error Expansion × Progress)
        with ⟨e | e, q⟩
      · exact h.weaken hsub (hleads.of_run hrun)
      rcases hurls : RelativeUrls.ofValue e.1 v.source with error | urls
      · simp only [hurls]
        exact h.weaken hsub (hleads.of_run hrun)
      · simp only [hurls]
        exact h.record (List.nodup_cons.2 ⟨hi, hw⟩) hv hparsed hrun (hleads.of_run hrun) hurls

theorem leads_resolveAll {locals : List Ident} (hl : locals.Nodup) {order : List Ident} (ho : order ⊆ locals) :
    Leads (R locals) (s.resolveAll locals order) := by
  induction order with
  | nil => exact h.leads_pure _
  | cons ident order ih =>
    obtain ⟨hi, ho⟩ := List.cons_subset.1 ho
    refine h.leads_bind ((h.leads_resolve (hl.erase ident) hl.not_mem_erase).mono fun _ _ => h.weaken ?_) fun _ => ih ho
    exact List.cons_subset.2 ⟨hi, List.erase_subset⟩

end Advance

/-! ## Records and memo -/

/-- From `p` to `q`, what is resolved stays so, records of variables not in `W`
stay as they are, and the memo forgets nothing. -/
structure Onward (s : Surroundings) (W : List Ident) (p q : Progress) : Prop where
  table : p.table.Grows W q.table
  memo : ∀ ident file x, s.file = .some file → p.memo.find? ident file = .some x → q.memo.find? ident file = .some x

theorem Onward.refl (s : Surroundings) (W : List Ident) (p : Progress) : s.Onward W p p :=
  ⟨.refl W _, fun _ _ _ _ h => h⟩

theorem Onward.weaken (h : s.Onward W p q) (hW : W ⊆ W') : s.Onward W' p q := ⟨h.table.weaken hW, h.memo⟩

theorem Onward.trans (h : s.Onward W p q) (h' : s.Onward W q r) : s.Onward W p r :=
  ⟨h.table.trans h'.table, fun ident file x hfile hx => h'.memo ident file x hfile (h.memo ident file x hfile hx)⟩

theorem Onward.join (h : s.Onward W p q) (h' : s.Onward W' q r) : s.Onward (W ++ W') p r :=
  (h.weaken (List.subset_append_left _ _)).trans (h'.weaken (List.subset_append_right _ _))

theorem Onward.get?_of_parsed (h : s.Onward W p q) {ident : Ident}
    (hparsed : ∀ v, p.table.get? ident = .some v → v.parsed = true) : q.table.get? ident = p.table.get? ident := by
  rcases hv : p.table.get? ident with _ | v
  · rw [← Table.contains_eq_false, ← Bool.not_eq_true, Table.contains_iff, ← Table.mem_idents] at hv ⊢
    rwa [h.table.idents]
  · exact h.table.parsed ident v hv (hparsed v hv)

theorem advance_onward (s : Surroundings) : s.Advance s.Onward where
  refl := .refl s
  trans := .trans
  weaken hW h := h.weaken hW
  memo {W p i v x memo} _ hx := ⟨.refl W _, fun ident file y hfile hy => Relocations.find?_relocate (hfile ▸ hx) hy⟩
  record {waiting p q v e urls} hn hv hparsed _ h _ := by
    have hv' : q.table.get? v.ident = .some v := h.table.others v.ident v hv (List.nodup_cons.1 hn).1
    have hput := Table.grows_insert (v := v.finished e urls) hv' hparsed
    refine ⟨(h.table.weaken (List.subset_cons_self _ _)).trans (hput.weaken ?_), h.memo⟩
    exact List.cons_subset.2 ⟨List.mem_cons_self, List.nil_subset _⟩

/-! ## Once more -/

/-- What the computation comes to from `p` it comes to again, and changes
nothing: a result from every later state, an error from where it failed. -/
structure Replays (s : Surroundings) (x : Resolving α) (p : Progress) : Prop where
  done : ∀ {a q}, (x.run.run p : Except Error α × Progress) = (.ok a, q) →
    ∀ {W r}, s.Onward W q r → (x.run.run r : Except Error α × Progress) = (.ok a, r)
  failed : ∀ {e q}, (x.run.run p : Except Error α × Progress) = (.error e, q) →
    (x.run.run q : Except Error α × Progress) = (.error e, q)

theorem replays_pure (a : α) (p : Progress) : s.Replays (pure a) p where
  done h _ _ _ := by
    cases h
    rfl
  failed h := nomatch h

theorem replays_lift (x : Except Error α) (p : Progress) : s.Replays (liftM x) p := by
  cases x with
  | ok a => exact replays_pure a p
  | error e =>
    refine ⟨fun h => (nomatch h), fun h => ?_⟩
    cases h
    rfl

/-- The first computation is done again in a state to which the second one
leads. -/
theorem Replays.bind {x : Resolving α} {f : α → Resolving β} (hx : s.Replays x p)
    (hf : ∀ a q, (x.run.run p : Except Error α × Progress) = (.ok a, q) → s.Replays (f a) q)
    (hleads : ∀ a, Leads (s.Onward W) (f a)) : s.Replays (x >>= f) p := by
  rcases hrun : (x.run.run p : Except Error α × Progress) with ⟨e | a, q'⟩
  · refine ⟨fun {b q} h => ?_, fun {e' q} h => ?_⟩
    · rw [run_bind, hrun] at h
      cases h
    · rw [run_bind, hrun] at h
      cases h
      rw [run_bind, hx.failed hrun]
  · refine ⟨fun {b q} h W' r hr => ?_, fun {e q} h => ?_⟩
    · rw [run_bind, hrun] at h
      rw [run_bind, hx.done hrun (((hleads a).of_run h).join hr)]
      exact (hf a q' hrun).done h hr
    · rw [run_bind, hrun] at h
      rw [run_bind, hx.done hrun ((hleads a).of_run h)]
      exact (hf a q' hrun).failed h

/-- What is done with the state may hang on what no later state changes. -/
theorem Replays.get {f : Progress → Resolving α} (hf : s.Replays (f p) p) (hleads : Leads (s.Onward W) (f p))
    (hsame : ∀ W q, s.Onward W p q → f q = f p) : s.Replays (get >>= f) p := by
  refine ⟨fun {a q} h W' r hr => ?_, fun {e q} h => ?_⟩
  · rw [run_get] at h
    rw [run_get, hsame _ r ((hleads.of_run h).join hr)]
    exact hf.done h hr
  · rw [run_get] at h
    rw [run_get, hsame _ q (hleads.of_run h)]
    exact hf.failed h

theorem replays_external? (ident : Ident) (p : Progress) : s.Replays (s.external? ident) p := by
  unfold external?
  rcases Table.findLast? s.externals ident with _ | v
  · exact replays_pure _ p
  rcases hx : p.memo.relocate v s.file with e | ⟨x, memo⟩
  · refine ⟨fun {a q} h => ?_, fun {e' q} h => ?_⟩
    · simp only [run_get, hx] at h
      cases h
    · simp only [run_get, hx] at h
      cases h
      simp only [run_get, hx]
      rfl
  · refine ⟨fun {a q} h W r hr => ?_, fun {e q} h => ?_⟩
    · simp only [run_get, hx] at h
      cases h
      have hagain := Relocations.relocate_again hx fun target ident y hfile hy => hr.memo ident target y hfile hy
      simp only [run_get, hagain]
      rfl
    · simp only [run_get, hx] at h
      cases h

/-- `settle` comes to the same again, and does not answer yes before the
variable is resolved. -/
structure Steady (s : Surroundings) (W : List Ident) (settle : Ident → Resolving Bool) : Prop where
  replays : ∀ next p, s.Replays (settle next) p
  leads : ∀ next, Leads (s.Onward W) (settle next)
  parsed : ∀ next p, Ends (settle next) p
    (fun b q => b = true → ∀ v, q.table.get? next = .some v → v.parsed = true) fun _ => True

section

variable {settle : Ident → Resolving Bool} (hsettle : s.Steady W settle)
include hsettle

theorem Steady.replays_find? (ref : Reference) (p : Progress) : s.Replays (s.find? settle ref) p := by
  have hpure {x : Option Expansion} : Leads (s.Onward W) (pure x) := (advance_onward s).leads_pure x
  -- what has been found of the variable is read off the state that has it resolved
  have hread {f : Progress → Resolving (Option Expansion)} (hf : ∀ q, Leads (s.Onward W) (f q)) (b : Bool) :
      Leads (s.Onward W) (if b = true then get >>= f else return some Expansion.empty) := by
    intro q
    split
    · simp only [ends_bind, ends_get]
      exact hf q q
    · exact hpure q
  unfold find?
  split
  · exact replays_pure _ p
  refine .get (W := W) ?_ ?_ fun W q hq => ?_
  · split
    · refine (hsettle.replays _ p).bind (fun b q hrun => ?_) (hread fun q => ?_)
      · cases b with
        | false => exact replays_pure _ q
        | true =>
          have hparsed := (ends_iff.1 (hsettle.parsed _ p)).1 _ _ hrun rfl
          simp only [if_true]
          refine .get (W := W) ?_ ?_ fun W r hr => ?_
          · split
            · exact replays_pure _ q
            · exact replays_pure _ q
          · split
            · exact hpure
            · exact hpure
          · rw [hr.get?_of_parsed hparsed]
      · split
        · exact hpure
        · exact hpure
    · exact replays_external? _ p
  · split
    · refine (advance_onward s).leads_bind (hsettle.leads _) (hread fun q => ?_)
      split
      · exact hpure
      · exact hpure
    · exact (advance_onward s).leads_external? _
  · have hlocal : q.table.contains (Ident.ofName s.mode ref.name) = p.table.contains (Ident.ofName s.mode ref.name) := by
      rw [Bool.eq_iff_iff, Table.contains_iff, Table.contains_iff, ← Table.mem_idents, ← Table.mem_idents, hq.table.idents]
    rw [hlocal]

theorem Steady.replays_expand (value : Value) (p : Progress) : s.Replays (value.expand (s.find? settle)) p := by
  have h := advance_onward s
  have hpure (e : Expansion) : Leads (s.Onward W) (pure e) := h.leads_pure e
  have hexpand (value : Value) : Leads (s.Onward W) (value.expand (s.find? settle)) := h.leads_expand hsettle.leads value
  induction value generalizing p with
  | done => exact replays_pure _ p
  | text x rest ih => exact (ih p).bind (fun _ q _ => replays_pure _ q) fun _ => hpure _
  | interpolation inner rest ihi ihr =>
    refine (ihi p).bind (W := W) (fun _ q _ => (ihr q).bind (fun _ r _ => replays_pure _ r) fun _ => hpure _) fun _ => ?_
    exact h.leads_bind (hexpand rest) fun _ => hpure _
  | reference ref rest ih =>
    refine (hsettle.replays_find? ref p).bind (W := W) (fun _ q _ => (ih q).bind (fun _ r _ => replays_pure _ r) fun _ => hpure _)
      fun _ => ?_
    exact h.leads_bind (hexpand rest) fun _ => hpure _
  | guarded ref fallback rest ihf ihr =>
    have hrest (e : Expansion) : Leads (s.Onward W) (rest.expand (s.find? settle) >>= fun e' => pure (e.append e')) :=
      h.leads_bind (hexpand rest) fun _ => hpure _
    refine (hsettle.replays_find? ref p).bind (W := W) (fun found q _ => ?_) fun found => ?_
    · cases found with
      | some e => exact (ihr q).bind (fun _ r _ => replays_pure _ r) fun _ => hpure _
      | none =>
        exact (ihf q).bind (fun e r _ => (ihr r).bind (fun _ r' _ => replays_pure _ r') fun _ => hpure _) hrest
    · cases found with
      | some e => exact hrest e
      | none => exact h.leads_bind (hexpand fallback) hrest

theorem Steady.replays_expandText (text : String) (p : Progress) : s.Replays (s.expandText settle text) p :=
  (replays_lift _ p).bind (fun value q _ => hsettle.replays_expand value q)
    fun value => (advance_onward s).leads_expand hsettle.leads value

end

/-! ## A whole run once more -/

theorem steady_settleAmong {waiting : List Ident}
    (hleads : ∀ next ∈ waiting, Leads (s.Onward (next :: waiting.erase next)) (s.resolve (waiting.erase next) next))
    (hreplays : ∀ next ∈ waiting, ∀ p, s.Replays (s.resolve (waiting.erase next) next) p) :
    s.Steady waiting (s.settleAmong waiting) where
  replays next p := by
    unfold settleAmong
    split
    · rename_i hnext
      refine (hreplays next hnext p).bind (W := waiting) (fun _ q _ => replays_pure _ q) fun _ => ?_
      exact (advance_onward s).leads_pure _
    · exact replays_pure _ p
  leads := (advance_onward s).leads_settleAmong hleads
  parsed next p := by
    unfold settleAmong
    split
    · refine ends_bind.2 ((parsed_resolve _ next p).mono (fun _ q hq => ends_pure.2 fun _ => hq) fun _ _ => trivial)
    · exact ends_pure.2 fun h => nomatch h

/-- Where it fails, the record under way is as it was, for it is not among those
that are waiting. -/
theorem replays_resolve {waiting : List Ident} {ident : Ident} (hw : waiting.Nodup) (hi : ident ∉ waiting) (p : Progress) :
    s.Replays (s.resolve waiting ident) p := by
  induction waiting using Table.erase_induction generalizing ident p with
  | step waiting ih =>
    have h := advance_onward s
    have hsettle := steady_settleAmong (fun next _ => h.leads_resolve (hw.erase next) hw.not_mem_erase)
      fun next hnext => ih next hnext (hw.erase next) hw.not_mem_erase
    refine ⟨fun {_ q} hrun W r hr => ?_, fun {error q} hrun => ?_⟩
    · have hparsed := (ends_iff.1 (parsed_resolve waiting ident p)).1 _ q hrun
      exact run_resolve_parsed waiting fun v hv => hparsed v (hr.get?_of_parsed hparsed ▸ hv)
    by_cases hdone : ∀ v, p.table.get? ident = .some v → v.parsed = true
    · rw [run_resolve_parsed waiting hdone] at hrun
      cases hrun
    push Not at hdone
    obtain ⟨v, hv, hparsed⟩ := hdone
    obtain rfl : v.ident = ident := Table.ident_of_get? hv
    have hparsed := Bool.eq_false_iff.2 hparsed
    have hexpand := hsettle.replays_expandText v.raw p
    have hleads := h.leads_expandText hsettle.leads v.raw
    rw [run_resolve waiting hv hparsed] at hrun
    rcases hx : ((s.expandText (s.settleAmong waiting) v.raw).run.run p : Except Error Expansion × Progress)
      with ⟨e | e, q'⟩
    · rw [hx] at hrun
      cases hrun
      have hv' := (hleads.of_run hx).table.others v.ident v hv hi
      rw [run_resolve waiting hv' hparsed, hexpand.failed hx]
    · rw [hx] at hrun
      rcases hurls : RelativeUrls.ofValue e.1 v.source with e' | urls
      · simp only [hurls] at hrun
        cases hrun
        have hv' := (hleads.of_run hx).table.others v.ident v hv hi
        rw [run_resolve waiting hv' hparsed, hexpand.done hx (.refl s [] _)]
        simp only [hurls]
      · simp only [hurls] at hrun
        cases hrun

theorem steady {waiting : List Ident} (hw : waiting.Nodup) : s.Steady waiting (s.settleAmong waiting) :=
  steady_settleAmong (fun next _ => (advance_onward s).leads_resolve (hw.erase next) hw.not_mem_erase)
    fun next _ => replays_resolve (hw.erase next) hw.not_mem_erase

theorem replays_resolveAll {locals : List Ident} (hl : locals.Nodup) {order : List Ident} (ho : order ⊆ locals) (p : Progress) :
    s.Replays (s.resolveAll locals order) p := by
  induction order generalizing p with
  | nil => exact replays_pure _ p
  | cons ident order ih =>
    obtain ⟨-, ho⟩ := List.cons_subset.1 ho
    refine (replays_resolve (hl.erase ident) hl.not_mem_erase p).bind (W := locals) (fun _ q _ => ih ho q) fun _ => ?_
    exact (advance_onward s).leads_resolveAll hl ho

/-! ## Whole records -/

/-- The variable with all that its value comes to, which in the state `q` it
comes to as it is: nothing is left to resolve for it. -/
def Completed (s : Surroundings) (q : Progress) (v w : Variable) : Prop :=
  ∃ waiting e urls, (v.ident :: waiting).Nodup ∧
    ((s.expandText (s.settleAmong waiting) v.raw).run.run q : Except Error Expansion × Progress) = (.ok e, q) ∧
    RelativeUrls.ofValue e.1 v.source = .ok urls ∧ w = v.finished e urls

theorem Completed.onward {v w : Variable} (h : s.Completed q v w) (hr : s.Onward W q r) : s.Completed r v w := by
  obtain ⟨waiting, e, urls, hn, hrun, hurls, hw⟩ := h
  have hsettle := steady (s := s) (List.nodup_cons.1 hn).2
  exact ⟨waiting, e, urls, hn, (hsettle.replays_expandText v.raw q).done hrun hr, hurls, hw⟩

/-- The record is as it was, or resolved as a whole. -/
def Whole (s : Surroundings) (q : Progress) (v w : Variable) : Prop := w = v ∨ v.parsed = false ∧ s.Completed q v w

theorem Whole.ident {v w : Variable} (h : s.Whole q v w) : w.ident = v.ident := by
  rcases h with rfl | ⟨-, _, _, _, -, -, -, rfl⟩
  · rfl
  · rfl

theorem Whole.onward {v w : Variable} (h : s.Whole q v w) (hr : s.Onward W q r) : s.Whole r v w :=
  h.imp_right fun h => ⟨h.1, h.2.onward hr⟩

/-- What is resolved is not resolved a second time. -/
theorem Whole.trans {u v w : Variable} (h : s.Whole q u v) (hr : s.Onward W q r) (h' : s.Whole r v w) : s.Whole r u w := by
  rcases h with rfl | h
  · exact h'
  · rcases h' with rfl | ⟨hparsed, -⟩
    · exact .inr ⟨h.1, h.2.onward hr⟩
    · obtain ⟨-, _, _, _, -, -, -, rfl⟩ := h
      cases hparsed

/-- From `p` to `q`, every record stays whole. -/
structure Completes (s : Surroundings) (W : List Ident) (p q : Progress) : Prop extends s.Onward W p q where
  records : List.Forall₂ (s.Whole q) p.table.records q.table.records

theorem Completes.refl (W : List Ident) (p : Progress) : s.Completes W p p :=
  ⟨.refl s W p, List.forall₂_same.2 fun _ _ => .inl rfl⟩

theorem Completes.trans (h : s.Completes W p q) (h' : s.Completes W q r) : s.Completes W p r := by
  refine ⟨h.toOnward.trans h'.toOnward, List.forall₂_iff_get.2 ⟨?_, fun i hi hi' => ?_⟩⟩
  · exact h.records.length_eq.trans h'.records.length_eq
  · have hj := h.records.length_eq ▸ hi
    exact (h.records.get hi hj).trans h'.toOnward (h'.records.get hj hi')

theorem advance_completes (s : Surroundings) : s.Advance s.Completes where
  refl := .refl
  trans := .trans
  weaken hW h := ⟨h.toOnward.weaken hW, h.records⟩
  memo {W p i v x memo} hv hx := ⟨(advance_onward s).memo hv hx, List.forall₂_same.2 fun _ _ => .inl rfl⟩
  record {waiting p q v e urls} hn hv hparsed hrun h hurls := by
    obtain ⟨hi, hw⟩ := List.nodup_cons.1 hn
    have honward := (advance_onward s).record hn hv hparsed hrun h.toOnward hurls
    -- from the state in which the value came out, only this record has changed
    have hv' : q.table.get? v.ident = .some v := h.table.others v.ident v hv hi
    have hput : s.Onward [v.ident] q { q with table := q.table.insert (v.finished e urls) } :=
      ⟨Table.grows_insert (v := v.finished e urls) hv' hparsed, fun _ _ _ _ h => h⟩
    refine ⟨honward, Table.forall₂_insert (fun _ _ h => h.ident) (h.records.imp fun _ _ h => h.onward hput) hv (.inr ?_)⟩
    refine ⟨hparsed, waiting, e, urls, hn, ?_, hurls, rfl⟩
    exact ((steady hw).replays_expandText v.raw p).done hrun hput

/-- Where the resolution of a table fails, every record is as it was or resolved
as a whole, the variables are the ones they were, in order, and a second run
fails in the same way and changes nothing. -/
theorem resolveTable_fails {error : Error}
    (h : (s.resolveTable.run.run p : Except Error Unit × Progress) = (.error error, q)) :
    q.table.idents = p.table.idents ∧ List.Forall₂ (s.Whole q) p.table.records q.table.records ∧
      (s.resolveTable.run.run q : Except Error Unit × Progress) = (.error error, q) := by
  have hleads := ((advance_completes s).leads_resolveAll p.table.nodup_idents (List.Subset.refl _)).of_run h
  have hidents : q.table.idents = p.table.idents := hleads.table.idents
  refine ⟨hidents, hleads.records, ?_⟩
  have hreplays := (replays_resolveAll p.table.nodup_idents (List.Subset.refl _) p).failed h
  rw [← hidents] at hreplays
  exact hreplays

/-- Four variables: the value of the last does not end, and the third refers to
that. -/
def faltering : Table :=
  .ofList [
    { ident := .ofName .debug "$a", name := "$a", raw := "$d 2px" },
    { ident := .ofName .debug "$d", name := "$d", raw := "1px" },
    { ident := .ofName .debug "$b", name := "$b", raw := "$a $c" },
    { ident := .ofName .debug "$c", name := "$c", raw := "url(a b)" }]

/-- Two variables are resolved, the other two are not. -/
theorem resolveTable_fails_faltering :
    ∃ error q,
      (importing.resolveTable.run.run ⟨faltering, {}⟩ : Except Error Unit × Progress) = (.error error, q) ∧
        q.table.records.map (fun v => (v.name, v.resolved, v.dependencies.length, v.parsed)) =
          [("$a", "1px 2px", 1, true), ("$d", "1px", 0, true), ("$b", "", 0, false), ("$c", "", 0, false)] ∧
        q.table.idents = faltering.idents ∧ List.Forall₂ (importing.Whole q) faltering.records q.table.records ∧
        (importing.resolveTable.run.run q : Except Error Unit × Progress) = (.error error, q) := by
  have hfails : (fun run : Except Error Unit × Progress =>
      (run.1.toBool, run.2.table.records.map fun v => (v.name, v.resolved, v.dependencies.length, v.parsed)))
      (importing.resolveTable.run.run ⟨faltering, {}⟩) =
        (false, [("$a", "1px 2px", 1, true), ("$d", "1px", 0, true), ("$b", "", 0, false), ("$c", "", 0, false)]) := by
    decide +kernel
  rcases hrun : (importing.resolveTable.run.run ⟨faltering, {}⟩ : Except Error Unit × Progress) with ⟨error | _, q⟩
  · rw [hrun] at hfails
    exact ⟨error, q, rfl, (Prod.mk.inj hfails).2, resolveTable_fails hrun⟩
  · rw [hrun] at hfails
    cases hfails

end ThemeVars.Surroundings
