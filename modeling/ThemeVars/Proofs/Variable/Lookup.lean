/-
Resolution on a resolved table. `comes_resolveValue`: it comes to the value with
what `found` says in the place of each reference, and changes nothing but the
memo. `Expands.found`: on the table that the records were resolved in, this is
what the value expands to.
-/
import ThemeVars.Proofs.Variable.Resolution

namespace ThemeVars.Surroundings

variable (s : Surroundings) (t : Table)

/-- What stands for a reference in a table that is resolved; nothing, where its
fallback does. -/
def found (r : Reference) : Except Error (Option Expansion) :=
  if r.name.isEmpty then .ok (.some .empty)
  else
    match t.get? (s.target r) with
    | .some v => .ok (.some (.ofVariable (s.target r) v.resolved v.dependencies))
    | .none =>
      match Table.findLast? s.externals (s.target r) with
      | .some v => (s.imported v).map fun x => .some (.ofVariable (s.target r) x v.dependencies)
      | .none => .ok .none

section

variable {s t} {r : Reference} {v : Variable} (hr : r.name.isEmpty = false)
include hr

theorem found_declared (hv : t.get? (s.target r) = .some v) :
    s.found t r = .ok (.some (.ofVariable (s.target r) v.resolved v.dependencies)) := by
  rw [found, hr, if_neg Bool.false_ne_true, hv]

theorem found_external (ht : t.get? (s.target r) = .none) (hv : Table.findLast? s.externals (s.target r) = .some v)
    {value : String} (hi : s.imported v = .ok value) :
    s.found t r = .ok (.some (.ofVariable (s.target r) value v.dependencies)) := by
  simp only [found, hr, if_neg Bool.false_ne_true, ht, hv, hi]
  rfl

theorem found_missing (ht : t.get? (s.target r) = .none) (hv : Table.findLast? s.externals (s.target r) = .none) :
    s.found t r = .ok .none := by
  simp only [found, hr, if_neg Bool.false_ne_true, ht, hv]

end

/-- The text of a value with each reference looked up. -/
def lookedUp (text : String) : Except Error Expansion := do
  let value ← s.reading text
  value.expand (s.found t)

/-! ## Resolution -/

variable {α β : Type}

/-- On the table, with a faithful memo, the computation comes to this, leaves the
table as it is and the memo faithful. -/
def Comes (x : Resolving α) (y : Except Error α) : Prop :=
  ∀ memo, s.Faithful memo → ∃ memo', s.Faithful memo' ∧ (x.run.run ⟨t, memo⟩ : Except Error α × Progress) = (y, ⟨t, memo'⟩)

variable {s t}

theorem comes_pure (a : α) : s.Comes t (pure a) (.ok a) := fun memo hm => ⟨memo, hm, rfl⟩

theorem comes_lift (x : Except Error α) : s.Comes t (liftM x) x := by
  intro memo hm
  cases x with
  | error e => exact ⟨memo, hm, rfl⟩
  | ok a => exact ⟨memo, hm, rfl⟩

theorem Comes.bind {x : Resolving α} {y : Except Error α} {f : α → Resolving β} {g : α → Except Error β} (h : s.Comes t x y)
    (hf : ∀ a, y = .ok a → s.Comes t (f a) (g a)) : s.Comes t (x >>= f) (y >>= g) := by
  intro memo hm
  obtain ⟨memo', hm', hx⟩ := h memo hm
  rw [run_bind, hx]
  cases y with
  | error e => exact ⟨memo', hm', rfl⟩
  | ok a => exact hf a rfl memo' hm'

/-- After a step that cannot fail. -/
theorem Comes.andThen {x : Resolving α} {a : α} {f : α → Resolving β} {y : Except Error β} (h : s.Comes t x (.ok a))
    (hf : s.Comes t (f a) y) : s.Comes t (x >>= f) y := by
  intro memo hm
  obtain ⟨memo', hm', hx⟩ := h memo hm
  rw [run_bind, hx]
  exact hf memo' hm'

theorem comes_get {f : Progress → Resolving α} {y : Except Error α} (h : ∀ memo, s.Faithful memo → s.Comes t (f ⟨t, memo⟩) y) :
    s.Comes t (get >>= f) y := fun memo hm => h memo hm memo hm

theorem comes_external? (ident : Ident) :
    s.Comes t (s.external? ident)
      (match Table.findLast? s.externals ident with
        | .some v => (s.imported v).map fun x => .some (.ofVariable ident x v.dependencies)
        | .none => .ok .none) := by
  unfold external?
  rcases hv : Table.findLast? s.externals ident with _ | v
  · exact comes_pure _
  · intro memo hm
    obtain ⟨hok, herror⟩ := relocate_faithful hm hv
    rw [run_get]
    rcases hx : memo.relocate v s.file with e | ⟨x, memo'⟩
    · simp only [herror e hx]
      exact ⟨memo, hm, rfl⟩
    · obtain ⟨hi, hm'⟩ := hok x memo' hx
      simp only [hi]
      exact ⟨memo', hm', rfl⟩

section

variable {settle : Ident → Resolving Bool} (h : ∀ ident, t.contains ident = true → s.Comes t (settle ident) (.ok true))
include h

theorem comes_find? (r : Reference) : s.Comes t (s.find? settle r) (s.found t r) := by
  unfold find? found
  split
  · exact comes_pure _
  · refine comes_get fun memo _ => ?_
    change s.Comes t (if t.contains (s.target r) = true then _ else _) _
    split
    · rename_i hc
      obtain ⟨v, hv⟩ := Table.contains_iff.1 hc
      refine (h _ hc).andThen (comes_get fun memo _ => ?_)
      change s.Comes t (match t.get? (s.target r) with | .some v => _ | .none => _) _
      rw [hv]
      exact comes_pure _
    · rename_i hc
      rw [Bool.not_eq_true, Table.contains_eq_false] at hc
      rw [hc]
      exact comes_external? _

theorem comes_expand (value : Value) : s.Comes t (value.expand (s.find? settle)) (value.expand (s.found t)) := by
  induction value with
  | done => exact comes_pure _
  | text x rest ih => exact ih.bind fun _ _ => comes_pure _
  | interpolation inner rest ihi ihr => exact ihi.bind fun _ _ => ihr.bind fun _ _ => comes_pure _
  | reference r rest ih => exact (comes_find? h r).bind fun _ _ => ih.bind fun _ _ => comes_pure _
  | guarded r fallback rest ihf ihr =>
    refine (comes_find? h r).bind fun found _ => ?_
    cases found with
    | some e => exact ihr.bind fun _ _ => comes_pure _
    | none => exact ihf.bind fun _ _ => ihr.bind fun _ _ => comes_pure _

end

/-- In a table that is resolved, resolving a variable does nothing. -/
theorem comes_resolve (ht : ∀ v ∈ t.records, v.parsed = true) (waiting : List Ident) (ident : Ident) :
    s.Comes t (s.resolve waiting ident) (.ok ()) := by
  rw [resolve]
  refine comes_get fun memo _ => ?_
  simp only
  rcases hv : t.get? ident with _ | v
  · exact comes_pure _
  · simp only [ht v (Table.mem_of_get? hv), if_true]
    exact comes_pure _

/-- Nor does resolving a value change the table. -/
theorem comes_resolveValue (ht : ∀ v ∈ t.records, v.parsed = true) (text : String) :
    s.Comes t (s.resolveValue text) (s.lookedUp t text) := by
  refine comes_get fun memo _ => (comes_lift _).bind fun value _ => comes_expand (fun ident hident => ?_) value
  have hmem : t.idents.contains ident = true :=
    List.contains_iff_mem.2 (Table.mem_idents.2 (Table.contains_iff.1 hident))
  change s.Comes t (if t.idents.contains ident = true then _ else _) _
  rw [if_pos hmem]
  exact (comes_resolve ht _ ident).andThen (comes_pure true)

/-! ## Expansions -/

/-- Without a fallback, nothing is the fallback. -/
theorem expand_reference (find : Reference → Except Error (Option Expansion)) (r : Reference) (rest : Value) :
    (Value.reference r rest).expand find = (Value.guarded r .done rest).expand find := by
  rw [Value.expand, Value.expand]
  cases find r with
  | error e => rfl
  | ok found =>
    cases found with
    | none => rfl
    | some e => rfl

section

variable {u : Table} (hu : List.Forall₂ (s.Settles t) t.records u.records)
include hu

/-- What a reference gives is found in the table that is resolved. -/
theorem Gives.found {r : Reference} {o : Option Expansion} (h : s.Gives t r o) : s.found u r = .ok o := by
  have hrel : Option.Rel (s.Settles t) (t.get? (s.target r)) (u.get? (s.target r)) :=
    Table.get?_forall₂ (fun _ _ => Settles.ident) hu _
  have hnone (hv : t.get? (s.target r) = .none) : u.get? (s.target r) = .none := by
    rw [hv] at hrel
    rcases hu : u.get? (s.target r) with _ | w
    · rfl
    · rw [hu] at hrel
      cases hrel
  cases h with
  | blank hr => rw [Surroundings.found, if_pos hr]
  | @record v w hr hv hw =>
    rw [hv] at hrel
    rcases hu : u.get? (s.target r) with _ | w'
    · rw [hu] at hrel
      cases hrel
    · rw [hu] at hrel
      cases hrel with
      | some hw' => rw [found_declared hr hu, hw.unique hw']
  | external hr hv hx hi =>
    exact found_external hr (hnone hv) hx hi
  | missing hr hv hx =>
    exact found_missing hr (hnone hv) hx

/-- In the table that it was resolved to, a value comes to what it expands to. -/
theorem Expands.found {value : Value} {e : Expansion} (h : s.Expands t value e) : value.expand (s.found u) = .ok e := by
  induction h with
  | done => rfl
  | text _ ih =>
    rw [Value.expand, ih]
    rfl
  | interpolation _ _ iha ihb =>
    rw [Value.expand, iha, ihb]
    rfl
  | reference _ ih => rw [expand_reference, ih]
  | blank hr _ ih =>
    rw [Value.expand, (Gives.blank hr).found hu, ih]
    rfl
  | @record r fallback rest v value a urls b hr hv hp ha hurls _ _ ih =>
    have hgives : s.Gives t r (.some (.ofVariable (s.target r) a.1 (OrderedSet.remove v.ident a.2))) :=
      .record (w := { v with resolved := a.1, dependencies := OrderedSet.remove v.ident a.2, urls, parsed := true }) hr hv
        ⟨a, urls, ⟨value, hp, ha⟩, hurls, rfl⟩
    rw [Value.expand, hgives.found hu, ih, Table.ident_of_get? hv, Expansion.ofVariable_eq]
    rfl
  | external hr hv hx hi _ ih =>
    rw [Value.expand, (Gives.external hr hv hx hi).found hu, ih, Expansion.ofVariable_eq]
    rfl
  | fallback hr hv hx _ _ iha ihb =>
    rw [Value.expand, (Gives.missing hr hv hx).found hu, iha, ihb]
    rfl

/-- A variable that is resolved has the text that its value comes to. -/
theorem TextExpands.lookedUp {text : String} {e : Expansion} (h : s.TextExpands t text e) : s.lookedUp u text = .ok e := by
  obtain ⟨value, hvalue, he⟩ := h
  rw [Surroundings.lookedUp, hvalue]
  exact he.found hu

end

end ThemeVars.Surroundings
