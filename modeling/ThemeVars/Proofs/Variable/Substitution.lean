/-
What references stand for, as a relation without memo, table updates or a set
of variables under way. `Expands.unique`: a value has at most one expansion.
`Expands.congr`: an expansion depends on what a table holds, not on the order
of its records.
-/
import Mathlib.Logic.Relation
import ThemeVars.Variable.Resolution
import ThemeVars.Proofs.Variable.Table

namespace ThemeVars

/-- A reference gives the text of the variable, and depends on it and on what it
depends on if there is a text. -/
theorem Expansion.ofVariable_eq (ident : Ident) (text : String) (dependencies : List Ident) :
    ofVariable ident text dependencies = (text, if text = "" then [] else OrderedSet.insert ident dependencies) := by
  unfold ofVariable
  by_cases htext : text = ""
  · rw [htext]
    rfl
  · rw [if_neg (by simpa using htext), if_neg htext]

namespace Surroundings

variable (s : Surroundings) (t : Table)

/-- The ident of the variable that is referred to. -/
def target (r : Reference) : Ident := Ident.ofName s.mode r.name

/-- The value of an external variable as the file has to write it. -/
def imported (v : Variable) : Except Error String :=
  match v.urls, s.file with
  | .some urls, .some file => Relocations.compute v urls file
  | _, _ => .ok v.resolved

/-- What the text of a value is read as, its priority markers dropped. -/
def reading (text : String) : Except Error Value := Value.parse s.dialect.sigil? (Value.stripPriority text)

/-- The value with every reference replaced by what it stands for, and the
variables that it depends on: a local record first, then the last external
table that has the name, then the fallback. What is replaced by no text adds no
dependency. -/
inductive Expands : Value → Expansion → Prop
  | done : Expands .done .empty
  | text {x rest e} : Expands rest e → Expands (.text x rest) (Expansion.append (x, []) e)
  | interpolation {inner rest a b} :
    Expands inner a → Expands rest b → Expands (.interpolation inner rest) (a.append b)
  /-- Without a fallback, the empty value is the fallback. -/
  | reference {r rest e} : Expands (.guarded r .done rest) e → Expands (.reference r rest) e
  | blank {r fallback rest e} :
    r.name.isEmpty = true → Expands rest e → Expands (.guarded r fallback rest) (Expansion.empty.append e)
  /-- A local record gives its own expansion, and depends on itself no more. -/
  | record {r fallback rest v value a urls b} :
    r.name.isEmpty = false → t.get? (s.target r) = .some v → s.reading v.raw = .ok value → Expands value a →
    RelativeUrls.ofValue a.1 v.source = .ok urls → Expands rest b →
    Expands (.guarded r fallback rest)
      (Expansion.append (a.1, if a.1 = "" then [] else OrderedSet.insert v.ident (OrderedSet.remove v.ident a.2)) b)
  | external {r fallback rest v x b} :
    r.name.isEmpty = false → t.get? (s.target r) = .none → Table.findLast? s.externals (s.target r) = .some v →
    s.imported v = .ok x → Expands rest b →
    Expands (.guarded r fallback rest)
      (Expansion.append (x, if x = "" then [] else OrderedSet.insert (s.target r) v.dependencies) b)
  | fallback {r fallback rest a b} :
    r.name.isEmpty = false → t.get? (s.target r) = .none → Table.findLast? s.externals (s.target r) = .none →
    Expands fallback a → Expands rest b → Expands (.guarded r fallback rest) (a.append b)

/-- What the text is read as has this expansion. -/
def TextExpands (text : String) (e : Expansion) : Prop := ∃ value, s.reading text = .ok value ∧ s.Expands t value e

/-- The record `v` comes to `w` when it is resolved. -/
def Settles (v w : Variable) : Prop :=
  ∃ e urls, s.TextExpands t v.raw e ∧ RelativeUrls.ofValue e.1 v.source = .ok urls ∧
    w = { v with resolved := e.1, dependencies := OrderedSet.remove v.ident e.2, urls, parsed := true }

/-- The local variable `i` refers to the local variable `j`, be it in an
interpolation or a fallback. -/
def Refers (i j : Ident) : Prop :=
  ∃ v value r, t.get? i = .some v ∧ s.reading v.raw = .ok value ∧ r ∈ value.references ∧ r.name.isEmpty = false ∧
    s.target r = j ∧ t.contains j = true

/-- No local variable leads back to itself. -/
def Acyclic : Prop := ∀ i, ¬ Relation.TransGen (s.Refers t) i i

variable {s t}

/-- A value has at most one expansion. -/
theorem Expands.unique {value : Value} {e f : Expansion} (he : s.Expands t value e) (hf : s.Expands t value f) :
    e = f := by
  induction he generalizing f with
  | done =>
    cases hf
    rfl
  | text _ ih =>
    cases hf with
    | text hf => rw [ih hf]
  | interpolation _ _ iha ihb =>
    cases hf with
    | interpolation ha hb => rw [iha ha, ihb hb]
  | reference _ ih =>
    cases hf with
    | reference hf => exact ih hf
  | blank hr _ ih =>
    cases hf with
    | blank _ hf => rw [ih hf]
    | record hr' => simp [hr] at hr'
    | external hr' => simp [hr] at hr'
    | fallback hr' => simp [hr] at hr'
  | record hr hv hp _ _ _ iha ihb =>
    cases hf with
    | blank hr' => simp [hr] at hr'
    | record _ hv' hp' ha' _ hb' =>
      cases hv.symm.trans hv'
      cases hp.symm.trans hp'
      rw [iha ha', ihb hb']
    | external _ hv' => cases hv.symm.trans hv'
    | fallback _ hv' => cases hv.symm.trans hv'
  | external hr hv hx hi _ ihb =>
    cases hf with
    | blank hr' => simp [hr] at hr'
    | record _ hv' => cases hv.symm.trans hv'
    | external _ _ hx' hi' hb' =>
      cases hx.symm.trans hx'
      cases hi.symm.trans hi'
      rw [ihb hb']
    | fallback _ _ hx' => cases hx.symm.trans hx'
  | fallback hr hv hx _ _ iha ihb =>
    cases hf with
    | blank hr' => simp [hr] at hr'
    | record _ hv' => cases hv.symm.trans hv'
    | external _ _ hx' => cases hx.symm.trans hx'
    | fallback _ _ _ ha' hb' => rw [iha ha', ihb hb']

theorem TextExpands.unique {text : String} {e f : Expansion} (he : s.TextExpands t text e)
    (hf : s.TextExpands t text f) : e = f := by
  obtain ⟨value, hp, he⟩ := he
  obtain ⟨value', hp', hf⟩ := hf
  cases hp.symm.trans hp'
  exact he.unique hf

/-- A record comes to one record at most. -/
theorem Settles.unique {v w x : Variable} (hw : s.Settles t v w) (hx : s.Settles t v x) : w = x := by
  obtain ⟨e, urls, he, hu, rfl⟩ := hw
  obtain ⟨e', urls', he', hu', rfl⟩ := hx
  cases he.unique he'
  cases hu.symm.trans hu'
  rfl

theorem Settles.ident {v w : Variable} (h : s.Settles t v w) : w.ident = v.ident := by
  obtain ⟨-, -, -, -, rfl⟩ := h
  rfl

theorem Settles.parsed {v w : Variable} (h : s.Settles t v w) : w.parsed = true := by
  obtain ⟨-, -, -, -, rfl⟩ := h
  rfl

/-- What a table holds decides what values expand to. -/
theorem Expands.congr {u : Table} (h : ∀ i, t.get? i = u.get? i) {value : Value} {e : Expansion}
    (he : s.Expands t value e) : s.Expands u value e := by
  induction he with
  | done => exact .done
  | text _ ih => exact .text ih
  | interpolation _ _ iha ihb => exact .interpolation iha ihb
  | reference _ ih => exact .reference ih
  | blank hr _ ih => exact .blank hr ih
  | record hr hv hp _ hu _ iha ihb => exact .record hr (h _ ▸ hv) hp iha hu ihb
  | external hr hv hx hi _ ihb => exact .external hr (h _ ▸ hv) hx hi ihb
  | fallback hr hv hx _ _ iha ihb => exact .fallback hr (h _ ▸ hv) hx iha ihb

theorem Settles.congr {u : Table} (h : ∀ i, t.get? i = u.get? i) {v w : Variable} (hw : s.Settles t v w) :
    s.Settles u v w := by
  obtain ⟨e, urls, ⟨value, hp, he⟩, hu, hw⟩ := hw
  exact ⟨e, urls, ⟨value, hp, he.congr h⟩, hu, hw⟩

theorem Refers.congr {u : Table} (h : ∀ i, t.get? i = u.get? i) {i j : Ident} (hij : s.Refers t i j) :
    s.Refers u i j := by
  obtain ⟨v, value, r, hv, hp, hr, hn, hj, hc⟩ := hij
  rw [Table.contains_iff] at hc
  exact ⟨v, value, r, h i ▸ hv, hp, hr, hn, hj, Table.contains_iff.2 (h j ▸ hc)⟩

theorem Acyclic.congr {u : Table} (h : ∀ i, t.get? i = u.get? i) (ha : s.Acyclic t) : s.Acyclic u :=
  fun i hi => ha i (Relation.TransGen.mono (fun _ _ hij => Refers.congr (fun k => (h k).symm) hij) _ _ hi)

/-- Where references lead to ever lower ranks, none leads back. -/
theorem Acyclic.of_rank (rank : Ident → Nat) (h : ∀ i j, s.Refers t i j → rank j < rank i) : s.Acyclic t := by
  have hlt : ∀ i j, Relation.TransGen (s.Refers t) i j → rank j < rank i := by
    intro i j hij
    induction hij with
    | single hij => exact h _ _ hij
    | tail _ hjk ih => exact Nat.lt_trans (h _ _ hjk) ih
  exact fun i hi => Nat.lt_irrefl _ (hlt i i hi)

/-! ## What a reference gives -/

/-- What a reference is replaced by, if it is not by its fallback. -/
inductive Gives (s : Surroundings) (t : Table) (r : Reference) : Option Expansion → Prop
  | blank : r.name.isEmpty = true → Gives s t r (.some .empty)
  | record {v w} : r.name.isEmpty = false → t.get? (s.target r) = .some v → s.Settles t v w →
    Gives s t r (.some (.ofVariable (s.target r) w.resolved w.dependencies))
  | external {v x} : r.name.isEmpty = false → t.get? (s.target r) = .none →
    Table.findLast? s.externals (s.target r) = .some v → s.imported v = .ok x →
    Gives s t r (.some (.ofVariable (s.target r) x v.dependencies))
  | missing : r.name.isEmpty = false → t.get? (s.target r) = .none →
    Table.findLast? s.externals (s.target r) = .none → Gives s t r .none

/-- A reference that is found expands to what it gives, before the rest. -/
theorem Gives.expands_some {r : Reference} {a b : Expansion} {rest : Value} (h : s.Gives t r (.some a))
    (hb : s.Expands t rest b) (fallback : Value) : s.Expands t (.guarded r fallback rest) (a.append b) := by
  cases h with
  | blank hr => exact .blank hr hb
  | record hr hv hw =>
    obtain ⟨e, urls, ⟨value, hp, he⟩, hu, rfl⟩ := hw
    have h : s.Expands t (.guarded r fallback rest) _ := .record hr hv hp he hu hb
    rw [Table.ident_of_get? hv] at h
    rw [Table.ident_of_get? hv, Expansion.ofVariable_eq]
    exact h
  | external hr hv hx hi =>
    rw [Expansion.ofVariable_eq]
    exact .external hr hv hx hi hb

theorem Gives.expands_none {r : Reference} {a b : Expansion} {fallback rest : Value} (h : s.Gives t r .none)
    (ha : s.Expands t fallback a) (hb : s.Expands t rest b) :
    s.Expands t (.guarded r fallback rest) (a.append b) := by
  cases h with
  | missing hr hv hx => exact .fallback hr hv hx ha hb

/-- What expands at a reference has a reference that gives something, a rest
that expands, and a fallback that does where it is used. -/
theorem Expands.guarded_inv {r : Reference} {fallback rest : Value} {e : Expansion}
    (h : s.Expands t (.guarded r fallback rest) e) :
    (∃ b, s.Expands t rest b) ∧
      ((∃ a, s.Gives t r (.some a)) ∨ s.Gives t r .none ∧ ∃ a, s.Expands t fallback a) := by
  cases h with
  | blank hr hb => exact ⟨⟨_, hb⟩, .inl ⟨_, .blank hr⟩⟩
  | record hr hv hp ha hu hb =>
    exact ⟨⟨_, hb⟩, .inl ⟨_, .record hr hv ⟨_, _, ⟨_, hp, ha⟩, hu, rfl⟩⟩⟩
  | external hr hv hx hi hb => exact ⟨⟨_, hb⟩, .inl ⟨_, .external hr hv hx hi⟩⟩
  | fallback hr hv hx ha hb => exact ⟨⟨_, hb⟩, .inr ⟨.missing hr hv hx, _, ha⟩⟩

theorem Gives.not_some {r : Reference} (h : s.Gives t r .none) (a : Expansion) : ¬ s.Gives t r (.some a) := by
  cases h with
  | missing hr hv hx =>
    intro ha
    cases ha with
    | blank hr' => simp [hr] at hr'
    | record _ hv' => cases hv.symm.trans hv'
    | external _ _ hx' => cases hx.symm.trans hx'

end Surroundings

end ThemeVars
