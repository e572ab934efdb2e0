/-
Which variables follow the theme. `isReference_iff`: the search for what a
variable depends on, which fails at a variable that it is inside of, finds the
members of the least set that is closed under following. `classify_selects`:
the search ends on every table, and the file's variables are those in the set
and the others, each in the order of the table.
-/
import Mathlib.Data.List.Nodup
import Mathlib.Logic.Relation
import Mathlib.Order.FixedPoints
import Mathlib.Order.CompletePartialOrder
import ThemeVars.Proofs.Variable.Table
import ThemeVars.Variable.Classification

namespace ThemeVars

/-- The part holds the members of the whole with the property, in the order of
the whole and once each. -/
structure Selects (P : Ident → Prop) (whole part : List Ident) : Prop where
  order : part.Sublist whole
  once : part.Nodup
  mem : ∀ i, i ∈ part ↔ i ∈ whole ∧ P i

theorem selects_filter {whole : List Ident} (h : whole.Nodup) {p : Ident → Bool} {P : Ident → Prop}
    (hp : ∀ i, p i = true ↔ P i) : Selects P whole (whole.filter p) where
  order := List.filter_sublist
  once := h.filter p
  mem i := by rw [List.mem_filter, hp]

namespace Classifier

variable {c : Classifier}

/-- What follows the theme as far as these variables do: the file's variables
that depend on something, and on theme variables and these alone. -/
def following (c : Classifier) : Set Ident →o Set Ident where
  toFun R := {i | ∃ v, c.context.get? i = .some v ∧ v.dependencies ≠ [] ∧
    ∀ d ∈ v.dependencies, c.isTheme d = true ∨ d ∈ R}
  monotone' := fun _ _ hle _ ⟨v, hv, hne, hall⟩ => ⟨v, hv, hne, fun d hd => (hall d hd).imp_right fun h => hle h⟩

/-- What follows the theme. -/
def follows (c : Classifier) : Set Ident := c.following.lfp

theorem mem_follows {i : Ident} : i ∈ c.follows ↔ ∃ v, c.context.get? i = .some v ∧ v.dependencies ≠ [] ∧
    ∀ d ∈ v.dependencies, c.isTheme d = true ∨ d ∈ c.follows := by
  have hfix : c.following c.follows = c.follows := c.following.map_lfp
  exact (Set.ext_iff.1 hfix i).symm

/-- The variable `i` depends on `j`, which is not the theme's. -/
def Needs (c : Classifier) (i j : Ident) : Prop :=
  ∃ v, c.context.get? i = .some v ∧ j ∈ v.dependencies ∧ c.isTheme j = false

/-! ## The search -/

/-- Whether the variable depends on something, and on theme variables and what
`ask` answers yes for alone. -/
def isReferenceWith (c : Classifier) (ask : Ident → Bool) (ident : Ident) : Bool :=
  match c.context.get? ident with
  | .none => false
  | .some v => !v.dependencies.isEmpty && v.dependencies.all fun d => c.isTheme d || ask d

theorem isReferenceWith_iff {ask : Ident → Bool} {i : Ident} :
    c.isReferenceWith ask i = true ↔ ∃ v, c.context.get? i = .some v ∧ v.dependencies ≠ [] ∧
      ∀ d ∈ v.dependencies, c.isTheme d = true ∨ ask d = true := by
  unfold isReferenceWith
  rcases c.context.get? i with _ | v
  · simp
  · simp

theorem isReferenceAmong_eq (waiting : List Ident) (i : Ident) :
    c.isReferenceAmong waiting i =
      if i ∈ waiting then c.isReferenceWith (c.isReferenceAmong (waiting.erase i)) i else false := by
  rw [isReferenceAmong]
  rfl

/-- The search answers yes for what follows the theme only. -/
theorem mem_follows_of_isReferenceAmong {waiting : List Ident} {i : Ident} (h : c.isReferenceAmong waiting i = true) :
    i ∈ c.follows := by
  induction waiting using Table.erase_induction generalizing i with
  | step waiting ih =>
    rw [isReferenceAmong_eq] at h
    split at h
    · rename_i hmem
      obtain ⟨v, hv, hne, hall⟩ := isReferenceWith_iff.1 h
      exact mem_follows.2 ⟨v, hv, hne, fun d hd => (hall d hd).imp_right fun hd => ih i hmem hd⟩
    · cases h

/-- What follows the theme needs nothing that needs it in turn, and the search
answers yes for it if all that it needs is waiting: an induction along the least
set. The variable itself is not needed on the way, so that it may be taken out. -/
theorem isReferenceAmong_of_mem_follows {i : Ident} (h : i ∈ c.follows) :
    ¬ Relation.TransGen c.Needs i i ∧
      ∀ waiting : List Ident, (∀ j, Relation.ReflTransGen c.Needs i j → j ∈ c.context.idents → j ∈ waiting) →
        c.isReferenceAmong waiting i = true := by
  let S : Set Ident := {i | ¬ Relation.TransGen c.Needs i i ∧
    ∀ waiting : List Ident, (∀ j, Relation.ReflTransGen c.Needs i j → j ∈ c.context.idents → j ∈ waiting) →
      c.isReferenceAmong waiting i = true}
  suffices hclosed : c.following S ≤ S from c.following.lfp_le hclosed h
  intro i hi
  obtain ⟨v, hv, hne, hall⟩ : ∃ v, c.context.get? i = .some v ∧ v.dependencies ≠ [] ∧
    ∀ d ∈ v.dependencies, c.isTheme d = true ∨ d ∈ S := hi
  have hmem : ∀ d, c.Needs i d → d ∈ S := by
    intro d hd
    obtain ⟨w, hw, hdep, htheme⟩ := hd
    cases hv.symm.trans hw
    exact (hall d hdep).resolve_left (by simp [htheme])
  have hacyclic : ¬ Relation.TransGen c.Needs i i := by
    intro hcycle
    obtain ⟨d, hid, hdi⟩ := Relation.TransGen.head'_iff.1 hcycle
    exact (hmem d hid).1 (Relation.TransGen.tail' hdi hid)
  refine ⟨hacyclic, fun waiting hw => ?_⟩
  rw [isReferenceAmong_eq, if_pos (hw i .refl (Table.mem_idents.2 ⟨v, hv⟩)), isReferenceWith_iff]
  refine ⟨v, hv, hne, fun d hd => ?_⟩
  by_cases htheme : c.isTheme d = true
  · exact .inl htheme
  · have hneeds : c.Needs i d := ⟨v, hv, hd, by simpa using htheme⟩
    refine .inr ((hmem d hneeds).2 _ fun j hj hlocal => ?_)
    have hne : j ≠ i := fun hji => hacyclic (.head' hneeds (hji ▸ hj))
    exact (List.mem_erase_of_ne hne).2 (hw j (.head hneeds hj) hlocal)

theorem isReference_iff {i : Ident} : c.isReference i = true ↔ i ∈ c.follows :=
  ⟨mem_follows_of_isReferenceAmong, fun h => (isReferenceAmong_of_mem_follows h).2 _ fun _ _ hlocal => hlocal⟩

theorem mem_reference {i : Ident} : i ∈ c.classify.reference ↔ i ∈ c.follows := by
  refine ⟨fun h => isReference_iff.1 (List.mem_filter.1 h).2, fun h => List.mem_filter.2 ⟨?_, isReference_iff.2 h⟩⟩
  obtain ⟨v, hv, -⟩ := mem_follows.1 h
  exact Table.mem_idents.2 ⟨v, hv⟩

/-! ## How deep the search nests -/

/-- The search inside of the variables in `visiting`, with at most `depth` calls
one inside the other; what nests deeper is left to `beyond`. -/
def isReferenceNested (c : Classifier) (beyond : Ident → Bool) : Nat → List Ident → Ident → Bool
  | 0, _, ident => beyond ident
  | depth + 1, visiting, ident =>
    if ident ∈ visiting then false
    else c.isReferenceWith (c.isReferenceNested beyond depth (ident :: visiting)) ident

/-- With more calls than there are variables waiting, `beyond` is not asked. -/
theorem isReferenceNested_eq (beyond : Ident → Bool) {depth : Nat} {visiting waiting : List Ident} (hw : waiting.Nodup)
    (hmem : ∀ j, j ∈ waiting ↔ j ∈ c.context.idents ∧ j ∉ visiting) (hdepth : waiting.length < depth) (i : Ident) :
    c.isReferenceNested beyond depth visiting i = c.isReferenceAmong waiting i := by
  induction depth generalizing visiting waiting i with
  | zero => omega
  | succ depth ih =>
    rw [isReferenceNested, isReferenceAmong_eq]
    by_cases hi : i ∈ waiting
    · rw [if_neg ((hmem i).1 hi).2, if_pos hi]
      congr 1
      funext d
      refine ih (hw.erase i) (fun j => ?_) ?_ d
      · rw [hw.mem_erase_iff, hmem, List.mem_cons]
        grind
      · have hpos := List.length_pos_of_mem hi
        rw [List.length_erase_of_mem hi]
        omega
    · rw [if_neg hi]
      split
      · rfl
      · rename_i hvisiting
        rw [← Bool.not_eq_true, isReferenceWith_iff]
        intro hlocal
        obtain ⟨v, hv, -⟩ := hlocal
        exact hi ((hmem i).2 ⟨Table.mem_idents.2 ⟨v, hv⟩, hvisiting⟩)

/-! ## The kinds of variables -/

theorem not_mem_of_isCandidate {i : Ident} (h : c.isCandidate i = true) : i ∉ c.context.idents := by
  intro hi
  have hcontains : c.context.contains i = true := Table.contains_iff.2 (Table.mem_idents.1 hi)
  simp [isCandidate, isTheme, hcontains] at h

/-- Reference variables are the least set that is closed under following. The
search for them ends: its calls nest no deeper than the file has variables, and
one more, whatever `beyond` would answer there. They and the other variables of
the file are listed in the order of its table, the candidates of the theme in
the order of its own, each once, and none of these is declared in the file. -/
theorem classify_selects (c : Classifier) :
    (∀ beyond depth i, c.context.size < depth → c.isReferenceNested beyond depth [] i = c.isReference i) ∧
      (∀ i, c.isReference i = true ↔ i ∈ c.following.lfp) ∧
      Selects (· ∈ c.following.lfp) c.context.idents c.classify.reference ∧
      Selects (· ∉ c.following.lfp) c.context.idents c.classify.context ∧
      Selects (c.isCandidate · = true) c.theme.idents c.classify.theme ∧
      ∀ i ∈ c.classify.theme, i ∉ c.classify.reference ∧ i ∉ c.classify.context := by
  have hfollows : ∀ i, c.isReference i = true ↔ i ∈ c.following.lfp := fun i => isReference_iff
  refine ⟨fun beyond depth i hdepth => ?_, hfollows, selects_filter c.context.nodup_idents hfollows,
    selects_filter c.context.nodup_idents fun i => ?_, selects_filter c.theme.nodup_idents fun _ => .rfl, fun i hi => ?_⟩
  · refine isReferenceNested_eq beyond c.context.nodup_idents (fun j => by simp) ?_ i
    rwa [Table.idents, List.length_map]
  · rw [Bool.not_eq_true', ← hfollows, Bool.not_eq_true]
  · have hlocal := not_mem_of_isCandidate (List.mem_filter.1 hi).2
    exact ⟨fun h => hlocal (List.mem_of_mem_filter h), fun h => hlocal (List.mem_of_mem_filter h)⟩

/-- A theme of one variable, and a file in which one variable follows it, two
need each other, and one needs a variable that there is not. -/
def looped : Classifier where
  context := .ofList [
    { ident := ⟨"--ring"⟩, name := "$ring", raw := "$link $line", dependencies := [⟨"--line"⟩, ⟨"--link"⟩] },
    { ident := ⟨"--line"⟩, name := "$line", raw := "$ring", dependencies := [⟨"--ring"⟩] },
    { ident := ⟨"--link"⟩, name := "$link", raw := "$paint", dependencies := [⟨"--paint"⟩] },
    { ident := ⟨"--lost"⟩, name := "$lost", raw := "$paint $gone", dependencies := [⟨"--gone"⟩, ⟨"--paint"⟩] }]
  theme := .ofList [{ ident := ⟨"--paint"⟩, name := "$paint", raw := "red", resolved := "red" }]
  onlyColor := true

theorem classify_selects_looped :
    looped.isReferenceNested (fun _ => true) 5 [] ⟨"--ring"⟩ = false ∧
      looped.classify = ⟨[⟨"--paint"⟩], [⟨"--link"⟩], [⟨"--ring"⟩, ⟨"--line"⟩, ⟨"--lost"⟩]⟩ ∧
      ∀ i, i ∈ looped.following.lfp ↔ i = ⟨"--link"⟩ := by
  have hclassify : looped.classify = ⟨[⟨"--paint"⟩], [⟨"--link"⟩], [⟨"--ring"⟩, ⟨"--line"⟩, ⟨"--lost"⟩]⟩ := by
    decide +kernel
  obtain ⟨hnested, hfollows, hreference, -⟩ := classify_selects looped
  refine ⟨?_, hclassify, fun i => ?_⟩
  · rw [hnested _ _ _ (by decide +kernel)]
    decide +kernel
  · have hmem := hreference.mem i
    rw [hclassify, List.mem_singleton] at hmem
    refine ⟨fun h => hmem.2 ⟨?_, h⟩, fun h => (hmem.1 h).2⟩
    obtain ⟨v, hv, -⟩ := mem_follows.1 h
    exact Table.mem_idents.2 ⟨v, hv⟩

end Classifier

end ThemeVars
