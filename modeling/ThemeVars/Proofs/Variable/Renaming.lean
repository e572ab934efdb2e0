/-
Tables under other idents. `ρ` says which ident stands for which; where it does
so one to one, related tables hold related variables (`Renames.get?`), insertion
keeps them related, and `Classifier.Renames.classify`: a variable is of the kind
that its partner is of.
-/
import Mathlib.Data.List.Forall2
import Mathlib.Logic.Relator
import ThemeVars.Proofs.Outcome
import ThemeVars.Proofs.OrderedSet
import ThemeVars.Proofs.Variable.Classification
import ThemeVars.Variable.Relocation

namespace ThemeVars

open OrderedSet (Ordered mem_insert mem_remove mem_union ordered_nil ordered_insert ordered_union)
open Relator (BiUnique)

variable {ρ : Ident → Ident → Prop} {i j : Ident}

/-- Where idents stand for each other one to one, they are equal together. -/
theorem eq_iff_of_renames (hρ : BiUnique ρ) {k l : Ident} (hij : ρ i j) (hkl : ρ k l) : i = k ↔ j = l :=
  Relator.rel_eq hρ hij hkl

theorem biUnique_flip (hρ : BiUnique ρ) : BiUnique (flip ρ) := ⟨fun _ _ _ h h' => hρ.2 h h', fun _ _ _ h h' => hρ.1 h h'⟩

/-! ## Sets -/

/-- Sets whose members stand for each other. -/
structure SameMembers (ρ : Ident → Ident → Prop) (xs ys : List Ident) : Prop where
  left : Ordered xs
  right : Ordered ys
  forth : ∀ x ∈ xs, ∃ y ∈ ys, ρ x y
  back : ∀ y ∈ ys, ∃ x ∈ xs, ρ x y

namespace SameMembers

variable {xs ys xs' ys' : List Ident}

theorem nil : SameMembers ρ [] [] := ⟨ordered_nil, ordered_nil, fun _ h => (nomatch h), fun _ h => nomatch h⟩

theorem insert (h : SameMembers ρ xs ys) (hij : ρ i j) :
    SameMembers ρ (OrderedSet.insert i xs) (OrderedSet.insert j ys) := by
  refine ⟨ordered_insert h.left i, ordered_insert h.right j, fun x hx => ?_, fun y hy => ?_⟩
  · rcases mem_insert.1 hx with rfl | hx
    · exact ⟨j, mem_insert.2 (.inl rfl), hij⟩
    · obtain ⟨y, hy, hxy⟩ := h.forth x hx
      exact ⟨y, mem_insert.2 (.inr hy), hxy⟩
  · rcases mem_insert.1 hy with rfl | hy
    · exact ⟨i, mem_insert.2 (.inl rfl), hij⟩
    · obtain ⟨x, hx, hxy⟩ := h.back y hy
      exact ⟨x, mem_insert.2 (.inr hx), hxy⟩

theorem union (h : SameMembers ρ xs ys) (h' : SameMembers ρ xs' ys') :
    SameMembers ρ (OrderedSet.union xs xs') (OrderedSet.union ys ys') := by
  refine ⟨ordered_union h.left xs', ordered_union h.right ys', fun x hx => ?_, fun y hy => ?_⟩
  · rcases mem_union.1 hx with hx | hx
    · obtain ⟨y, hy, hxy⟩ := h.forth x hx
      exact ⟨y, mem_union.2 (.inl hy), hxy⟩
    · obtain ⟨y, hy, hxy⟩ := h'.forth x hx
      exact ⟨y, mem_union.2 (.inr hy), hxy⟩
  · rcases mem_union.1 hy with hy | hy
    · obtain ⟨x, hx, hxy⟩ := h.back y hy
      exact ⟨x, mem_union.2 (.inl hx), hxy⟩
    · obtain ⟨x, hx, hxy⟩ := h'.back y hy
      exact ⟨x, mem_union.2 (.inr hx), hxy⟩

theorem remove (hρ : BiUnique ρ) (h : SameMembers ρ xs ys) (hij : ρ i j) :
    SameMembers ρ (OrderedSet.remove i xs) (OrderedSet.remove j ys) := by
  refine ⟨h.left.remove i, h.right.remove j, fun x hx => ?_, fun y hy => ?_⟩
  · obtain ⟨hne, hx⟩ := mem_remove.1 hx
    obtain ⟨y, hy, hxy⟩ := h.forth x hx
    exact ⟨y, mem_remove.2 ⟨fun hyj => hne (hρ.1 (hyj ▸ hxy) hij), hy⟩, hxy⟩
  · obtain ⟨hne, hy⟩ := mem_remove.1 hy
    obtain ⟨x, hx, hxy⟩ := h.back y hy
    exact ⟨x, mem_remove.2 ⟨fun hxi => hne (hρ.2 (hxi ▸ hxy) hij), hx⟩, hxy⟩

theorem eq_nil_iff (h : SameMembers ρ xs ys) : xs = [] ↔ ys = [] := by
  rw [List.eq_nil_iff_forall_not_mem, List.eq_nil_iff_forall_not_mem]
  constructor
  · intro hxs y hy
    obtain ⟨x, hx, -⟩ := h.back y hy
    exact hxs x hx
  · intro hys x hx
    obtain ⟨y, hy, -⟩ := h.forth x hx
    exact hys y hy

theorem flip (h : SameMembers ρ xs ys) : SameMembers (flip ρ) ys xs := ⟨h.right, h.left, h.back, h.forth⟩

end SameMembers

/-! ## Variables -/

/-- The variables differ in idents only, which stand for each other. -/
structure Variable.Renames (ρ : Ident → Ident → Prop) (v w : Variable) : Prop where
  ident : ρ v.ident w.ident
  others : w = { v with ident := w.ident, dependencies := w.dependencies }
  dependencies : SameMembers ρ v.dependencies w.dependencies

namespace Variable.Renames

variable {v w : Variable}

theorem name (h : v.Renames ρ w) : w.name = v.name := by rw [h.others]

theorem raw (h : v.Renames ρ w) : w.raw = v.raw := by rw [h.others]

theorem resolved (h : v.Renames ρ w) : w.resolved = v.resolved := by rw [h.others]

theorem source (h : v.Renames ρ w) : w.source = v.source := by rw [h.others]

theorem parsed (h : v.Renames ρ w) : w.parsed = v.parsed := by rw [h.others]

theorem urls (h : v.Renames ρ w) : w.urls = v.urls := by rw [h.others]

theorem flip (h : v.Renames ρ w) : w.Renames (flip ρ) v := by
  refine ⟨h.ident, ?_, h.dependencies.flip⟩
  rw [h.others]

end Variable.Renames

/-! ## Tables -/

/-- The tables have variables that differ in idents only, in the same order. -/
def Table.Renames (ρ : Ident → Ident → Prop) (t u : Table) : Prop :=
  List.Forall₂ (Variable.Renames ρ) t.records u.records

namespace Table.Renames

variable {t u : Table}

theorem flip (h : t.Renames ρ u) : u.Renames (flip ρ) t := List.Forall₂.flip (h.imp fun _ _ h => h.flip)

theorem idents (h : t.Renames ρ u) : List.Forall₂ ρ t.idents u.idents :=
  List.rel_map (fun _ _ h => h.ident) h

theorem get? (hρ : BiUnique ρ) (h : t.Renames ρ u) (hij : ρ i j) :
    Option.Rel (Variable.Renames ρ) (t.get? i) (u.get? j) := by
  rw [get?_eq, get?_eq]
  rw [Renames] at h
  generalize t.records = vs, u.records = ws at h
  induction h with
  | nil => exact .none
  | @cons v w vs ws hvw _ ih =>
    have hvw' := eq_iff_of_renames hρ hvw.ident hij
    by_cases hv : v.ident = i
    · rw [List.find?_cons_of_pos (by simpa using hv), List.find?_cons_of_pos (by simpa using hvw'.1 hv)]
      exact .some hvw
    · rw [List.find?_cons_of_neg (by simpa using hv), List.find?_cons_of_neg (by simpa using mt hvw'.2 hv)]
      exact ih

theorem contains (hρ : BiUnique ρ) (h : t.Renames ρ u) (hij : ρ i j) : t.contains i = u.contains j := by
  rw [Bool.eq_iff_iff, contains_iff, contains_iff]
  have hget := h.get? hρ hij
  generalize t.get? i = o, u.get? j = o' at hget
  cases hget with
  | none => simp
  | some => simp

theorem insert (hρ : BiUnique ρ) (h : t.Renames ρ u) {v w : Variable} (hvw : v.Renames ρ w) :
    (t.insert v).Renames ρ (u.insert w) := by
  rw [Renames] at h
  rw [Renames, records_insert, records_insert]
  generalize t.records = vs, u.records = ws at h
  induction h with
  | nil => exact .cons hvw .nil
  | @cons v' w' vs ws hvw' hs ih =>
    simp only [Keyed.put, beq_iff_eq]
    by_cases hv : v'.ident = v.ident
    · rw [if_pos hv, if_pos ((eq_iff_of_renames hρ hvw'.ident hvw.ident).1 hv)]
      exact .cons hvw hs
    · rw [if_neg hv, if_neg fun hw => hv ((eq_iff_of_renames hρ hvw'.ident hvw.ident).2 hw)]
      exact .cons hvw' ih

theorem foldl_insert (hρ : BiUnique ρ) (h : t.Renames ρ u) {vs ws : List Variable}
    (hs : List.Forall₂ (Variable.Renames ρ) vs ws) : (vs.foldl Table.insert t).Renames ρ (ws.foldl Table.insert u) := by
  induction hs generalizing t u with
  | nil => exact h
  | cons hvw _ ih => exact ih (h.insert hρ hvw)

theorem ofList (hρ : BiUnique ρ) {vs ws : List Variable} (hs : List.Forall₂ (Variable.Renames ρ) vs ws) :
    (Table.ofList vs).Renames ρ (Table.ofList ws) := foldl_insert hρ (t := {}) (u := {}) .nil hs

variable {ts us : List Table}

theorem merged (hρ : BiUnique ρ) (h : List.Forall₂ (Renames ρ) ts us) : (Table.merged ts).Renames ρ (Table.merged us) := by
  have hfold : ∀ all all' : Table, all.Renames ρ all' →
      (ts.foldl (fun all t => t.records.foldl Table.insert all) all).Renames ρ
        (us.foldl (fun all t => t.records.foldl Table.insert all) all') := by
    induction h with
    | nil => exact fun _ _ hall => hall
    | cons htu _ ih => exact fun _ _ hall => ih _ _ (hall.foldl_insert hρ htu)
  exact hfold {} {} .nil

theorem findLast? (hρ : BiUnique ρ) (h : List.Forall₂ (Renames ρ) ts us) (hij : ρ i j) :
    Option.Rel (Variable.Renames ρ) (Table.findLast? ts i) (Table.findLast? us j) := by
  have hreverse := List.rel_reverse h
  unfold Table.findLast?
  generalize ts.reverse = ts', us.reverse = us' at hreverse
  induction hreverse with
  | nil => exact .none
  | cons htu _ ih =>
    rw [List.findSome?_cons, List.findSome?_cons]
    have hget := htu.get? hρ hij
    generalize Table.get? _ i = o, Table.get? _ j = o' at hget
    cases hget with
    | none => exact ih
    | some hvw => exact .some hvw

end Table.Renames

/-- A member that is taken out is taken out of both lists. -/
theorem erase_renames (hρ : BiUnique ρ) {xs ys : List Ident} (h : List.Forall₂ ρ xs ys) (hij : ρ i j) :
    List.Forall₂ ρ (xs.erase i) (ys.erase j) := by
  induction h with
  | nil => exact .nil
  | @cons x y xs ys hxy hs ih =>
    by_cases hx : x = i
    · rw [hx, (eq_iff_of_renames hρ hxy hij).1 hx, List.erase_cons_head, List.erase_cons_head]
      exact hs
    · have hy : y ≠ j := fun hy => hx ((eq_iff_of_renames hρ hxy hij).2 hy)
      rw [List.erase_cons_tail (by simpa using hx), List.erase_cons_tail (by simpa using hy)]
      exact .cons hxy ih

/-! ## The memo -/

namespace Relocations

/-- The memos have found the same for variables that stand for each other. -/
def Renames (ρ : Ident → Ident → Prop) (memo memo' : Relocations) : Prop :=
  List.Forall₂ (fun e f => ρ e.1.1 f.1.1 ∧ e.1.2 = f.1.2 ∧ e.2 = f.2) memo.entries memo'.entries

variable {memo memo' : Relocations}

theorem Renames.find? (hρ : BiUnique ρ) (h : memo.Renames ρ memo') (hij : ρ i j) (target : Path) :
    memo.find? i target = memo'.find? j target := by
  obtain ⟨es⟩ := memo
  obtain ⟨fs⟩ := memo'
  change List.Forall₂ _ es fs at h
  simp only [Relocations.find?]
  induction h with
  | nil => rfl
  | @cons e f es fs hef _ ih =>
    obtain ⟨hident, hpath, hvalue⟩ := hef
    have hkey : (e.1.1 == i && e.1.2.same target) = (f.1.1 == j && f.1.2.same target) := by
      rw [Bool.eq_iff_iff, Bool.and_eq_true, Bool.and_eq_true, beq_iff_eq, beq_iff_eq, hpath,
        eq_iff_of_renames hρ hident hij]
    rw [List.find?_cons, List.find?_cons, hkey]
    split
    · exact congrArg Option.some hvalue
    · exact ih

/-- Relocation gives the same, and leaves the memos so. -/
theorem Renames.relocate (hρ : BiUnique ρ) (h : memo.Renames ρ memo') {v w : Variable} (hvw : v.Renames ρ w)
    (target : Option Path) :
    Together (fun a b => a.1 = b.1 ∧ a.2.Renames ρ b.2) (memo.relocate v target) (memo'.relocate w target) := by
  unfold Relocations.relocate
  rw [hvw.urls, hvw.resolved]
  split
  · rename_i urls target hurls
    have hcompute : compute w urls target = compute v urls target := by rw [compute, compute, hvw.resolved]
    rw [← h.find? hρ hvw.ident, hcompute]
    split
    · exact .ok ⟨rfl, h⟩
    · rcases compute v urls target with e | x
      · exact .error
      · exact .ok ⟨rfl, .cons ⟨hvw.ident, rfl, rfl⟩ h⟩
  · exact .ok ⟨rfl, h⟩

end Relocations

/-! ## Classification -/

/-- The idents of each kind stand for each other, in the same order. -/
structure Classification.Renames (ρ : Ident → Ident → Prop) (a b : Classification) : Prop where
  theme : List.Forall₂ ρ a.theme b.theme
  reference : List.Forall₂ ρ a.reference b.reference
  context : List.Forall₂ ρ a.context b.context

/-- The classifiers look at tables that differ in idents only. -/
structure Classifier.Renames (ρ : Ident → Ident → Prop) (c d : Classifier) : Prop where
  context : c.context.Renames ρ d.context
  theme : c.theme.Renames ρ d.theme
  onlyColor : c.onlyColor = d.onlyColor

namespace Classifier.Renames

variable {c d : Classifier}

theorem isTheme (hρ : BiUnique ρ) (h : c.Renames ρ d) (hij : ρ i j) : c.isTheme i = d.isTheme j := by
  rw [Classifier.isTheme, Classifier.isTheme, h.context.contains hρ hij, h.theme.contains hρ hij]

theorem isCandidate (hρ : BiUnique ρ) (h : c.Renames ρ d) (hij : ρ i j) : c.isCandidate i = d.isCandidate j := by
  rw [Classifier.isCandidate, Classifier.isCandidate, h.isTheme hρ hij, h.onlyColor]
  have hget := h.theme.get? hρ hij
  generalize c.theme.get? i = o, d.theme.get? j = o' at hget
  cases hget with
  | none => rfl
  | some hvw => simp only [Option.any_some, hvw.name, hvw.resolved]

theorem flip (h : c.Renames ρ d) : d.Renames (flip ρ) c := ⟨h.context.flip, h.theme.flip, h.onlyColor.symm⟩

/-- What follows the theme does so under its other ident: an induction along the
least set. -/
theorem mem_follows (hρ : BiUnique ρ) (h : c.Renames ρ d) (hi : i ∈ c.follows) : ∀ j, ρ i j → j ∈ d.follows := by
  let S : Set Ident := {i | ∀ j, ρ i j → j ∈ d.follows}
  suffices hclosed : c.following S ≤ S from c.following.lfp_le hclosed hi
  intro i hi j hij
  obtain ⟨v, hv, hne, hall⟩ : ∃ v, c.context.get? i = .some v ∧ v.dependencies ≠ [] ∧
    ∀ d ∈ v.dependencies, c.isTheme d = true ∨ d ∈ S := hi
  have hget := h.context.get? hρ hij
  rw [hv] at hget
  generalize hw : d.context.get? j = o at hget
  cases hget with
  | @some _ w hvw =>
    refine Classifier.mem_follows.2 ⟨w, hw, fun hnil => hne (hvw.dependencies.eq_nil_iff.2 hnil), fun y hy => ?_⟩
    obtain ⟨x, hx, hxy⟩ := hvw.dependencies.back y hy
    exact (hall x hx).imp (fun htheme => (h.isTheme hρ hxy).symm.trans htheme) fun hx => hx y hxy

theorem isReference (hρ : BiUnique ρ) (h : c.Renames ρ d) (hij : ρ i j) : c.isReference i = d.isReference j := by
  rw [Bool.eq_iff_iff, isReference_iff, isReference_iff]
  exact ⟨fun hi => h.mem_follows hρ hi j hij, fun hj => h.flip.mem_follows (biUnique_flip hρ) hj i hij⟩

/-- Variables are of the kinds that their partners are of, in the same order. -/
theorem classify (hρ : BiUnique ρ) (h : c.Renames ρ d) : c.classify.Renames ρ d.classify := by
  refine ⟨List.rel_filter (fun i j hij => ?_) h.theme.idents, List.rel_filter (fun i j hij => ?_) h.context.idents,
    List.rel_filter (fun i j hij => ?_) h.context.idents⟩
  · exact iff_of_eq (congrArg (· = true) (h.isCandidate hρ hij))
  · exact iff_of_eq (congrArg (· = true) (h.isReference hρ hij))
  · exact iff_of_eq (congrArg (fun b => (!b) = true) (h.isReference hρ hij))

end Classifier.Renames

end ThemeVars
