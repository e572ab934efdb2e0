/-
What an ordered set holds: insertion adds one member, removal takes it away, and
union has those of both lists, where only equal members compare as equal.
`ordered_union`: all of these keep the list in order, so that each member is there
once.
-/
import Mathlib.Data.List.Nodup
import ThemeVars.Ident
import ThemeVars.OrderedSet

namespace ThemeVars

namespace OrderedSet

variable {α : Type _}

/-! ## Members -/

@[simp] theorem mem_remove [BEq α] [LawfulBEq α] {x y : α} {s : List α} : x ∈ remove y s ↔ x ≠ y ∧ x ∈ s := by
  rw [remove, List.mem_filter, bne_iff_ne, and_comm]

theorem remove_of_not_mem [BEq α] [LawfulBEq α] {x : α} {s : List α} (h : x ∉ s) : remove x s = s :=
  List.filter_eq_self.2 fun y hy => bne_iff_ne.2 fun hyx => h (hyx ▸ hy)

variable [Ord α]

section

variable [Std.LawfulEqOrd α]

@[simp] theorem mem_insert {x y : α} {s : List α} : x ∈ insert y s ↔ x = y ∨ x ∈ s := by
  induction s with
  | nil => simp [insert]
  | cons z s ih =>
    simp only [insert]
    split
    · exact List.mem_cons
    · rename_i h
      rw [Std.LawfulEqOrd.compare_eq_iff_eq.1 h]
      simp
    · rw [List.mem_cons, ih, List.mem_cons]
      exact or_left_comm

@[simp] theorem mem_union {x : α} {s t : List α} : x ∈ union s t ↔ x ∈ s ∨ x ∈ t := by
  unfold union
  induction t generalizing s with
  | nil => simp
  | cons y t ih =>
    rw [List.foldl_cons, ih, mem_insert, List.mem_cons, or_assoc]
    exact or_left_comm

end

/-! ## Order -/

/-- Each member comes before those that follow it. -/
def Ordered (s : List α) : Prop := s.Pairwise fun x y => compare x y = .lt

theorem ordered_nil : Ordered ([] : List α) := List.Pairwise.nil

theorem Ordered.remove [BEq α] {s : List α} (h : Ordered s) (x : α) : Ordered (remove x s) :=
  h.sublist List.filter_sublist

variable [Std.LawfulEqOrd α] [Std.TransOrd α]

theorem ordered_insert {s : List α} (h : Ordered s) (x : α) : Ordered (insert x s) := by
  induction s with
  | nil => exact List.pairwise_singleton _ _
  | cons y s ih =>
    obtain ⟨hy, hs⟩ := List.pairwise_cons.1 h
    rw [insert]
    split
    · rename_i hlt
      refine List.pairwise_cons.2 ⟨List.forall_mem_cons.2 ⟨hlt, fun z hz => ?_⟩, h⟩
      exact Std.TransCmp.lt_trans hlt (hy z hz)
    · exact h
    · rename_i hgt
      refine List.pairwise_cons.2 ⟨fun z hz => ?_, ih hs⟩
      rcases mem_insert.1 hz with rfl | hz
      · exact Std.OrientedCmp.gt_iff_lt.1 hgt
      · exact hy z hz

theorem ordered_union {s : List α} (h : Ordered s) (t : List α) : Ordered (union s t) := by
  unfold union
  induction t generalizing s with
  | nil => exact h
  | cons y t ih => exact ih (ordered_insert h y)

end OrderedSet

/-- Idents are compared by their texts. -/
instance : Std.LawfulEqOrd Ident where
  compare_self := Std.ReflOrd.compare_self (α := String)
  eq_of_compare h := congrArg Ident.mk (Std.LawfulEqOrd.compare_eq_iff_eq.1 h)

instance : Std.TransOrd Ident where
  eq_swap {x y} := Std.OrientedOrd.eq_swap (a := x.text) (b := y.text)
  isLE_trans {x y z} h h' := @Std.TransCmp.isLE_trans String compare _ x.text y.text z.text h h'

end ThemeVars
