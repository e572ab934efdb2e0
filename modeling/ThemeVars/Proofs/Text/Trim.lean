/-
What is left of a text without the blanks at its ends, and where one text is
in another. `mem_trim`, `occurs_pair_trim`: what is no blank is not lost.
-/
import Mathlib.Data.List.TakeWhile
import Mathlib.Tactic.Common
import ThemeVars.Text.Blank
import ThemeVars.Text.Search

namespace ThemeVars.Text

theorem trimEnd_cons {c : Char} (hc : isBlank c = false) (s : List Char) : trimEnd (c :: s) = c :: trimEnd s := by
  rw [trimEnd, List.reverse_cons, List.dropWhile_append, trimEnd]
  split
  · rename_i hnil
    rw [List.isEmpty_iff.1 hnil, List.dropWhile_cons_of_neg (by simp [hc])]
    rfl
  · rw [List.reverse_append]
    rfl

theorem trimEnd_isPrefix (s : List Char) : trimEnd s <+: s := by
  rw [trimEnd, ← List.reverse_suffix, List.reverse_reverse]
  exact List.dropWhile_suffix _

theorem trim_cons {c : Char} (hc : isBlank c = false) (s : List Char) : trim (c :: s) = c :: trimEnd s := by
  rw [trim, trimStart, List.dropWhile_cons_of_neg (by simp [hc]), trimEnd_cons hc]

theorem trimEnd_append {b : List Char} (h : trimEnd b ≠ []) (a : List Char) : trimEnd (a ++ b) = a ++ trimEnd b := by
  rw [trimEnd, List.reverse_append, List.dropWhile_append, if_neg]
  · rw [List.reverse_append, List.reverse_reverse, trimEnd]
  · rw [List.isEmpty_iff]
    intro hnil
    rw [trimEnd, hnil] at h
    exact h rfl

/-- What ends in no blank is not trimmed off. -/
theorem infix_trimEnd {s t : List Char} {c : Char} (hc : isBlank c = false) (h : s ++ [c] <:+: t) :
    s ++ [c] <:+: trimEnd t := by
  obtain ⟨a, b, rfl⟩ := h
  have hne : trimEnd (c :: b) ≠ [] := by
    rw [trimEnd_cons hc]
    exact List.cons_ne_nil _ _
  refine ⟨a, trimEnd b, ?_⟩
  have ht : a ++ (s ++ [c]) ++ b = (a ++ s) ++ c :: b := by simp
  rw [ht, trimEnd_append hne, trimEnd_cons hc]
  simp

theorem trimStart_append {a : List Char} (h : ∀ c ∈ a, isBlank c = true) (s : List Char) :
    trimStart (a ++ s) = trimStart s := by
  rw [trimStart, List.dropWhile_append_of_pos h, trimStart]

theorem trim_append {a : List Char} (h : ∀ c ∈ a, isBlank c = true) (s : List Char) : trim (a ++ s) = trim s := by
  rw [trim, trimStart_append h, trim]

/-- Blanks at the end of a text can be dropped before those at its front. -/
theorem trimStart_trimEnd (s : List Char) : trimStart (trimEnd s) = trim s := by
  induction s with
  | nil => rfl
  | cons c s ih =>
    cases hc : isBlank c with
    | false => rw [trimEnd_cons hc, trim_cons hc, trimStart, List.dropWhile_cons_of_neg (by simp [hc])]
    | true =>
      have hc' : ∀ d ∈ [c], isBlank d = true := List.forall_mem_singleton.2 hc
      rw [← List.singleton_append, trim_append hc', ← ih]
      by_cases hs : trimEnd s = []
      · rw [trimEnd, List.reverse_append, List.dropWhile_append, if_pos]
        · rw [hs, List.dropWhile_eq_nil_iff.2 fun d hd => hc' d (List.mem_reverse.1 hd)]
          rfl
        · rw [List.isEmpty_iff, ← List.reverse_eq_nil_iff]
          exact hs
      · rw [trimEnd_append hs, trimStart_append hc']

/-- Nothing is trimmed off up to a character that is no blank. -/
theorem trim_between {c d : Char} (hc : isBlank c = false) (hd : isBlank d = false) (s rest : List Char) :
    trim (c :: (s ++ d :: rest)) = c :: (s ++ d :: trimEnd rest) := by
  have hne : trimEnd (d :: rest) ≠ [] := by
    rw [trimEnd_cons hd]
    exact List.cons_ne_nil _ _
  rw [trim_cons hc, trimEnd_append hne, trimEnd_cons hd]

/-- A text is what trimming leaves of it, between blanks. -/
theorem exists_blanks (s : List Char) :
    ∃ a b, (∀ c ∈ a, isBlank c = true) ∧ (∀ c ∈ b, isBlank c = true) ∧ s = a ++ (trim s ++ b) := by
  refine ⟨s.takeWhile isBlank, ((trimStart s).reverse.takeWhile isBlank).reverse, fun c => List.mem_takeWhile_imp, ?_, ?_⟩
  · intro c hc
    exact List.mem_takeWhile_imp (List.mem_reverse.1 hc)
  · rw [trim, trimEnd, ← List.reverse_append, List.takeWhile_append_dropWhile, List.reverse_reverse, trimStart,
      List.takeWhile_append_dropWhile]

theorem mem_trim {c : Char} {s : List Char} (hc : isBlank c = false) : c ∈ trim s ↔ c ∈ s := by
  obtain ⟨a, b, ha, hb, hs⟩ := exists_blanks s
  have hna : c ∉ a := fun h => by simp [ha c h] at hc
  have hnb : c ∉ b := fun h => by simp [hb c h] at hc
  conv_rhs => rw [hs]
  simp [hna, hnb]

theorem occurs_iff {part s : List Char} : occurs part s = true ↔ part <:+: s := by
  induction s with
  | nil => simp [occurs, List.infix_nil]
  | cons c cs ih => rw [occurs, Bool.or_eq_true, List.isPrefixOf_iff_prefix, ih, List.infix_cons_iff]

/-- Two characters in a row stand in what follows a text without the first. -/
theorem pair_infix_of_append {c d : Char} {a s : List Char} (hc : c ∉ a) (h : [c, d] <:+: a ++ s) : [c, d] <:+: s := by
  induction a with
  | nil => exact h
  | cons e a ih =>
    rw [List.mem_cons, not_or] at hc
    rw [List.cons_append, List.infix_cons_iff] at h
    rcases h with h | h
    · exact absurd (List.cons_prefix_cons.1 h).1 hc.1
    · exact ih hc.2 h

theorem occurs_pair_trim {c d : Char} (hc : isBlank c = false) (hd : isBlank d = false) (s : List Char) :
    occurs [c, d] (trim s) = occurs [c, d] s := by
  obtain ⟨a, b, ha, hb, hs⟩ := exists_blanks s
  have hna : c ∉ a := fun h => by simp [ha c h] at hc
  have hnb : d ∉ b.reverse := fun h => by simp [hb d (List.mem_reverse.1 h)] at hd
  rw [Bool.eq_iff_iff, occurs_iff, occurs_iff]
  constructor
  · intro h
    rw [hs]
    exact h.trans ⟨a, b, by simp⟩
  · intro h
    rw [hs] at h
    have hmid := pair_infix_of_append hna h
    rw [← List.reverse_infix, List.reverse_append] at hmid
    exact List.reverse_infix.1 (pair_infix_of_append hnb hmid)

end ThemeVars.Text
