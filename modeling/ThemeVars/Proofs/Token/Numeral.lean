/-
What the reader of numbers does, as a grammar of numbers. `read_append`: a
number is read from its own text whenever nothing after it could belong to
it. `read_spec`: wherever a number starts, what is read is a number of the
grammar, and it reaches as far as it can.
-/
import Mathlib.Data.List.TakeWhile
import Mathlib.Tactic.Common
import ThemeVars.Token.Numeral

namespace ThemeVars.Numeral

/-- No digit comes next. -/
def NoDigit (s : List Char) : Prop := s.head?.any Char.isDigit = false

theorem takeWhile_digits {ds s : List Char} (h : ∀ c ∈ ds, c.isDigit = true) (hs : NoDigit s) :
    (ds ++ s).takeWhile Char.isDigit = ds ∧ (ds ++ s).dropWhile Char.isDigit = s := by
  rw [List.takeWhile_append_of_pos h, List.dropWhile_append_of_pos h]
  cases s with
  | nil => simp
  | cons c s =>
    have hc : c.isDigit = false := by simpa [NoDigit] using hs
    simp [hc]

theorem noDigit_dropWhile (s : List Char) : NoDigit (s.dropWhile Char.isDigit) := by
  have h := List.head?_dropWhile_not Char.isDigit s
  unfold NoDigit
  cases hd : (s.dropWhile Char.isDigit).head? with
  | none => rfl
  | some c =>
    rw [hd] at h
    simpa using h

/-- A mark, a sign or none, and digits. -/
def IsExponent (s : List Char) : Prop :=
  ∃ e sign ds, s = e :: (sign ++ ds) ∧ (e = 'e' ∨ e = 'E') ∧ (sign = [] ∨ sign = ['+'] ∨ sign = ['-']) ∧
    ds ≠ [] ∧ ∀ c ∈ ds, c.isDigit = true

/-- The parts of a number are what they should be. -/
structure Written (n : Numeral) : Prop where
  sign : n.sign = [] ∨ n.sign = ['+'] ∨ n.sign = ['-']
  whole : ∀ c ∈ n.whole, c.isDigit = true
  fraction : ∀ c ∈ n.fraction, c.isDigit = true
  digits : n.whole ≠ [] ∨ n.fraction ≠ []
  exponent : n.exponent = [] ∨ IsExponent n.exponent

/-- The number reaches no further, with this text after it. -/
structure EndsBefore (n : Numeral) (rest : List Char) : Prop where
  digit : NoDigit rest
  point : n.fraction = [] → n.exponent = [] → fractionOf rest = []
  exponent : n.exponent = [] → exponentOf rest = []

/-- A fraction with its point. -/
def pointed (fraction : List Char) : List Char := if fraction.isEmpty then [] else '.' :: fraction

theorem text_eq (n : Numeral) : n.text = n.sign ++ (n.whole ++ (pointed n.fraction ++ n.exponent)) := by
  simp [text, pointed]

theorem fractionOf_pointed {ds s : List Char} (hd : ∀ c ∈ ds, c.isDigit = true) (hs : NoDigit s)
    (hp : ds = [] → fractionOf s = []) : fractionOf (pointed ds ++ s) = ds := by
  cases ds with
  | nil => exact hp rfl
  | cons d ds => exact (takeWhile_digits hd hs).1

theorem noDigit_pointed {ds s : List Char} (hs : ds = [] → NoDigit s) : NoDigit (pointed ds ++ s) := by
  cases ds with
  | nil => exact hs rfl
  | cons d ds => rfl

theorem exponentOf_append {x rest : List Char} (hx : IsExponent x) (hr : NoDigit rest) :
    exponentOf (x ++ rest) = x := by
  obtain ⟨e, sign, ds, rfl, he, hs, hne, hd⟩ := hx
  have he' : (e == 'e' || e == 'E') = true := by rcases he with rfl | rfl <;> rfl
  have ht := (takeWhile_digits hd hr).1
  cases ds with
  | nil => exact absurd rfl hne
  | cons d ds =>
    have hd' : d.isDigit = true := hd d (by simp)
    rcases hs with rfl | rfl | rfl
    · simp only [List.nil_append, List.cons_append, exponentOf, he', if_true, hd'] at ht ⊢
      rw [ht]
    · simp only [List.cons_append, List.nil_append, exponentOf, he', if_true] at ht ⊢
      rw [if_neg (by decide), if_pos (by simp [hd']), ht]
    · simp only [List.cons_append, List.nil_append, exponentOf, he', if_true] at ht ⊢
      rw [if_neg (by decide), if_pos (by simp [hd']), ht]

theorem noDigit_of_isExponent {x : List Char} (rest : List Char) (hx : IsExponent x) : NoDigit (x ++ rest) := by
  obtain ⟨e, sign, ds, rfl, rfl | rfl, -⟩ := hx <;> rfl

theorem fractionOf_of_isExponent {x : List Char} (rest : List Char) (hx : IsExponent x) :
    fractionOf (x ++ rest) = [] := by
  obtain ⟨e, sign, ds, rfl, rfl | rfl, -⟩ := hx <;> rfl

theorem drop_pointed (ds s : List Char) :
    (if ds.isEmpty then pointed ds ++ s else (pointed ds ++ s).drop (ds.length + 1)) = s := by
  cases ds with
  | nil => rfl
  | cons d ds => simp [pointed]

theorem signOf_append {n : Numeral} (hn : n.Written) (s : List Char) :
    signOf (n.sign ++ (n.whole ++ (pointed n.fraction ++ s))) = n.sign := by
  rcases hn.sign with h | h | h
  · rw [h, List.nil_append]
    rcases hw : n.whole with _ | ⟨d, ds⟩
    · obtain ⟨d, ds, hf⟩ := List.exists_cons_of_ne_nil (hn.digits.resolve_left (not_not.2 hw))
      simp [hf, pointed, signOf]
    · have hd : d.isDigit = true := hn.whole d (by simp [hw])
      have hp : d ≠ '+' := by rintro rfl; simp at hd
      have hm : d ≠ '-' := by rintro rfl; simp at hd
      simp [signOf, hp, hm]
  · rw [h]; rfl
  · rw [h]; rfl

/-- A number is read from its own text, if it reaches no further. -/
theorem read_append {n : Numeral} {rest : List Char} (hn : n.Written) (hr : n.EndsBefore rest) :
    read (n.text ++ rest) = n := by
  have hrest : NoDigit (n.exponent ++ rest) ∧ exponentOf (n.exponent ++ rest) = n.exponent ∧
      (n.fraction = [] → fractionOf (n.exponent ++ rest) = []) := by
    rcases hn.exponent with he | he
    · rw [he]
      exact ⟨hr.digit, hr.exponent he, fun hf => hr.point hf he⟩
    · exact ⟨noDigit_of_isExponent rest he, exponentOf_append he hr.digit,
        fun _ => fractionOf_of_isExponent rest he⟩
  obtain ⟨hd, he, hf⟩ := hrest
  have htext : n.text ++ rest = n.sign ++ (n.whole ++ (pointed n.fraction ++ (n.exponent ++ rest))) := by
    simp [text_eq]
  obtain ⟨hw1, hw2⟩ := takeWhile_digits hn.whole (@noDigit_pointed n.fraction _ fun _ => hd)
  have hp := fractionOf_pointed hn.fraction hd hf
  unfold read
  simp only [htext, signOf_append hn, List.drop_left, hw1, hw2, hp, drop_pointed, he]

theorem takeWhile_digits_ne_nil {s : List Char} (h : s.head?.any Char.isDigit = true) :
    s.takeWhile Char.isDigit ≠ [] := by
  cases s with
  | nil => simp at h
  | cons c s => simp_all

/-- An exponent that is read is one, and reaches as far as its digits. -/
theorem exponentOf_cases (s : List Char) :
    exponentOf s = [] ∨ IsExponent (exponentOf s) ∧ ∃ t, s = exponentOf s ++ t ∧ NoDigit t := by
  cases s with
  | nil => exact .inl rfl
  | cons e rest =>
    by_cases he : (e == 'e' || e == 'E') = true
    · have he' : e = 'e' ∨ e = 'E' := by simpa using he
      simp only [exponentOf, he, if_true]
      cases rest with
      | nil => exact .inl rfl
      | cons d ds =>
        simp only
        by_cases hd : d.isDigit = true
        · rw [if_pos hd]
          refine .inr ⟨⟨e, [], (d :: ds).takeWhile Char.isDigit, rfl, he', .inl rfl,
              takeWhile_digits_ne_nil (by simpa using hd), fun _ => List.mem_takeWhile_imp⟩,
            _, ?_, noDigit_dropWhile (d :: ds)⟩
          rw [List.cons_append, List.takeWhile_append_dropWhile]
        · rw [if_neg hd]
          by_cases hs : ((d == '+' || d == '-') && ds.head?.any Char.isDigit) = true
          · rw [if_pos hs]
            rw [Bool.and_eq_true, Bool.or_eq_true, beq_iff_eq, beq_iff_eq] at hs
            refine .inr ⟨⟨e, [d], _, rfl, he', ?_, takeWhile_digits_ne_nil hs.2, fun _ => List.mem_takeWhile_imp⟩,
              _, ?_, noDigit_dropWhile ds⟩
            · rcases hs.1 with rfl | rfl <;> simp
            · rw [List.cons_append, List.cons_append, List.takeWhile_append_dropWhile]
          · rw [if_neg hs]
            exact .inl rfl
    · simp [exponentOf, he]

theorem signOf_cases (s : List Char) : signOf s = [] ∨ signOf s = ['+'] ∨ signOf s = ['-'] := by
  cases s with
  | nil => exact .inl rfl
  | cons c cs =>
    simp only [signOf]
    split
    · rename_i h
      rw [Bool.or_eq_true, beq_iff_eq, beq_iff_eq] at h
      rcases h with rfl | rfl <;> simp
    · exact .inl rfl

theorem signOf_isPrefix (s : List Char) : s = signOf s ++ s.drop (signOf s).length := by
  cases s with
  | nil => rfl
  | cons c cs =>
    simp only [signOf]
    split <;> rfl

theorem fractionOf_spec {s : List Char} (h : fractionOf s ≠ []) :
    ∃ t, s = '.' :: (fractionOf s ++ t) ∧ NoDigit t := by
  unfold fractionOf at h ⊢
  split
  · exact ⟨_, by rw [List.takeWhile_append_dropWhile], noDigit_dropWhile _⟩
  · rename_i hs
    split at h
    · rename_i rest
      exact absurd rfl (hs rest)
    · exact absurd rfl h

theorem isDigit_of_mem_fractionOf (s : List Char) : ∀ c ∈ fractionOf s, c.isDigit = true := by
  unfold fractionOf
  split
  · exact fun _ => List.mem_takeWhile_imp
  · simp

/-- Whatever exponent comes next, it completes the number. -/
theorem written_of_tail {sign whole fraction tail : List Char}
    (hs : sign = [] ∨ sign = ['+'] ∨ sign = ['-']) (hw : ∀ c ∈ whole, c.isDigit = true)
    (hf : ∀ c ∈ fraction, c.isDigit = true) (hd : whole ≠ [] ∨ fraction ≠ []) (ht : NoDigit tail)
    (hp : fraction = [] → fractionOf tail = []) :
    Written ⟨sign, whole, fraction, exponentOf tail⟩ ∧
      ∃ rest, tail = exponentOf tail ++ rest ∧ EndsBefore ⟨sign, whole, fraction, exponentOf tail⟩ rest := by
  rcases exponentOf_cases tail with he | ⟨he, t, htail, htd⟩
  · exact ⟨⟨hs, hw, hf, hd, .inl he⟩, tail, by rw [he, List.nil_append], ht, fun h _ => hp h, fun _ => he⟩
  · have hne : exponentOf tail ≠ [] := by
      obtain ⟨e, sign, ds, hx, -⟩ := he
      rw [hx]
      simp
    exact ⟨⟨hs, hw, hf, hd, .inr he⟩, t, htail, htd, fun _ h => absurd h hne, fun h => absurd h hne⟩

/-- What is read where a number starts is a number, and the text is it and a
rest that adds nothing to it. -/
theorem read_spec {s : List Char} (h : startsAt s = true) :
    (read s).Written ∧ ∃ rest, s = (read s).text ++ rest ∧ (read s).EndsBefore rest := by
  have hs := signOf_isPrefix s
  have hw := List.takeWhile_append_dropWhile (p := Char.isDigit) (l := s.drop (signOf s).length)
  have hwd := noDigit_dropWhile (s.drop (signOf s).length)
  unfold startsAt at h
  generalize hr : s.drop (signOf s).length = r at *
  generalize hb : r.dropWhile Char.isDigit = b at *
  have hread : read s = ⟨signOf s, r.takeWhile Char.isDigit, fractionOf b,
      exponentOf (if (fractionOf b).isEmpty then b else b.drop ((fractionOf b).length + 1))⟩ := by
    simp only [read, hr, hb]
  have hdigits : r.takeWhile Char.isDigit ≠ [] ∨ fractionOf b ≠ [] := by
    cases r with
    | nil => simp at h
    | cons c r =>
      by_cases hc : c.isDigit = true
      · exact .inl (by simp [hc])
      · simp only [hc, Bool.false_or, Bool.and_eq_true, beq_iff_eq] at h
        obtain ⟨rfl, h⟩ := h
        rw [← hb]
        exact .inr (takeWhile_digits_ne_nil h)
  have hfraction := isDigit_of_mem_fractionOf b
  have htail : ∃ tail, NoDigit tail ∧ (fractionOf b = [] → fractionOf tail = []) ∧
      b = pointed (fractionOf b) ++ tail := by
    by_cases hf : fractionOf b = []
    · exact ⟨b, hwd, id, by simp [hf, pointed]⟩
    · obtain ⟨t, ht, htd⟩ := fractionOf_spec hf
      exact ⟨t, htd, fun h => absurd h hf, by simpa [pointed, hf] using ht⟩
  obtain ⟨tail, htd, htf, hbt⟩ := htail
  have hdrop : (if (fractionOf b).isEmpty then b else b.drop ((fractionOf b).length + 1)) = tail := by
    have := drop_pointed (fractionOf b) tail
    rwa [← hbt] at this
  rw [hdrop] at hread
  obtain ⟨hn, rest, ht, hr'⟩ := written_of_tail (signOf_cases s) (fun _ => List.mem_takeWhile_imp)
    hfraction hdigits htd htf
  rw [hread]
  refine ⟨hn, rest, ?_, hr'⟩
  calc s = signOf s ++ (r.takeWhile Char.isDigit ++ (pointed (fractionOf b) ++ tail)) := by
        rw [← hbt, hw, ← hs]
    _ = signOf s ++ (r.takeWhile Char.isDigit ++ (pointed (fractionOf b) ++ (exponentOf tail ++ rest))) := by
        rw [← ht]
    _ = _ := by simp [text_eq]

end ThemeVars.Numeral
