/-
What a text is cut into. `splitTopLevel_intercalate`: texts that no separator
cuts, each but the last closing what it opens, are the pieces of the text that
they make. `separable_splitTopLevel`: the pieces of every text are such.
`splitTopLevel_partition`: the pieces make up the text, none of them is cut
again, and a separator cuts exactly where nothing is open.
-/
import Mathlib.Tactic.Common
import ThemeVars.Text.Split

namespace ThemeVars.Text

variable {separator c : Char} {n : Nesting} {a b s : List Char}

/-- The character has a part in what is open, or may have. -/
def isNesting (c : Char) : Bool := c == '\\' || isQuote c || isOpening c || isClosing c

/-- A kind of characters neither nests nor separates if it has none of these. -/
theorem isNesting_of_kind {kind : Char → Bool} (h : kind c = true)
    (hkind : ['\\', '"', '\'', '(', '[', '\x7b', ')', ']', '\x7d', separator].any kind = false) :
    isNesting c = false ∧ c ≠ separator := by
  have hne : ∀ d ∈ ['\\', '"', '\'', '(', '[', '\x7b', ')', ']', '\x7d', separator], c ≠ d := by
    intro d hd hcd
    rw [hcd] at h
    exact List.any_eq_false.1 hkind d hd h
  simp only [List.forall_mem_cons] at hne
  simp [isNesting, isQuote, isOpening, isClosing, hne]

namespace Nesting

/-- Where one stands after the text. -/
def after (n : Nesting) (s : List Char) : Nesting := s.foldl step n

@[simp] theorem after_nil (n : Nesting) : n.after [] = n := rfl

@[simp] theorem after_cons (n : Nesting) (c : Char) (s : List Char) : n.after (c :: s) = (n.step c).after s := rfl

theorem after_append (n : Nesting) (a b : List Char) : n.after (a ++ b) = (n.after a).after b := List.foldl_append

/-- No separator cuts the text. -/
def Uncut (separator : Char) : Nesting → List Char → Prop
  | _, [] => True
  | n, c :: s => n.cutsAt separator c = false ∧ Uncut separator (n.step c) s

instance decidableUncut : ∀ (n : Nesting) (s : List Char), Decidable (n.Uncut separator s)
  | _, [] => inferInstanceAs (Decidable True)
  | n, c :: s =>
    have := decidableUncut (n.step c) s
    inferInstanceAs (Decidable (_ ∧ _))

theorem uncut_append : Uncut separator n (a ++ b) ↔ Uncut separator n a ∧ Uncut separator (n.after a) b := by
  induction a generalizing n with
  | nil => exact (true_and _).to_iff.symm
  | cons c a ih => exact (and_congr_right fun _ => ih).trans and_assoc.symm

theorem cutsAt_of_ne (n : Nesting) (h : c ≠ separator) : n.cutsAt separator c = false := by
  simp [cutsAt, h]

theorem uncut_of_not_mem (n : Nesting) (h : separator ∉ s) : n.Uncut separator s := by
  induction s generalizing n with
  | nil => trivial
  | cons c s ih =>
    obtain ⟨hc, hs⟩ := List.ne_and_not_mem_of_not_mem_cons h
    exact ⟨n.cutsAt_of_ne (Ne.symm hc), ih _ hs⟩

/-- Where a separator cuts, nothing is open. -/
theorem eq_of_cutsAt (h : n.cutsAt separator c = true) : c = separator ∧ n = {} ∧ isNesting c = false := by
  simpa [cutsAt, isNesting, and_assoc] using h

theorem cutsAt_self (h : isNesting separator = false) : ({} : Nesting).cutsAt separator separator = true := by
  simpa [cutsAt, isNesting, and_assoc] using h

/-- Only after a backslash is a character escaped. -/
theorem escaped_step (n : Nesting) (h : c ≠ '\\') : (n.step c).escaped = false := by
  unfold step
  repeat' split
  all_goals simp_all

theorem cutsAt_iff : n.cutsAt separator separator = true ↔ isNesting separator = false ∧ n = {} := by
  constructor
  · intro h
    obtain ⟨-, hn, hc⟩ := eq_of_cutsAt h
    exact ⟨hc, hn⟩
  · rintro ⟨hc, rfl⟩
    exact cutsAt_self hc

theorem step_of_not_nesting (h : n.escaped = false) (hc : isNesting c = false) : n.step c = n := by
  simp only [isNesting, Bool.or_eq_false_iff] at hc
  obtain ⟨⟨⟨hslash, hquote⟩, hopening⟩, hclosing⟩ := hc
  simp [step, h, hslash, hquote, hopening, hclosing]

theorem step_of_cutsAt (h : n.cutsAt separator c = true) : n.step c = n := by
  obtain ⟨-, rfl, hc⟩ := eq_of_cutsAt h
  exact step_of_not_nesting rfl hc

theorem after_of_not_nesting (h : n.escaped = false) (hs : ∀ c ∈ s, isNesting c = false) : n.after s = n := by
  induction s with
  | nil => rfl
  | cons c s ih =>
    obtain ⟨hc, hs⟩ := List.forall_mem_cons.1 hs
    rw [after_cons, step_of_not_nesting h hc, ih hs]

end Nesting

open Nesting

/-! ## Pieces -/

/-- There is always a first piece. -/
theorem exists_splitFrom (separator : Char) (n : Nesting) (s : List Char) :
    ∃ first rest, splitFrom separator n s = first :: rest := by
  induction s generalizing n with
  | nil => exact ⟨[], [], rfl⟩
  | cons c s ih =>
    rw [splitFrom]
    split
    · exact ⟨[], _, rfl⟩
    · obtain ⟨first, rest, h⟩ := ih (n.step c)
      exact ⟨c :: first, rest, by rw [h, List.modifyHead_cons]⟩

/-- Nothing is lost but the separators that cut. -/
theorem intercalate_splitFrom (separator : Char) (n : Nesting) (s : List Char) :
    [separator].intercalate (splitFrom separator n s) = s := by
  induction s generalizing n with
  | nil => rfl
  | cons c s ih =>
    rw [splitFrom]
    split
    · rename_i hcut
      obtain ⟨first, rest, h⟩ := exists_splitFrom separator n s
      have hs := ih n
      rw [h] at hs ⊢
      rw [List.intercalate_cons_cons, hs, (eq_of_cutsAt hcut).1]
      rfl
    · obtain ⟨first, rest, h⟩ := exists_splitFrom separator (n.step c) s
      have hs := ih (n.step c)
      rw [h] at hs ⊢
      rw [List.modifyHead_cons, ← hs]
      cases rest with
      | nil => rfl
      | cons second rest => rfl

/-- A text that is not cut becomes a part of the first piece after it. -/
theorem splitFrom_append (ha : n.Uncut separator a) (b : List Char) :
    splitFrom separator n (a ++ b) = (splitFrom separator (n.after a) b).modifyHead (a ++ ·) := by
  induction a generalizing n with
  | nil => cases h : splitFrom separator n b <;> simp [h]
  | cons c a ih =>
    rw [List.cons_append, splitFrom, if_neg (by simp [ha.1]), ih ha.2, List.modifyHead_modifyHead]
    rfl

theorem splitFrom_uncut (h : n.Uncut separator s) : splitFrom separator n s = [s] := by
  have happend := splitFrom_append h []
  rw [List.append_nil] at happend
  rw [happend]
  simp [splitFrom]

/-- A separator that cuts parts the pieces before it from those behind it. -/
theorem splitFrom_append_cut (hn : (n.after a).cutsAt separator separator = true) (b : List Char) :
    splitFrom separator n (a ++ separator :: b) = splitFrom separator n a ++ splitFrom separator {} b := by
  induction a generalizing n with
  | nil =>
    rw [after_nil] at hn
    rw [List.nil_append, splitFrom, splitFrom, if_pos hn, (eq_of_cutsAt hn).2.1, List.singleton_append]
  | cons c a ih =>
    rw [List.cons_append, splitFrom, splitFrom]
    split
    · rename_i hcut
      rw [after_cons, step_of_cutsAt hcut] at hn
      rw [ih hn, List.cons_append]
    · obtain ⟨first, rest, h⟩ := exists_splitFrom separator (n.step c) a
      rw [ih hn, h]
      rfl

theorem splitFrom_cut (ha : n.Uncut separator a) (hn : (n.after a).cutsAt separator separator = true) (b : List Char) :
    splitFrom separator n (a ++ separator :: b) = a :: splitFrom separator {} b := by
  rw [splitFrom_append_cut hn, splitFrom_uncut ha, List.singleton_append]

/-- A text is not cut, or is cut first at some separator. -/
theorem uncut_or_cut (separator : Char) (n : Nesting) (s : List Char) :
    n.Uncut separator s ∨ ∃ a b, s = a ++ separator :: b ∧ n.Uncut separator a ∧
      (n.after a).cutsAt separator separator = true := by
  induction s generalizing n with
  | nil => exact .inl trivial
  | cons c s ih =>
    rcases hc : n.cutsAt separator c with _ | _
    · rcases ih (n.step c) with h | ⟨a, b, rfl, ha, hn⟩
      · exact .inl ⟨hc, h⟩
      · exact .inr ⟨c :: a, b, rfl, ⟨hc, ha⟩, hn⟩
    · obtain rfl := (eq_of_cutsAt hc).1
      exact .inr ⟨[], s, rfl, trivial, hc⟩

/-- No separator cuts any of the texts, and each but the last closes what it
opens. -/
def Separable (separator : Char) : List (List Char) → Prop
  | [] => False
  | [s] => Uncut separator {} s
  | s :: t :: rest => (Uncut separator {} s ∧ ({} : Nesting).after s = {}) ∧ Separable separator (t :: rest)

/-- Such texts come apart where they have been joined. -/
theorem splitTopLevel_intercalate (hc : isNesting separator = false) {pieces : List (List Char)}
    (h : Separable separator pieces) : splitTopLevel separator ([separator].intercalate pieces) = pieces := by
  induction pieces with
  | nil => exact h.elim
  | cons s rest ih =>
    cases rest with
    | nil =>
      rw [List.intercalate_singleton]
      exact splitFrom_uncut h
    | cons t rest =>
      obtain ⟨⟨huncut, hclosed⟩, hrest⟩ := h
      rw [List.intercalate_cons_cons, List.append_assoc]
      refine (splitFrom_cut huncut ?_ _).trans (congrArg _ (ih hrest))
      rw [hclosed]
      exact cutsAt_self hc

theorem separable_splitTopLevel (separator : Char) (s : List Char) : Separable separator (splitTopLevel separator s) := by
  induction hk : s.length using Nat.strongRecOn generalizing s with
  | _ k ih =>
    rcases uncut_or_cut separator {} s with h | ⟨a, b, rfl, ha, hn⟩
    · rw [splitTopLevel, splitFrom_uncut h]
      exact h
    · have hb := ih b.length (by simp at hk; omega) b rfl
      obtain ⟨t, rest, hpieces⟩ := exists_splitFrom separator {} b
      rw [splitTopLevel, hpieces] at hb
      rw [splitTopLevel, splitFrom_cut ha hn, hpieces]
      exact ⟨⟨ha, (eq_of_cutsAt hn).2.1⟩, hb⟩

/-- No separator cuts a text that is among them. -/
theorem Separable.uncut_of_mem {pieces : List (List Char)} (h : Separable separator pieces) {piece : List Char}
    (hpiece : piece ∈ pieces) : Uncut separator {} piece := by
  induction pieces with
  | nil => exact absurd hpiece List.not_mem_nil
  | cons s rest ih =>
    cases rest with
    | nil =>
      obtain rfl := List.mem_singleton.1 hpiece
      exact h
    | cons t rest =>
      obtain ⟨⟨huncut, -⟩, hrest⟩ := h
      rcases List.mem_cons.1 hpiece with rfl | hmem
      · exact huncut
      · exact ih hrest hmem

/-- What changes no piece's nesting leaves the pieces separable. -/
theorem Separable.map {f : List Char → List Char} {pieces : List (List Char)} (h : Separable separator pieces)
    (hf : ∀ s, Uncut separator {} s → Uncut separator {} (f s) ∧ ({} : Nesting).after (f s) = ({} : Nesting).after s) :
    Separable separator (pieces.map f) := by
  induction pieces with
  | nil => exact h
  | cons s rest ih =>
    cases rest with
    | nil => exact (hf s h).1
    | cons t rest =>
      obtain ⟨⟨huncut, hclosed⟩, hrest⟩ := h
      obtain ⟨huncut', hafter⟩ := hf s huncut
      exact ⟨⟨huncut', hafter.trans hclosed⟩, ih hrest⟩

/-! ## Cuts -/

/-- Where one piece ends and another begins, a separator cuts. -/
theorem cutsAt_of_splitTopLevel {front back : List (List Char)} (hfront : front ≠ []) (hback : back ≠ [])
    (h : splitTopLevel separator s = front ++ back) :
    (({} : Nesting).after ([separator].intercalate front)).cutsAt separator separator = true := by
  induction front generalizing s with
  | nil => exact absurd rfl hfront
  | cons piece front ih =>
    rw [splitTopLevel] at h
    rcases uncut_or_cut separator {} s with hs | ⟨a, b, rfl, ha, hn⟩
    · rw [splitFrom_uncut hs, List.cons_append, List.cons.injEq] at h
      exact absurd (List.append_eq_nil_iff.1 h.2.symm).2 hback
    · rw [splitFrom_cut ha hn, List.cons_append, List.cons.injEq] at h
      obtain ⟨rfl, hrest⟩ := h
      cases front with
      | nil => rwa [List.intercalate_singleton]
      | cons next front =>
        -- The first piece closes what it opens, so that the others are read as if they stood alone.
        obtain ⟨hc, hclosed⟩ := cutsAt_iff.1 hn
        rw [List.intercalate_cons_cons, List.append_assoc, after_append, hclosed, after_append, after_cons, after_nil,
          step_of_not_nesting rfl hc]
        exact ih (List.cons_ne_nil _ _) hrest

/-- A separator parts the pieces before it from those behind it exactly if it
is no bracket, quote or backslash, is not escaped and stands outside strings
and brackets. -/
theorem splitTopLevel_append_iff (separator : Char) (a b : List Char) :
    splitTopLevel separator (a ++ separator :: b) = splitTopLevel separator a ++ splitTopLevel separator b ↔
      isNesting separator = false ∧ ({} : Nesting).after a = {} := by
  rw [← cutsAt_iff]
  constructor
  · intro h
    obtain ⟨first, rest, ha⟩ := exists_splitFrom separator {} a
    obtain ⟨next, back, hb⟩ := exists_splitFrom separator {} b
    have hcut := cutsAt_of_splitTopLevel (by simp [splitTopLevel, ha]) (by simp [splitTopLevel, hb]) h
    rwa [splitTopLevel, intercalate_splitFrom] at hcut
  · exact fun hcut => splitFrom_append_cut hcut b

/-- A text is its pieces with the separator between them, and no piece is cut
again; the text is cut at every separator at which it can be. -/
theorem splitTopLevel_partition (separator : Char) (s : List Char) :
    [separator].intercalate (splitTopLevel separator s) = s ∧
      (∀ piece ∈ splitTopLevel separator s, splitTopLevel separator piece = [piece]) ∧
      ∀ a b, s = a ++ separator :: b →
        (splitTopLevel separator s = splitTopLevel separator a ++ splitTopLevel separator b ↔
          isNesting separator = false ∧ ({} : Nesting).after a = {}) := by
  refine ⟨intercalate_splitFrom separator {} s, ?_, ?_⟩
  · intro piece hpiece
    exact splitFrom_uncut ((separable_splitTopLevel separator s).uncut_of_mem hpiece)
  · rintro a b rfl
    exact splitTopLevel_append_iff separator a b

/-- A bracket that nothing opened, a string with a quote that does not end it,
an escaped separator, and a bracket that nothing closes. -/
theorem splitTopLevel_partition_unbalanced :
    [','].intercalate [")a".toList, "\"b\\\",c\" ".toList, "d\\,(e,f".toList] = ")a,\"b\\\",c\" ,d\\,(e,f".toList ∧
      "d\\,(e,f".toList ∈ splitTopLevel ',' ")a,\"b\\\",c\" ,d\\,(e,f".toList ∧
      splitTopLevel ',' "d\\,(e,f".toList = ["d\\,(e,f".toList] ∧
      splitTopLevel ',' ")a,\"b\\\",c\" ,d\\,(e,f".toList =
        splitTopLevel ',' ")a,\"b\\\",c\" ".toList ++ splitTopLevel ',' "d\\,(e,f".toList := by
  have hpieces : splitTopLevel ',' ")a,\"b\\\",c\" ,d\\,(e,f".toList =
      [")a".toList, "\"b\\\",c\" ".toList, "d\\,(e,f".toList] := by decide +kernel
  have hmem : "d\\,(e,f".toList ∈ splitTopLevel ',' ")a,\"b\\\",c\" ,d\\,(e,f".toList := by
    rw [hpieces]
    simp
  obtain ⟨hjoined, hagain, hcut⟩ := splitTopLevel_partition ',' ")a,\"b\\\",c\" ,d\\,(e,f".toList
  rw [hpieces] at hjoined
  refine ⟨hjoined, hmem, hagain _ hmem, ?_⟩
  exact (hcut ")a,\"b\\\",c\" ".toList "d\\,(e,f".toList (by decide +kernel)).2 (by decide +kernel)

end ThemeVars.Text
