/-
The custom properties that stand for variables. `ofName_distinct`: each is legal
as a name, and two variables share one only if their digests, or those of their
readable forms, are the same. What happens to the readable part and to a digit at
the front brings no names together on its own.
-/
import ThemeVars.Ident
import Mathlib.Tactic.Common

namespace ThemeVars

/-! ## Digests -/

namespace Digest

/-- A digit, or a small letter up to `f`. -/
def IsHexadecimal (c : Char) : Prop := 48 ≤ c.toNat ∧ c.toNat ≤ 57 ∨ 97 ≤ c.toNat ∧ c.toNat ≤ 102

theorem toNat_hexDigit {n : Nat} (h : n < 16) : IsHexadecimal (hexDigit n) := by
  unfold IsHexadecimal
  revert n
  decide

theorem length_hexWord (w : UInt32) : (hexWord w).length = 8 := rfl

theorem isHexadecimal_hexWord {w : UInt32} {c : Char} (h : c ∈ hexWord w) : IsHexadecimal c := by
  obtain ⟨b, -, hc⟩ := List.mem_flatMap.1 h
  have hb := b.toNat_lt
  rcases List.mem_cons.1 hc with rfl | hc
  · exact toNat_hexDigit (by omega)
  · rw [List.mem_singleton] at hc
    subst hc
    exact toNat_hexDigit (by omega)

theorem length_short (text : String) : (short text).toList.length = 8 := by
  rw [short, String.toList_ofList, length_hexWord]

theorem isHexadecimal_short {text : String} {c : Char} (h : c ∈ (short text).toList) : IsHexadecimal c := by
  rw [short, String.toList_ofList] at h
  exact isHexadecimal_hexWord h

end Digest

namespace Ident

open Digest (IsHexadecimal)

/-! ## The first character -/

theorem isDigit_iff (c : Char) : c.isDigit = true ↔ 48 ≤ c.toNat ∧ c.toNat ≤ 57 := by
  simp only [Char.isDigit, Bool.and_eq_true, decide_eq_true_eq, UInt32.le_iff_toNat_le, ge_iff_le]
  exact Iff.rfl

/-- What stands at the front for a character. -/
def leading (c : Char) : Char := if c.isDigit then Char.ofNat (c.toNat - 48 + 103) else c

theorem withoutLeadingDigit_cons (c : Char) (cs : List Char) : withoutLeadingDigit (c :: cs) = leading c :: cs := by
  rw [withoutLeadingDigit, leading]
  split
  · rfl
  · rfl

theorem toNat_leading (c : Char) : (leading c).toNat = if c.isDigit then c.toNat + 55 else c.toNat := by
  unfold leading
  split
  · rename_i hc
    rw [isDigit_iff] at hc
    have hvalid : (c.toNat - 48 + 103).isValidChar := .inl (by omega)
    rw [Char.ofNat, dif_pos hvalid]
    change c.toNat - 48 + 103 = c.toNat + 55
    omega
  · rfl

theorem isDigit_leading (c : Char) : (leading c).isDigit = false := by
  rw [← Bool.not_eq_true, isDigit_iff, toNat_leading]
  split
  · rename_i hc
    rw [isDigit_iff] at hc
    omega
  · rename_i hc
    rwa [isDigit_iff] at hc

/-- Digits and small letters. -/
theorem isPlain_of_toNat {c : Char} (h : 48 ≤ c.toNat ∧ c.toNat ≤ 57 ∨ 97 ≤ c.toNat ∧ c.toNat ≤ 122) : isPlain c = true := by
  have hplain : isPlain c = (c.isUpper || c.isLower || c.isDigit || c == '_' || c == '-') := rfl
  have hlower : c.isLower = (decide (97 ≤ c.val) && decide (c.val ≤ 122)) := rfl
  rw [hplain]
  rcases h with h | h
  · simp [(isDigit_iff c).2 h]
  · have h97 : 97 ≤ c.val := UInt32.le_iff_toNat_le.2 h.1
    have h122 : c.val ≤ 122 := UInt32.le_iff_toNat_le.2 h.2
    simp [hlower, h97, h122]

theorem isPlain_leading {c : Char} (h : isPlain c = true) : isPlain (leading c) = true := by
  by_cases hc : c.isDigit = true
  · have hn := toNat_leading c
    rw [if_pos hc] at hn
    rw [isDigit_iff] at hc
    exact isPlain_of_toNat (.inr (by omega))
  · rwa [leading, if_neg hc]

/-- A letter that stands for a digit is none of a digest. -/
theorem leading_injective {c d : Char} (hc : IsHexadecimal c) (hd : IsHexadecimal d) (h : leading c = leading d) : c = d := by
  have hn := congrArg Char.toNat h
  rw [toNat_leading, toNat_leading] at hn
  simp only [isDigit_iff] at hn
  unfold IsHexadecimal at hc hd
  refine Char.toNat_inj.1 ?_
  split at hn <;> split at hn <;> omega

theorem withoutLeadingDigit_injective {a b : List Char} (ha : ∀ c ∈ a, IsHexadecimal c) (hb : ∀ c ∈ b, IsHexadecimal c)
    (h : withoutLeadingDigit a = withoutLeadingDigit b) : a = b := by
  cases a with
  | nil =>
    cases b with
    | nil => rfl
    | cons d ds =>
      rw [withoutLeadingDigit_cons] at h
      cases h
  | cons c cs =>
    cases b with
    | nil =>
      rw [withoutLeadingDigit_cons] at h
      cases h
    | cons d ds =>
      rw [withoutLeadingDigit_cons, withoutLeadingDigit_cons, List.cons.injEq] at h
      rw [leading_injective (ha c List.mem_cons_self) (hb d List.mem_cons_self) h.1, h.2]

/-! ## Names -/

theorem isPlain_of_isHexadecimal {c : Char} (h : IsHexadecimal c) : isPlain c = true :=
  isPlain_of_toNat (h.imp id fun h => ⟨h.1, Nat.le_trans h.2 (by decide)⟩)

theorem isPlain_sanitize {name : String} {c : Char} (h : c ∈ (sanitize name).toList) : isPlain c = true := by
  rw [sanitize, String.toList_ofList] at h
  obtain ⟨d, -, rfl⟩ := List.mem_map.1 h
  split
  · assumption
  · rfl

theorem isPlain_body {mode : IdentMode} {name : String} {c : Char} (h : c ∈ body mode name) : isPlain c = true := by
  cases mode with
  | debug =>
    rcases List.mem_append.1 h with h | h
    · exact isPlain_sanitize h
    · rcases List.mem_cons.1 h with rfl | h
      · rfl
      · exact isPlain_of_isHexadecimal (Digest.isHexadecimal_short h)
  | production => exact isPlain_of_isHexadecimal (Digest.isHexadecimal_short h)

theorem body_ne_nil (mode : IdentMode) (name : String) : body mode name ≠ [] := by
  cases mode with
  | debug => simp [body]
  | production =>
    refine List.ne_nil_of_length_pos ?_
    rw [body, Digest.length_short]
    decide

/-- Two hyphens, and then letters, digits, hyphens and low lines, with no digit
first. -/
def IsLegal (i : Ident) : Prop :=
  ∃ c cs, i.text.toList = '-' :: '-' :: c :: cs ∧ c.isDigit = false ∧ ∀ d ∈ c :: cs, isPlain d = true

theorem ofName_isLegal (mode : IdentMode) (name : String) : (ofName mode name).IsLegal := by
  obtain ⟨c, cs, hbody⟩ := List.exists_cons_of_ne_nil (body_ne_nil mode name)
  have hplain : ∀ d ∈ c :: cs, isPlain d = true := fun d hd => isPlain_body (hbody ▸ hd)
  refine ⟨leading c, cs, ?_, isDigit_leading c, fun d hd => ?_⟩
  · rw [ofName, String.toList_ofList, hbody, withoutLeadingDigit_cons]
  · rcases List.mem_cons.1 hd with rfl | hd
    · exact isPlain_leading (hplain c List.mem_cons_self)
    · exact hplain d (List.mem_cons_of_mem c hd)

theorem ofName_eq_iff {mode : IdentMode} {a b : String} :
    ofName mode a = ofName mode b ↔ withoutLeadingDigit (body mode a) = withoutLeadingDigit (body mode b) := by
  simp [ofName, String.ofList_inj]

/-- The digest stands at the end, as it is. -/
theorem withoutLeadingDigit_debug (name : String) :
    withoutLeadingDigit (body .debug name) =
      withoutLeadingDigit ((sanitize name).toList ++ ['-']) ++ (Digest.short name).toList := by
  rw [body]
  cases (sanitize name).toList with
  | nil => rfl
  | cons c cs => simp [withoutLeadingDigit_cons]

/-- An ident is legal as the name of a custom property, and shows which digest it
was made from: that of the name, behind the readable part, or that of the
readable form of the name. -/
theorem ofName_distinct (a b : String) :
    (∀ mode, (ofName mode a).IsLegal) ∧
      (ofName .debug a = ofName .debug b ↔
        withoutLeadingDigit ((sanitize a).toList ++ ['-']) = withoutLeadingDigit ((sanitize b).toList ++ ['-']) ∧
          Digest.short a = Digest.short b) ∧
      (ofName .production a = ofName .production b ↔ Digest.short (readable a) = Digest.short (readable b)) := by
  refine ⟨fun mode => ofName_isLegal mode a, ?_, ?_⟩
  · rw [ofName_eq_iff, withoutLeadingDigit_debug, withoutLeadingDigit_debug, ← String.toList_inj]
    constructor
    · exact fun h => List.append_inj' h (by rw [Digest.length_short, Digest.length_short])
    · rintro ⟨hfront, hdigest⟩
      rw [hfront, hdigest]
  · rw [ofName_eq_iff, ← String.toList_inj]
    constructor
    · exact withoutLeadingDigit_injective (fun _ => Digest.isHexadecimal_short) fun _ => Digest.isHexadecimal_short
    · exact fun h => congrArg withoutLeadingDigit h

end Ident

end ThemeVars
