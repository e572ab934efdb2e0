/-
What the lexer sees of the text after a token. `outlook` is computed from the
end of a text, one character at a time; `Settled` says which outlooks leave a
token as it is. `Reads.settled`: it is so where the token was read.
`Reads.change`: the token is read before any other text with such an outlook.
-/
import ThemeVars.Proofs.Token.Tiling

namespace ThemeVars

open Text

/-- What the lexer looks ahead for: the first character, and which of a few
openings the text has. -/
structure Outlook where
  head : Option Char := .none
  /-- A name. -/
  name : Bool := false
  /-- A point and a digit. -/
  point : Bool := false
  /-- A number, with or without a sign. -/
  number : Bool := false
  /-- A sign and a digit. -/
  signed : Bool := false
  /-- The exponent of a number. -/
  exponent : Bool := false
  /-- The end of the mark `-->`. -/
  arrow : Bool := false
  dashes : Bool := false
  /-- The end of the mark `<!--`. -/
  bang : Bool := false
  /-- Spaces and a quote. -/
  quote : Bool := false
deriving DecidableEq

namespace Outlook

/-- The outlook with a character in front. -/
def step (c : Char) (o : Outlook) : Outlook where
  head := .some c
  name :=
    if c == '-' then o.head.any fun d => isNameStart d || d == '-' || d == '\\'
    else if c == '\\' then !o.head.any isNewline
    else isNameStart c
  point := c == '.' && o.head.any Char.isDigit
  number :=
    c.isDigit || (c == '.' && o.head.any Char.isDigit) ||
      ((c == '+' || c == '-') && (o.head.any Char.isDigit || o.point))
  signed := (c == '+' || c == '-') && o.head.any Char.isDigit
  exponent := (c == 'e' || c == 'E') && (o.head.any Char.isDigit || o.signed)
  arrow := c == '-' && o.head == .some '>'
  dashes := c == '-' && o.head == .some '-'
  bang := c == '!' && o.dashes
  quote := if isSpace c then o.quote else isQuote c

@[simp] theorem head_step (c : Char) (o : Outlook) : (step c o).head = .some c := rfl

/-- The outlook with a text in front. -/
def through (x : List Char) (o : Outlook) : Outlook := x.foldr step o

@[simp] theorem through_nil (o : Outlook) : through [] o = o := rfl

@[simp] theorem through_cons (c : Char) (x : List Char) (o : Outlook) : through (c :: x) o = step c (through x o) := rfl

end Outlook

def outlook (s : List Char) : Outlook := Outlook.through s {}

@[simp] theorem outlook_nil : outlook [] = {} := rfl

@[simp] theorem outlook_cons (c : Char) (s : List Char) : outlook (c :: s) = (outlook s).step c := rfl

theorem outlook_append (x s : List Char) : outlook (x ++ s) = (outlook s).through x := List.foldr_append

/-! ## What an outlook tells -/

theorem outlook_head (s : List Char) : (outlook s).head = s.head? := by
  cases s <;> rfl

theorem outlook_name (s : List Char) : (outlook s).name = startsName s := by
  cases s with
  | nil => rfl
  | cons c s =>
    simp only [outlook_cons, Outlook.step, outlook_head]
    rfl

theorem outlook_point {s : List Char} : (outlook s).point = false ↔ Numeral.fractionOf s = [] := by
  cases s with
  | nil => simp [Numeral.fractionOf]
  | cons c s =>
    simp only [outlook_cons, Outlook.step, outlook_head]
    by_cases hc : c = '.'
    · subst hc
      cases s with
      | nil => simp [Numeral.fractionOf]
      | cons d s => cases hd : d.isDigit <;> simp [Numeral.fractionOf, hd]
    · simp [Numeral.fractionOf, hc]

theorem outlook_signed (s : List Char) :
    (outlook s).signed = (!(Numeral.signOf s).isEmpty && s.tail.head?.any Char.isDigit) := by
  cases s with
  | nil => rfl
  | cons c s =>
    simp only [outlook_cons, Outlook.step, outlook_head, Numeral.signOf]
    cases c == '+' <;> cases c == '-' <;> simp

theorem outlook_exponent {s : List Char} : (outlook s).exponent = false ↔ Numeral.exponentOf s = [] := by
  cases s with
  | nil => simp [Numeral.exponentOf]
  | cons e s =>
    simp only [outlook_cons, Outlook.step, outlook_head, outlook_signed, Numeral.exponentOf]
    cases he : (e == 'e' || e == 'E') with
    | false => simp
    | true =>
      cases s with
      | nil => simp [Numeral.signOf]
      | cons d s =>
        cases hd : d.isDigit with
        | true => simp [hd]
        | false => cases hs : (d == '+' || d == '-') <;> simp [hd, hs, Numeral.signOf]

theorem outlook_arrow {s : List Char} : (outlook s).arrow = true ↔ s.take 2 = ['-', '>'] := by
  cases s with
  | nil => simp
  | cons c s =>
    simp only [outlook_cons, Outlook.step, outlook_head]
    cases s <;> simp

theorem outlook_bang {s : List Char} : (outlook s).bang = true ↔ s.take 3 = ['!', '-', '-'] := by
  cases s with
  | nil => simp
  | cons c s =>
    simp only [outlook_cons, Outlook.step]
    cases s with
    | nil => simp
    | cons d s =>
      simp only [outlook_cons, Outlook.step, outlook_head]
      cases s <;> simp

theorem outlook_quote (s : List Char) : (outlook s).quote = (s.dropWhile isSpace).head?.any isQuote := by
  induction s with
  | nil => rfl
  | cons c s ih =>
    simp only [outlook_cons, Outlook.step]
    cases hc : isSpace c <;> simp [hc, ih]

theorem outlook_number (s : List Char) : (outlook s).number = Numeral.startsAt s := by
  cases s with
  | nil => rfl
  | cons c s =>
    simp only [outlook_cons, Outlook.step, outlook_head]
    by_cases hc : c = '+' ∨ c = '-'
    · have hsign : Numeral.signOf (c :: s) = [c] := by rcases hc with rfl | rfl <;> rfl
      have hd : c.isDigit = false ∧ c ≠ '.' := by rcases hc with rfl | rfl <;> decide
      have hc : (c == '+' || c == '-') = true := by simpa using hc
      simp only [Numeral.startsAt, hsign, List.length_singleton, List.drop_succ_cons, List.drop_zero, hc]
      cases s with
      | nil => simp [hd]
      | cons d s => simp [Outlook.step, outlook_head, hd]
    · rw [not_or] at hc
      simp [Numeral.startsAt_of_ne s hc.1 hc.2, hc]

/-! ## Names -/

namespace Outlook

/-- No part of a name that has been read up to here comes next. -/
def EndsName (x : List Char) (o : Outlook) : Prop :=
  ∀ c, o.head = .some c → (EscapeState.plain.after x).isFresh c = true ∧
    if c = '\\' then o.name = false else isNameChar c = false

/-- The name goes no further, and is one: a hyphen is a name only before a
backslash. -/
def KeepsName (x : List Char) (o : Outlook) : Prop := (x = ['-'] → o.head = .some '\\') ∧ o.EndsName x

end Outlook

theorem nameEnds_iff {x u : List Char} : NameEnds x u ↔ (outlook u).EndsName x := by
  cases u with
  | nil => exact ⟨fun _ c h => (nomatch h), fun _ => RunEnds.nil⟩
  | cons c u =>
    have hend : endsRun false isNameChar (EscapeState.plain.after x) c u = true ↔
        (EscapeState.plain.after x).isFresh c = true ∧
          if c = '\\' then (outlook (c :: u)).name = false else isNameChar c = false := by
      rw [outlook_name]
      by_cases hb : c = '\\'
      · subst hb
        simp [endsRun, startsName]
      · simp [endsRun, hb]
    constructor
    · intro h d hd
      rw [outlook_head, List.head?_cons, Option.some.injEq] at hd
      subst hd
      exact hend.1 (h c u rfl)
    · intro h d ds hd
      cases hd
      exact hend.2 (h c rfl)

/-- Only before a backslash does it matter what comes after the next character. -/
theorem Outlook.KeepsName.cons {x u : List Char} {c : Char} (h : (outlook (c :: u)).KeepsName x) (hc : c ≠ '\\')
    (v : List Char) : (outlook (c :: v)).KeepsName x := by
  refine ⟨h.1, fun d hd => ?_⟩
  have hend := h.2 d hd
  cases hd
  rwa [if_neg hc] at hend ⊢

theorem keepsName_of_nameAt {x u : List Char} (hs : startsName (x ++ u) = true) (hx : nameAt (x ++ u) = x) :
    (outlook u).KeepsName x := by
  have hend := nameEnds_iff.1 (nameEnds_of_nameAt hx)
  refine ⟨?_, hend⟩
  rintro rfl
  cases u with
  | nil => simp [startsName] at hs
  | cons c u =>
    by_contra hb
    have hb : c ≠ '\\' := fun h => hb (congrArg some h)
    have hchar := (hend c rfl).2
    rw [if_neg hb] at hchar
    simp only [isNameChar, Bool.or_eq_false_iff, beq_eq_false_iff_ne] at hchar
    simp [startsName, hchar, hb] at hs

theorem startsName_change {x u v : List Char} (hu : u ≠ []) (hs : startsName (x ++ u) = true)
    (hx : nameAt (x ++ u) = x) (hv : (outlook v).KeepsName x) :
    startsName (x ++ v) = true ∧ nameAt (x ++ v) = x := by
  refine ⟨?_, nameAt_change hx (nameEnds_iff.2 hv.2)⟩
  rcases x with _ | ⟨c, _ | ⟨d, x⟩⟩
  · exact absurd hx (nameAt_ne_nil hs)
  · by_cases hm : c = '-'
    · subst hm
      have hhead := hv.1 rfl
      rw [outlook_head] at hhead
      simp [startsName, hhead]
    by_cases hb : c = '\\'
    · subst hb
      exact absurd (eq_nil_of_runEnds_slash (nameEnds_of_nameAt hx)) hu
    · simpa [startsName, hm, hb] using hs
  · simpa [startsName] using hs

end ThemeVars
