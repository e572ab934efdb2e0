/-
Space that is cut off before a closing parenthesis. `Bland`: what the tokens
before a space see of it, and of a parenthesis. `Tiled.withoutSpaces`: without
the space between them and the parenthesis, lexemes are read as they were, if
the last of them is firm.
-/
import ThemeVars.Proofs.Token.Pasting

namespace ThemeVars

open Text

/-! ## Spaces and a parenthesis -/

namespace Outlook

/-- Space or a closing parenthesis, with nothing behind it that can be seen. -/
structure Bland (o : Outlook) : Prop where
  head : ∃ c, o.head = .some c ∧ (isSpace c = true ∨ c = ')')
  name : o.name = false
  number : o.number = false
  point : o.point = false
  signed : o.signed = false
  exponent : o.exponent = false
  arrow : o.arrow = false
  dashes : o.dashes = false
  bang : o.bang = false
  quote : o.quote = false

end Outlook

theorem bland_paren (u : List Char) : (outlook (')' :: u)).Bland :=
  ⟨⟨')', rfl, .inr rfl⟩, rfl, rfl, rfl, rfl, rfl, rfl, rfl, rfl, rfl⟩

theorem bland_space {c : Char} {u : List Char} (hc : isSpace c = true) (hu : (outlook u).quote = false) :
    (outlook (c :: u)).Bland := by
  refine ⟨⟨c, rfl, .inl hc⟩, ?_, ?_, ?_, ?_, ?_, ?_, ?_, ?_, by simpa [Outlook.step, hc] using hu⟩
  all_goals
    rw [isSpace_iff] at hc
    rcases hc with rfl | rfl | rfl | rfl | rfl <;> rfl

/-- A run of spaces before a parenthesis. -/
theorem bland_spaces {s u : List Char} (hs : ∀ c ∈ s, isSpace c = true) : (outlook (s ++ ')' :: u)).Bland := by
  induction s with
  | nil => exact bland_paren u
  | cons c s ih => exact bland_space (hs c (by simp)) (ih fun d hd => hs d (by simp [hd])).quote

namespace Outlook

variable {o o' : Outlook}

/-- A space and a closing parenthesis are no part of anything. -/
theorem Bland.any_head (h : o.Bland) {f : Char → Bool} (hs : ∀ c, isSpace c = true → f c = false)
    (hp : f ')' = false) : o.head.any f = false := by
  obtain ⟨c, hc, hcs⟩ := h.head
  rw [hc]
  rcases hcs with hcs | rfl
  · exact hs c hcs
  · exact hp

theorem Bland.head_ne (h : o.Bland) {d : Char} (hd : isSpace d = false) (hp : d ≠ ')') : o.head ≠ .some d := by
  obtain ⟨c, hc, hcs⟩ := h.head
  rw [hc]
  intro he
  cases he
  rcases hcs with hcs | rfl
  · rw [hd] at hcs
    cases hcs
  · exact hp rfl

theorem not_isDigit_of_isSpace {c : Char} (hc : isSpace c = true) : c.isDigit = false := by
  rw [isSpace_iff] at hc
  rcases hc with rfl | rfl | rfl | rfl | rfl <;> rfl

theorem not_isNameStart_of_isSpace {c : Char} (hc : isSpace c = true) :
    (isNameStart c || c == '-' || c == '\\') = false := by
  rw [isSpace_iff] at hc
  rcases hc with rfl | rfl | rfl | rfl | rfl <;> rfl

theorem Bland.digit (h : o.Bland) : o.head.any Char.isDigit = false :=
  h.any_head (fun _ => not_isDigit_of_isSpace) rfl

/-- Only a backslash tells a space from a parenthesis. -/
theorem Bland.step (h : o.Bland) (h' : o'.Bland) {c : Char} (hc : c ≠ '\\') : o.step c = o'.step c := by
  have hname := h.any_head (fun _ => not_isNameStart_of_isSpace) rfl
  have hname' := h'.any_head (fun _ => not_isNameStart_of_isSpace) rfl
  have hgreater : (o.head == .some '>') = false := by simpa using h.head_ne (d := '>') rfl (by decide)
  have hgreater' : (o'.head == .some '>') = false := by simpa using h'.head_ne (d := '>') rfl (by decide)
  have hdash : (o.head == .some '-') = false := by simpa using h.head_ne (d := '-') rfl (by decide)
  have hdash' : (o'.head == .some '-') = false := by simpa using h'.head_ne (d := '-') rfl (by decide)
  rw [← beq_eq_false_iff_ne] at hc
  simp [Outlook.step, h.digit, h'.digit, h.point, h'.point, h.signed, h'.signed, h.dashes, h'.dashes, h.quote, h'.quote,
    hname, hname', hgreater, hgreater', hdash, hdash', hc]

/-- A backslash is not told from itself. -/
theorem step_backslash (c : Char) (o o' : Outlook) : (o.step '\\').step c = (o'.step '\\').step c := by
  simp [Outlook.step, isSpace, isNewline]

theorem Bland.through (h : o.Bland) (h' : o'.Bland) {x : List Char} (hx : x ≠ []) (hb : x ≠ ['\\']) :
    o.through x = o'.through x := by
  obtain ⟨y, c, rfl⟩ : ∃ y c, x = y ++ [c] := ⟨x.dropLast, x.getLast hx, (List.dropLast_concat_getLast hx).symm⟩
  rw [through_append, through_append]
  by_cases hc : c = '\\'
  · subst hc
    have hy : y ≠ [] := by rintro rfl; exact hb rfl
    obtain ⟨z, d, rfl⟩ : ∃ z d, y = z ++ [d] := ⟨y.dropLast, y.getLast hy, (List.dropLast_concat_getLast hy).symm⟩
    rw [through_append, through_append]
    exact congrArg _ (step_backslash d o o')
  · exact congrArg _ (h.step h' hc)

end Outlook

theorem isFresh_paren {st : EscapeState} {c : Char} (h : st.isFresh c = true) : st.isFresh ')' = true := by
  cases st with
  | plain => rfl
  | slash => cases h
  | hex digits value => simp [EscapeState.isFresh, isHexDigit, isSpace, isNewline]
  | carriage => rfl

section

variable {x u v : List Char} {t : Token}

/-- A token before a space is read before a closing parenthesis too, unless it
is a backslash, or begins what the parenthesis would end. -/
theorem Reads.before_paren {c : Char} (h : Reads x (c :: u) t) (hu : (outlook (c :: u)).Bland) (ho : t.opens? = .none)
    (hbad : ∀ s, t ≠ .badString s) (hx : x ≠ ['\\']) (v : List Char) : Reads x (')' :: v) t := by
  have hsettled := h.settled (List.cons_ne_nil _ _)
  have hv := bland_paren v
  have hends {y : List Char} (hy : (outlook (c :: u)).EndsName y) : (outlook (')' :: v)).EndsName y := by
    intro d hd
    cases hd
    exact ⟨isFresh_paren (hy c rfl).1, rfl⟩
  have hcb : (outlook (c :: u)).head ≠ .some '\\' := hu.head_ne rfl (by decide)
  have hkeeps {y : List Char} (hy : (outlook (c :: u)).KeepsName y) : (outlook (')' :: v)).KeepsName y :=
    ⟨fun hm => absurd (hy.1 hm) hcb, hends hy.2⟩
  refine h.change (List.cons_ne_nil _ _) ?_
  cases t with
  | ident => exact ⟨hkeeps hsettled.1, by simp, by simp⟩
  | function => cases ho
  | atKeyword => exact hkeeps hsettled
  | idHash => exact hkeeps hsettled
  | hash => exact ⟨by simp, hends hsettled.2⟩
  | badString s => exact absurd rfl (hbad s)
  | number n => exact ⟨⟨hv.digit, fun _ _ => hv.point, fun _ => hv.exponent⟩, by simp, hv.name⟩
  | dimension n =>
    refine ⟨hkeeps hsettled.1, fun hn => ?_⟩
    by_cases hunit : x.drop n.text.length = [] ∨ x.drop n.text.length = ['\\']
    · rcases hunit with hunit | hunit <;> rw [hunit] <;> rfl
    · rw [not_or] at hunit
      rw [hv.through hu hunit.1 hunit.2]
      exact hsettled.2 hn
  | delim d =>
    have hkept : (outlook (c :: u)).KeepsDelim d := hsettled
    have hd : d ≠ '\\' := fun hd => hx (by rw [h.sign rfl, hd])
    have hstep := hu.step hv hd
    exact ⟨hstep ▸ hkept.number, hstep ▸ hkept.name, fun _ => hv.arrow, fun _ => ⟨hv.name, rfl⟩, fun _ => hv.name,
      fun _ => by simp, fun _ => hv.bang, fun _ => by simp⟩
  | space => rfl
  | _ => trivial

end

/-! ## The last word -/

/-- The last lexeme that is no space. -/
def lastWord : List Lexeme → Option Lexeme
  | [] => .none
  | l :: ls => (lastWord ls).or (if l.token == .space then .none else .some l)

/-- A parenthesis does no harm to the token, and neither is it cut when the
blanks before one are. -/
def Lexeme.isFirm (l : Lexeme) : Bool :=
  l.token.opens?.isNone && (match l.token with | .badString _ => false | _ => true) && l.text != ['\\'] &&
    !l.text.getLast?.any isBlank

theorem lastWord_append (ls ms : List Lexeme) : lastWord (ls ++ ms) = (lastWord ms).or (lastWord ls) := by
  induction ls with
  | nil => rw [List.nil_append, lastWord, Option.or_none]
  | cons l ls ih => rw [List.cons_append, lastWord, ih, lastWord, Option.or_assoc]

theorem mem_of_lastWord {ls : List Lexeme} {l : Lexeme} (h : lastWord ls = .some l) : l ∈ ls := by
  induction ls with
  | nil => cases h
  | cons m ls ih =>
    rw [lastWord, Option.or_eq_some_iff] at h
    rcases h with h | ⟨-, h⟩
    · exact List.mem_cons_of_mem _ (ih h)
    · split at h
      · cases h
      · cases h
        exact List.mem_cons_self

theorem Tiled.text_ne_nil {ls ms : List Lexeme} (h : Tiled (ls ++ ms)) (hls : ls ≠ []) : ls.flatMap (·.text) ≠ [] := by
  obtain ⟨l, ls, rfl⟩ := List.exists_cons_of_ne_nil hls
  rw [List.cons_append] at h
  simp [h.1.ne_nil]

/-- A text of one character is one lexeme. -/
theorem Tiled.eq_singleton_of_text {ls ms : List Lexeme} {c : Char} (h : Tiled (ls ++ ms))
    (hc : ls.flatMap (·.text) = [c]) : ∃ l, ls = [l] ∧ l.text = [c] := by
  rcases ls with _ | ⟨l, ls⟩
  · cases hc
  · rw [List.cons_append] at h
    obtain ⟨d, x, hx⟩ := List.exists_cons_of_ne_nil h.1.ne_nil
    rw [List.flatMap_cons, hx, List.cons_append, List.cons.injEq, List.append_eq_nil_iff] at hc
    obtain ⟨rfl, rfl, hnil⟩ := hc
    by_cases hls : ls = []
    · exact ⟨l, by rw [hls], hx⟩
    · exact absurd hnil (Tiled.text_ne_nil h.2 hls)

/-- The spaces before a closing parenthesis can be left out. -/
theorem Tiled.withoutSpaces {ls spaces ms : List Lexeme} {w : List Char} (h : Tiled (ls ++ (spaces ++ ms)))
    (hs : ∀ s ∈ spaces, s.token = .space) (hms : ms.flatMap (·.text) = ')' :: w)
    (hl : ∀ l, ls.getLast? = .some l → l.isFirm = true) : Tiled (ls ++ ms) := by
  have hbland : (outlook (spaces.flatMap (·.text) ++ ')' :: w)).Bland := by
    refine bland_spaces fun c hc => ?_
    obtain ⟨s, hmem, hc⟩ := List.mem_flatMap.1 hc
    obtain ⟨rest, hread⟩ := h.of_append.reads (List.mem_append_left ms hmem)
    rw [hs s hmem] at hread
    exact hread.isSpace_of_mem hc
  induction ls with
  | nil => exact Tiled.of_append (a := spaces) h
  | cons l ls ih =>
    rw [List.cons_append] at h ⊢
    have hlast : ∀ m, ls.getLast? = .some m → m.isFirm = true := by
      intro m hm
      refine hl m ?_
      rw [List.getLast?_cons, hm]
      rfl
    refine ⟨?_, ih h.2 hlast⟩
    have hread := h.1
    simp only [List.flatMap_append, hms] at hread ⊢
    by_cases hls : ls = []
    · subst hls
      have hfirm := hl l rfl
      simp only [Lexeme.isFirm, Bool.and_eq_true, bne_iff_ne, Option.isNone_iff_eq_none] at hfirm
      obtain ⟨⟨⟨ho, hbad⟩, hb⟩, -⟩ := hfirm
      simp only [List.flatMap_nil, List.nil_append] at hread ⊢
      obtain ⟨c, y, hy⟩ : ∃ c y, spaces.flatMap (·.text) ++ ')' :: w = c :: y :=
        List.exists_cons_of_ne_nil (by simp)
      rw [hy] at hread hbland
      refine hread.before_paren hbland ho (fun s hs => ?_) hb w
      rw [hs] at hbad
      cases hbad
    · refine hread.congr ?_
      rw [outlook_append (ls.flatMap (·.text)), outlook_append (ls.flatMap (·.text))]
      refine hbland.through (bland_paren w) (Tiled.text_ne_nil h.2 hls) fun hb => ?_
      obtain ⟨m, hm, hmb⟩ := Tiled.eq_singleton_of_text h.2 hb
      have hfirm := hlast m (by rw [hm]; rfl)
      simp [Lexeme.isFirm, hmb] at hfirm

end ThemeVars
