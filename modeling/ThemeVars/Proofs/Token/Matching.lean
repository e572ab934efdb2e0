/-
Pieces whose brackets match. `matched_ofLexemes`: grouping lexemes makes such
pieces. `ofLexemes_lexemes`: pieces whose brackets match are what grouping
makes of their lexemes.
-/
import Mathlib.Tactic.Common
import ThemeVars.Token.Pieces

namespace ThemeVars.Pieces

theorem text_leaf (l : Lexeme) (rest : Pieces) : (leaf l rest).text = l.text ++ rest.text := by
  simp [text, lexemes]

theorem text_block (opener : Lexeme) (bracket : Bracket) (inner : Pieces) (closer : Option Lexeme) (rest : Pieces) :
    (block opener bracket inner closer rest).text = blockText opener inner closer ++ rest.text := by
  simp [text, lexemes, blockText]

/-- No lexeme outside blocks closes a bracket of this kind. -/
def Lacks (bracket : Bracket) : Pieces → Prop
  | .done => True
  | .leaf l rest => l.token.isClosing bracket = false ∧ rest.Lacks bracket
  | .block _ _ _ _ rest => rest.Lacks bracket

/-- Every block in the sequence is closed. -/
def Closed : Pieces → Prop
  | .done => True
  | .leaf _ rest => rest.Closed
  | .block _ _ inner closer rest => inner.Closed ∧ closer ≠ .none ∧ rest.Closed

/-- Opening lexemes open blocks, and each block is closed by the first lexeme
that can close it; one that is never closed reaches to the end. -/
def Matched : Pieces → Prop
  | .done => True
  | .leaf l rest => l.token.opens? = .none ∧ rest.Matched
  | .block opener bracket inner closer rest =>
    opener.token.opens? = .some bracket ∧ inner.Lacks bracket ∧ inner.Matched ∧
      (∀ l, closer = .some l → l.token = .closing bracket ∧ inner.Closed) ∧
      (closer = .none → rest = .done) ∧ rest.Matched

theorem cutAt_of_lacks {bracket : Bracket} {p : Pieces} (h : p.Lacks bracket) : p.cutAt bracket = (p, .none) := by
  induction p with
  | done => rfl
  | leaf l rest ih => simp [cutAt, h.1, ih h.2]
  | block opener kind inner closer rest _ ih => simp [cutAt, ih h]

theorem lacks_cutAt (bracket : Bracket) (p : Pieces) : (p.cutAt bracket).1.Lacks bracket := by
  induction p with
  | done => trivial
  | leaf l rest ih =>
    by_cases hl : l.token.isClosing bracket = true
    · simp [cutAt, hl, Lacks]
    · rw [Bool.not_eq_true] at hl
      simp [cutAt, hl, Lacks, ih]
  | block opener kind inner closer rest _ ih => simpa [cutAt, Lacks] using ih

/-- What stands before a closing lexeme that cuts is closed. -/
theorem closed_cutAt (bracket : Bracket) {p : Pieces} (hp : p.Matched) (h : (p.cutAt bracket).2 ≠ .none) :
    (p.cutAt bracket).1.Closed := by
  induction p with
  | done => exact absurd rfl h
  | leaf l rest ih =>
    by_cases hl : l.token.isClosing bracket = true
    · simp [cutAt, hl, Closed]
    · rw [Bool.not_eq_true] at hl
      simp only [cutAt, hl, Bool.false_eq_true, if_false] at h ⊢
      exact ih hp.2 h
  | block opener kind inner closer rest _ ih =>
    obtain ⟨-, -, -, hc, hn, hr⟩ := hp
    simp only [cutAt] at h ⊢
    cases closer with
    | none => simp [hn rfl, cutAt] at h
    | some l => exact ⟨(hc l rfl).2, Option.some_ne_none l, ih hr h⟩

/-- Cutting keeps brackets matched on both sides, and cuts at a closing one. -/
theorem matched_cutAt (bracket : Bracket) {p : Pieces} (h : p.Matched) :
    (p.cutAt bracket).1.Matched ∧
      ∀ l rest, (p.cutAt bracket).2 = .some (l, rest) → l.token = .closing bracket ∧ rest.Matched := by
  induction p with
  | done => exact ⟨trivial, fun _ _ h => nomatch h⟩
  | leaf l rest ih =>
    by_cases hl : l.token.isClosing bracket = true
    · refine ⟨by simp [cutAt, hl, Matched], fun m r hm => ?_⟩
      simp only [cutAt, hl, if_true, Option.some.injEq, Prod.mk.injEq] at hm
      obtain ⟨rfl, rfl⟩ := hm
      exact ⟨by simpa [Token.isClosing] using hl, h.2⟩
    · rw [Bool.not_eq_true] at hl
      simp only [cutAt, hl, Bool.false_eq_true, if_false]
      exact ⟨⟨h.1, (ih h.2).1⟩, (ih h.2).2⟩
  | block opener kind inner closer rest _ ih =>
    obtain ⟨ho, hl, hi, hc, hn, hr⟩ := h
    refine ⟨⟨ho, hl, hi, hc, fun hnone => ?_, (ih hr).1⟩, (ih hr).2⟩
    simp [hn hnone, cutAt]

theorem matched_cons (l : Lexeme) {p : Pieces} (h : p.Matched) : (cons l p).Matched := by
  unfold cons
  cases ho : l.token.opens? with
  | none => exact ⟨ho, h⟩
  | some bracket =>
    have hl := lacks_cutAt bracket p
    have hm := matched_cutAt bracket h
    have hclosed := closed_cutAt bracket h
    rcases hc : p.cutAt bracket with ⟨inner, _ | ⟨closer, rest⟩⟩
    · rw [hc] at hl hm
      simp only [hc]
      exact ⟨ho, hl, hm.1, fun _ h => (nomatch h), fun _ => rfl, trivial⟩
    · rw [hc] at hl hm hclosed
      obtain ⟨hcl, hr⟩ := hm.2 closer rest rfl
      simp only [hc]
      refine ⟨ho, hl, hm.1, fun l hl => ?_, fun h => (nomatch h), hr⟩
      cases hl
      exact ⟨hcl, hclosed (Option.some_ne_none _)⟩

/-- Grouping matches brackets. -/
theorem matched_ofLexemes (ls : List Lexeme) : (ofLexemes ls).Matched := by
  induction ls with
  | nil => trivial
  | cons l ls ih => exact matched_cons l ih

/-! ## Grouping what has been grouped -/

/-- One sequence after the other. -/
def append : Pieces → Pieces → Pieces
  | .done, q => q
  | .leaf l rest, q => .leaf l (rest.append q)
  | .block opener bracket inner closer rest, q => .block opener bracket inner closer (rest.append q)

theorem append_done (p : Pieces) : p.append .done = p := by
  induction p with
  | done => rfl
  | leaf l rest ih => rw [append, ih]
  | block opener bracket inner closer rest _ ih => rw [append, ih]

theorem lacks_append {bracket : Bracket} {p q : Pieces} : (p.append q).Lacks bracket ↔ p.Lacks bracket ∧ q.Lacks bracket := by
  induction p with
  | done => exact (true_and _).to_iff.symm
  | leaf l rest ih => exact (and_congr_right fun _ => ih).trans and_assoc.symm
  | block opener kind inner closer rest _ ih => exact ih

theorem cutAt_append {bracket : Bracket} {p : Pieces} (q : Pieces) (h : p.Lacks bracket) :
    (p.append q).cutAt bracket = (p.append (q.cutAt bracket).1, (q.cutAt bracket).2) := by
  induction p with
  | done => rfl
  | leaf l rest ih => simp [append, cutAt, h.1, ih h.2]
  | block opener kind inner closer rest _ ih => simp [append, cutAt, ih h]

theorem opens?_of_closing {t : Token} {bracket : Bracket} (h : t = .closing bracket) : t.opens? = .none := by
  rw [h]
  rfl

/-- Grouping goes through matched pieces one by one, if they are closed or
nothing follows. -/
theorem ofLexemes_append {p : Pieces} (hp : p.Matched) (ls : List Lexeme) (h : p.Closed ∨ ls = []) :
    ofLexemes (p.lexemes ++ ls) = p.append (ofLexemes ls) := by
  induction p generalizing ls with
  | done => rfl
  | leaf l rest ih =>
    have hr := ih hp.2 ls h
    simp only [ofLexemes, lexemes, List.cons_append, List.foldr_cons] at hr ⊢
    rw [hr, cons, hp.1]
    rfl
  | block opener bracket inner closer rest ihi ihr =>
    obtain ⟨ho, hl, hi, hc, hn, hr⟩ := hp
    cases closer with
    | none =>
      have hls : ls = [] := h.resolve_left fun hclosed => hclosed.2.1 rfl
      have hinner := ihi hi [] (.inr rfl)
      rw [List.append_nil] at hinner
      subst hls
      rw [hn rfl]
      simp only [ofLexemes, lexemes, Option.toList_none, List.append_nil, List.foldr_cons] at hinner ⊢
      rw [hinner, cons, ho]
      simp only [List.foldr_nil, append_done, cutAt_of_lacks hl, append]
    | some l =>
      obtain ⟨ht, hclosed⟩ := hc l rfl
      have hinner := ihi hi (l :: (rest.lexemes ++ ls)) (.inl hclosed)
      have hrest := ihr hr ls (h.imp_left fun hcl => hcl.2.2)
      simp only [ofLexemes, lexemes, Option.toList_some, List.cons_append, List.append_assoc, List.foldr_cons,
        List.nil_append] at hinner hrest ⊢
      rw [hinner, hrest, cons, ho]
      have hcut : cutAt bracket (cons l (rest.append (List.foldr cons .done ls))) =
          (.done, .some (l, rest.append (List.foldr cons .done ls))) := by
        rw [cons, opens?_of_closing ht]
        simp [cutAt, ht, Token.isClosing]
      simp only [cutAt_append _ hl, hcut, append_done, append]

/-- Matched pieces are what grouping makes of their lexemes. -/
theorem ofLexemes_lexemes {p : Pieces} (hp : p.Matched) : ofLexemes p.lexemes = p := by
  have h := ofLexemes_append hp [] (.inr rfl)
  rw [List.append_nil] at h
  rw [h]
  exact append_done p

/-! ## Other lexemes with the same tokens -/

section

variable {g : Lexeme → Lexeme}

/-- Each lexeme as `g` has it. -/
def map (g : Lexeme → Lexeme) : Pieces → Pieces
  | .done => .done
  | .leaf l rest => .leaf (g l) (rest.map g)
  | .block opener bracket inner closer rest =>
    .block (g opener) bracket (inner.map g) (closer.map g) (rest.map g)

theorem lexemes_map (p : Pieces) : (p.map g).lexemes = p.lexemes.map g := by
  induction p with
  | done => rfl
  | leaf l rest ih => simp only [map, lexemes, ih, List.map_cons]
  | block opener bracket inner closer rest ihi ih =>
    simp only [map, lexemes, ihi, ih, List.map_cons, List.map_append, List.cons_append]
    cases closer <;> rfl

variable (hg : ∀ l, (g l).token = l.token)

include hg

theorem cutAt_map (bracket : Bracket) (p : Pieces) :
    (p.map g).cutAt bracket =
      ((p.cutAt bracket).1.map g, (p.cutAt bracket).2.map fun (l, rest) => (g l, rest.map g)) := by
  induction p with
  | done => rfl
  | leaf l rest ih =>
    simp only [map, cutAt, hg, ih]
    split <;> rfl
  | block opener kind inner closer rest _ ih =>
    simp only [map, cutAt, ih]

theorem cons_map (l : Lexeme) (p : Pieces) : cons (g l) (p.map g) = (cons l p).map g := by
  simp only [cons, hg, cutAt_map hg]
  cases l.token.opens? with
  | none => rfl
  | some bracket =>
    simp only
    generalize p.cutAt bracket = c
    obtain ⟨inner, _ | ⟨closer, rest⟩⟩ := c <;> rfl

/-- Lexemes with the same tokens are grouped in the same way. -/
theorem ofLexemes_map (ls : List Lexeme) : ofLexemes (ls.map g) = (ofLexemes ls).map g := by
  induction ls with
  | nil => rfl
  | cons l ls ih =>
    simp only [ofLexemes, List.map_cons, List.foldr_cons] at ih ⊢
    rw [ih, cons_map hg]

end

end ThemeVars.Pieces
