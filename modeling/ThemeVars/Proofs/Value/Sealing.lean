/-
Values with the closing brackets that they lack. What writes a value piece by
piece closes every block; `sealed` are the pieces with those brackets in them.
-/
import ThemeVars.Proofs.Token.Matching
import ThemeVars.Proofs.Token.Tiling
import ThemeVars.Value.Reader

namespace ThemeVars

/-- A closing bracket is written in one way. -/
theorem Spelled.closing {bracket : Bracket} {text : List Char} (h : Spelled (.closing bracket) text) :
    text = bracket.closer.toList := by
  cases bracket with
  | round => exact h.sign _ rfl
  | square => exact h.sign _ rfl
  | curly => exact h.sign _ rfl

/-- A closing bracket is read before any text. -/
theorem reads_closing (bracket : Bracket) (rest : List Char) :
    Reads bracket.closer.toList rest (.closing bracket) := by
  cases bracket <;> exact ⟨_, [], rfl, rfl⟩

namespace Pieces

/-- The sequence with a closing lexeme for each block that has none. -/
def sealed : Pieces → Pieces
  | .done => .done
  | .leaf l rest => .leaf l rest.sealed
  | .block opener bracket inner closer rest =>
    .block opener bracket inner.sealed (.some (closer.getD ⟨.closing bracket, bracket.closer.toList, 0⟩)) rest.sealed

theorem closed_sealed (p : Pieces) : p.sealed.Closed := by
  induction p with
  | done => trivial
  | leaf l rest ih => exact ih
  | block opener bracket inner closer rest ihi ih => exact ⟨ihi, Option.some_ne_none _, ih⟩

theorem lacks_sealed {bracket : Bracket} {p : Pieces} (h : p.Lacks bracket) : p.sealed.Lacks bracket := by
  induction p with
  | done => trivial
  | leaf l rest ih => exact ⟨h.1, ih h.2⟩
  | block opener kind inner closer rest _ ih => exact ih h

/-- The brackets that close what was open match it. -/
theorem matched_sealed {p : Pieces} (h : p.Matched) : p.sealed.Matched := by
  induction p with
  | done => trivial
  | leaf l rest ih => exact ⟨h.1, ih h.2⟩
  | block opener bracket inner closer rest ihi ih =>
    obtain ⟨hopens, hlacks, hinner, hcloser, -, hrest⟩ := h
    refine ⟨hopens, lacks_sealed hlacks, ihi hinner, fun l hl => ?_, fun hn => (nomatch hn), ih hrest⟩
    cases hl
    refine ⟨?_, closed_sealed inner⟩
    cases closer with
    | none => rfl
    | some l => exact (hcloser l rfl).1

/-- Whether every block is closed can be looked up. -/
def decideClosed : (p : Pieces) → Decidable p.Closed
  | .done => .isTrue trivial
  | .leaf _ rest => decideClosed rest
  | .block _ _ inner closer rest =>
    have := decideClosed inner
    have := decideClosed rest
    have : Decidable (closer ≠ .none) := decidable_of_iff (closer.isSome = true) Option.isSome_iff_ne_none
    inferInstanceAs (Decidable (_ ∧ _ ∧ _))

instance : DecidablePred Closed := decideClosed

/-- Whether a bracket is closed outside the blocks can be looked up. -/
def decideLacks (bracket : Bracket) : (p : Pieces) → Decidable (p.Lacks bracket)
  | .done => .isTrue trivial
  | .leaf _ rest =>
    have := decideLacks bracket rest
    inferInstanceAs (Decidable (_ ∧ _))
  | .block _ _ _ _ rest => decideLacks bracket rest

instance (bracket : Bracket) : DecidablePred (Lacks bracket) := decideLacks bracket

/-- Where every block is closed, nothing is missing. -/
theorem sealed_of_closed {p : Pieces} (h : p.Closed) : p.sealed = p := by
  induction p with
  | done => rfl
  | leaf l rest ih => rw [sealed, ih h]
  | block opener bracket inner closer rest ihi ih =>
    obtain ⟨l, rfl⟩ := Option.ne_none_iff_exists'.1 h.2.1
    rw [sealed, ihi h.1, ih h.2.2, Option.getD_some]

/-- Matched pieces that are tiled are the pieces of their text, save for the
places. -/
theorem ofText_text {p : Pieces} (hm : p.Matched) (ht : Tiled p.lexemes) :
    (ofText p.text).map Lexeme.unplaced = p.map Lexeme.unplaced := by
  have htoken (l : Lexeme) : l.unplaced.token = l.token := rfl
  have hlexemes : (ThemeVars.lexemes p.text).map Lexeme.unplaced = p.lexemes.map Lexeme.unplaced :=
    lexemesFrom_of_tiled ht 0
  rw [ofText, ← ofLexemes_map htoken, hlexemes, ofLexemes_map htoken, ofLexemes_lexemes hm]

end Pieces

namespace Value

/-- Closing brackets at the end of the value, for the blocks that are open
there, are read as closing brackets: the value does not end in the middle of a
string or of another token that would take them in. -/
def TakesClosers (value : String) : Prop := Tiled (Pieces.ofText value.toList).sealed.lexemes

/-- A value in which every block is closed needs none. -/
theorem takesClosers_of_closed (value : String) (h : (Pieces.ofText value.toList).Closed) : TakesClosers value := by
  rw [TakesClosers, Pieces.sealed_of_closed h, Pieces.ofText, Pieces.lexemes_ofLexemes]
  exact tiled_lexemes _

end Value

end ThemeVars
