/-
Tokens grouped by brackets. An opening bracket is closed by the first closing
bracket of its kind that no opening bracket in between takes; what closes
nothing is a token like any other, and what is never closed reaches to the
end. `lexemes_ofLexemes`: grouping neither loses nor moves a lexeme.
-/
import ThemeVars.Token.Lexer

namespace ThemeVars

/-- A sequence of lexemes and of blocks. A block has an opening lexeme, an
inside, and a closing lexeme unless the text ends first. -/
inductive Pieces where
  | done
  | leaf (l : Lexeme) (rest : Pieces)
  | block (opener : Lexeme) (bracket : Bracket) (inner : Pieces) (closer : Option Lexeme) (rest : Pieces)
deriving Repr

namespace Pieces

/-- The number of lexemes and blocks, at every depth. -/
def size : Pieces → Nat
  | .done => 0
  | .leaf _ rest => rest.size + 1
  | .block _ _ inner _ rest => inner.size + rest.size + 1

/-- The lexemes in the order of the text. -/
def lexemes : Pieces → List Lexeme
  | .done => []
  | .leaf l rest => l :: rest.lexemes
  | .block opener _ inner closer rest => opener :: inner.lexemes ++ closer.toList ++ rest.lexemes

/-- The text of all lexemes. -/
def text (p : Pieces) : List Char := p.lexemes.flatMap (·.text)

/-- The text of a block, from its opening to its closing lexeme. -/
def blockText (opener : Lexeme) (inner : Pieces) (closer : Option Lexeme) : List Char :=
  opener.text ++ inner.text ++ closer.toList.flatMap (·.text)

/-- Cuts the sequence at the first lexeme outside blocks that closes a bracket
of the given kind. -/
def cutAt (bracket : Bracket) : Pieces → Pieces × Option (Lexeme × Pieces)
  | .done => (.done, .none)
  | .leaf l rest =>
    if l.token.isClosing bracket then (.done, .some (l, rest))
    else
      let (before, after) := rest.cutAt bracket
      (.leaf l before, after)
  | .block opener kind inner closer rest =>
    let (before, after) := rest.cutAt bracket
    (.block opener kind inner closer before, after)

/-- The sequence with a lexeme in front; an opening bracket takes what it
encloses out of the sequence. -/
def cons (l : Lexeme) (p : Pieces) : Pieces :=
  match l.token.opens? with
  | .none => .leaf l p
  | .some bracket =>
    match p.cutAt bracket with
    | (inner, .some (closer, rest)) => .block l bracket inner (.some closer) rest
    | (inner, .none) => .block l bracket inner .none .done

def ofLexemes (ls : List Lexeme) : Pieces := ls.foldr cons .done

/-- The pieces of a text. -/
def ofText (s : List Char) : Pieces := ofLexemes (ThemeVars.lexemes s)

theorem lexemes_cutAt (bracket : Bracket) (p : Pieces) :
    p.lexemes = (p.cutAt bracket).1.lexemes ++
      (match (p.cutAt bracket).2 with
       | .none => []
       | .some (closer, rest) => closer :: rest.lexemes) := by
  induction p with
  | done => rfl
  | leaf l rest ih =>
    simp only [cutAt]
    split
    · simp [lexemes]
    · simp only [lexemes]
      rw [ih]
      simp
  | block opener kind inner closer rest _ ih =>
    simp only [cutAt, lexemes]
    rw [ih]
    simp

theorem lexemes_cons (l : Lexeme) (p : Pieces) : (cons l p).lexemes = l :: p.lexemes := by
  unfold cons
  split
  · rfl
  · rename_i bracket _
    have h := lexemes_cutAt bracket p
    split <;> rename_i hc <;> simp [lexemes, h, hc]

/-- Grouping neither loses nor moves a lexeme. -/
theorem lexemes_ofLexemes (ls : List Lexeme) : (ofLexemes ls).lexemes = ls := by
  induction ls with
  | nil => rfl
  | cons l ls ih =>
    simp only [ofLexemes, List.foldr_cons] at ih ⊢
    rw [lexemes_cons, ih]

/-- The pieces of a text are the text. -/
theorem text_ofText (s : List Char) : (ofText s).text = s := by
  rw [text, ofText, lexemes_ofLexemes, lexemes_text]

/-- The sequence without the lexemes at its front that satisfy `p`. -/
def dropLeaves (p : Token → Bool) : Pieces → Pieces
  | .leaf l rest => if p l.token then rest.dropLeaves p else .leaf l rest
  | q => q

/-- The text of the lexemes at the front that satisfy `p`. -/
def leavesText (p : Token → Bool) : Pieces → List Char
  | .leaf l rest => if p l.token then l.text ++ rest.leavesText p else []
  | _ => []

/-- The sequence after the comments at its front. -/
def afterComments (q : Pieces) : Pieces := q.dropLeaves (· == .comment)

/-- The sequence after the space and comments at its front. -/
def afterFiller (q : Pieces) : Pieces := q.dropLeaves Token.isFiller

theorem size_dropLeaves_le (p : Token → Bool) (q : Pieces) : (q.dropLeaves p).size ≤ q.size := by
  induction q with
  | done => simp [dropLeaves]
  | leaf l rest ih =>
    simp only [dropLeaves]
    split
    · exact Nat.le_trans ih (by simp [size])
    · exact Nat.le_refl _
  | block => simp [dropLeaves]

end Pieces

end ThemeVars
