/-
Line comments. Outside plain CSS, two slashes that are tokens of their own
begin a comment to the end of the line, unless a colon stands before them.
Each is found in the text after the one before it, and is shown to the lexer
as spaces, one for each byte, so that its text has no say in what the rest of
the sheet means. `maskFrom_source`: what is masked can be read back.
-/
import ThemeVars.Token.Lexer
import ThemeVars.Dialect

namespace ThemeVars.Masking

/-- Whether a character is code, starts a line comment or continues one. -/
inductive Mark where
  | code
  | commentStart
  | commentRest
deriving DecidableEq, Repr

/-- A character as the lexer sees it, and the text that it stands for. -/
structure Cell where
  shown : Char
  source : List Char
  mark : Mark
deriving DecidableEq, Repr

def codeCell (c : Char) : Cell := ⟨c, [c], .code⟩

/-- The spaces for one character of a comment, as many as it has bytes. -/
def commentCell (mark : Mark) (c : Char) : List Cell :=
  ⟨' ', [c], mark⟩ :: List.replicate (c.utf8Size - 1) ⟨' ', [], .commentRest⟩

/-- The spaces for a comment that begins with `c`. -/
def commentCells (c : Char) (rest : List Char) : List Cell :=
  commentCell .commentStart c ++ rest.flatMap (commentCell .commentRest)

/-- Where the first line comment starts; `before` is the character before the
lexemes. Two slashes begin one, or a slash and a comment. -/
def findComment (before : Option Char) : List Lexeme → Option Nat
  | l :: m :: rest =>
    if l.token == .delim '/' && (m.token == .delim '/' || m.token == .comment) && before != .some ':' then
      .some l.start
    else findComment l.text.getLast? (m :: rest)
  | _ => .none

/-- The text up to the end of its line, without a carriage return there. -/
def restOfLine (s : List Char) : List Char :=
  let line := s.takeWhile (· != '\n')
  if line.getLast? == .some '\r' then line.dropLast else line

/-- The text with its line comments masked. -/
def maskFrom (s : List Char) : List Cell :=
  match findComment .none (lexemes s) with
  | .none => s.map codeCell
  | .some start =>
    match _h : s.drop start with
    | [] => s.map codeCell
    | c :: cs =>
      let rest := restOfLine cs
      (s.take start).map codeCell ++ commentCells c rest ++ maskFrom (cs.drop rest.length)
termination_by s.length
decreasing_by
  have := congrArg List.length _h
  simp only [List.length_drop, List.length_cons] at this ⊢
  omega

/-- The cells of a sheet. Plain CSS has no line comments. -/
def mask (dialect : Dialect) (s : List Char) : List Cell :=
  if dialect == .css then s.map codeCell else maskFrom s

/-- The text that the lexer sees. -/
def shown (cells : List Cell) : List Char := cells.map (·.shown)

/-- The text that the cells stand for. -/
def source (cells : List Cell) : List Char := cells.flatMap (·.source)

/-- Cuts the cells of a space into space and line comments: the rest of the
run that is under way in `kind`, and the runs after it. -/
def runs (kind : Token) : List Cell → List Char × List (Token × List Char)
  | [] => ([], [])
  | cell :: rest =>
    match cell.mark with
    | .commentStart =>
      let (run, more) := runs .lineComment rest
      ([], (.lineComment, cell.source ++ run) :: more)
    | .commentRest =>
      let (run, more) := runs kind rest
      (cell.source ++ run, more)
    | .code =>
      let (run, more) := runs .space rest
      if kind == .space then (cell.source ++ run, more) else ([], (.space, cell.source ++ run) :: more)

/-- The space and the line comments that the cells of a space stand for. -/
def spaceTokens (cells : List Cell) : List (Token × List Char) :=
  let (run, more) := runs .space cells
  if run.isEmpty then more else (.space, run) :: more

/-- The tokens of masked text, with the text that they stand for. -/
def sourceTokens : List Cell → List Lexeme → List (Token × List Char)
  | _, [] => []
  | cells, l :: ls =>
    let own := cells.take l.text.length
    let here := if l.token == .space then spaceTokens own else [(l.token, source own)]
    here ++ sourceTokens (cells.drop l.text.length) ls

/-- The tokens with their places in the text that begins with them. -/
def place (start : Nat) : List (Token × List Char) → List Lexeme
  | [] => []
  | (token, text) :: rest => ⟨token, text, start⟩ :: place (start + text.length) rest

/-- The lexemes of a sheet, line comments included. -/
def sheetLexemes (dialect : Dialect) (s : List Char) : List Lexeme :=
  let cells := mask dialect s
  place 0 (sourceTokens cells (lexemes (shown cells)))

theorem source_map_codeCell (s : List Char) : source (s.map codeCell) = s := by
  induction s with
  | nil => rfl
  | cons c cs ih =>
    simp only [source, List.map_cons, List.flatMap_cons] at ih ⊢
    rw [ih]
    rfl

theorem source_commentCell (mark : Mark) (c : Char) : source (commentCell mark c) = [c] := by
  simp [source, commentCell]

theorem source_commentCells (c : Char) (rest : List Char) : source (commentCells c rest) = c :: rest := by
  have h : source (rest.flatMap (commentCell .commentRest)) = rest := by
    induction rest with
    | nil => rfl
    | cons d ds ih =>
      have hd := source_commentCell .commentRest d
      simp only [source, List.flatMap_cons, List.flatMap_append] at hd ih ⊢
      rw [hd, ih]
      rfl
  have hc := source_commentCell .commentStart c
  simp only [source, commentCells, List.flatMap_append] at hc h ⊢
  rw [hc, h]
  rfl

theorem restOfLine_append (s : List Char) : restOfLine s ++ s.drop (restOfLine s).length = s := by
  have h : restOfLine s <+: s := by
    have hl := List.takeWhile_prefix (l := s) (· != '\n')
    simp only [restOfLine]
    split
    · exact (List.dropLast_prefix _).trans hl
    · exact hl
  obtain ⟨t, ht⟩ := h
  generalize restOfLine s = line at ht ⊢
  subst ht
  simp

/-- What is masked can be read back. -/
theorem maskFrom_source (s : List Char) : source (maskFrom s) = s := by
  fun_induction maskFrom s with
  | case1 => exact source_map_codeCell _
  | case2 => exact source_map_codeCell _
  | case3 s start _ c cs h rest ih =>
    have h1 := source_map_codeCell (s.take start)
    have h2 := source_commentCells c rest
    simp only [source, List.flatMap_append] at h1 h2 ih ⊢
    rw [h1, h2, ih, List.append_assoc, List.cons_append, restOfLine_append, ← h, List.take_append_drop]

end ThemeVars.Masking
