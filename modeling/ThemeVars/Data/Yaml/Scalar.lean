/-
The scalars of YAML: without quotes, in quotes, and as blocks of lines. Where
a scalar is folded, the end of a line is a space, unless empty lines follow,
of which each is a line end.
-/
import ThemeVars.Data.Yaml.Place

namespace ThemeVars.Yaml

/-- A scalar as far as it has been read. -/
structure Scalar where
  text : List Char
  /-- The number of characters that it takes, with the space after it. -/
  taken : Nat
  /-- A line ends in that space. -/
  newLine : Bool
deriving Repr

/-- The scalar with one more character in front, which stands for `text`. -/
def Scalar.cons (text : List Char) (r : Scalar) : Scalar :=
  { r with text := text ++ r.text, taken := r.taken + 1 }

/-- What space inside a scalar stands for. After a line end that is escaped
(`joined`), only the other line ends are kept; so is a line end that is not a
line feed. -/
def folded (joined : Bool) (space : List Char) : List Char :=
  let breaks := space.filter isBreak
  if joined then breaks
  else
    match breaks with
    | [] => space
    | ['\n'] => [' ']
    | '\n' :: more => more
    | _ => breaks

def isFlowSign (c : Char) : Bool := c == ',' || c == '[' || c == ']' || c == '\x7b' || c == '\x7d'

/-- A scalar without quotes can begin here, in brackets (`flow`) or not. -/
def startsPlain (flow : Bool) : List Char → Bool
  | [] => false
  | c :: cs =>
    if c == '-' then !endsWord cs
    else if c == '?' || c == ':' then !flow && !endsWord cs
    else !(isSpace c || isFlowSign c ||
      ['#', '&', '*', '!', '|', '>', '\'', '"', '%', '@', '\x60'].contains c)

/-- A scalar without quotes, of which all lines but the first are indented by
`indent`. It ends before a colon and space, a comment, a mark of a document,
a line that is indented less, or a sign of the brackets around it. `space` is
the space just before the first character. -/
def plainFrom (flow : Bool) (indent : Nat) : (column : Nat) → (space : List Char) → List Char →
    Option Scalar
  | _, space, [] => .some ⟨[], 0, space.any isBreak⟩
  | column, space, c :: cs =>
    let newLine := space.any isBreak
    let done : Option Scalar := .some ⟨[], 0, newLine⟩
    if isSpace c then
      if c == '\t' && newLine && decide (column < indent) then .none
      else (plainFrom flow indent (columnAfter column c) (space ++ [c]) cs).map (·.cons [])
    else if !space.isEmpty && (c == '#' || (!flow && decide (column < indent))) then done
    else if marksDocument column (c :: cs) then done
    else if flow && c == ':' && cs.head?.any fun d => d == '?' || isFlowSign d then .none
    else if (c == ':' && endsWord cs) || (flow && isFlowSign c) then done
    else (plainFrom flow indent (column + 1) [] cs).map (·.cons (folded false space ++ [c]))

def hexDigit? (c : Char) : Option Nat :=
  if c.isDigit then .some (c.toNat - 48)
  else if 'a' ≤ c && c ≤ 'f' then .some (c.toNat - 87)
  else if 'A' ≤ c && c ≤ 'F' then .some (c.toNat - 55)
  else .none

/-- The character with the code point that the digits write. -/
def charOf? (digits : List Char) : Option Char := do
  let ds ← digits.mapM hexDigit?
  let n := ds.foldl (fun n d => 16 * n + d) 0
  if n.isValidChar then .some (Char.ofNat n) else .none

/-- The number of digits that the escape is followed by. -/
def escapeLength (c : Char) : Nat := if c == 'x' then 2 else if c == 'u' then 4 else if c == 'U' then 8 else 0

/-- What an escape of one letter stands for. -/
def escapedLetter? (c : Char) : Option Char :=
  [('0', '\x00'), ('a', '\x07'), ('b', '\x08'), ('t', '\t'), ('\t', '\t'), ('n', '\n'), ('v', '\x0b'),
    ('f', '\x0c'), ('r', '\r'), ('e', '\x1b'), (' ', ' '), ('"', '"'), ('/', '/'), ('\\', '\\'),
    ('N', '\u0085'), ('_', '\u00a0'), ('L', '\u2028'), ('P', '\u2029')].lookup c

/-- What the escape with the letter `e` stands for, and the number of digits
that belong to it. -/
def escape? (e : Char) (after : List Char) : Option (Char × Nat) :=
  let count := escapeLength e
  if count == 0 then (escapedLetter? e).map (·, 0)
  else if after.length < count then .none
  else (charOf? (after.take count)).map (·, count)

/-- A scalar in quotes after the first of them. `skipped` characters are read
already; `space` is the space just before the first character, and `joined`
says that the line end before it was escaped. -/
def quotedFrom (quote : Char) : (skipped column : Nat) → (space : List Char) → (joined : Bool) →
    List Char → Option Scalar
  | _, _, _, _, [] => .none
  | skipped + 1, column, space, joined, c :: cs =>
    (quotedFrom quote skipped (columnAfter column c) space joined cs).map (·.cons [])
  | 0, column, space, joined, c :: cs =>
    let filler := folded joined space
    if isSpace c then
      (quotedFrom quote 0 (columnAfter column c) (space ++ [c]) joined cs).map (·.cons [])
    else if marksDocument column (c :: cs) then .none
    else if c == quote then
      if quote == '\'' && cs.head? == .some '\'' then
        (quotedFrom quote 1 (column + 1) [] false cs).map (·.cons (filler ++ [c]))
      else .some ⟨filler, 1, false⟩
    else if quote == '"' && c == '\\' then
      match cs with
      | [] => .none
      | e :: after =>
        if isBreak e then (quotedFrom quote 1 (column + 1) [] true cs).map (·.cons filler)
        else
          match escape? e after with
          | .none => .none
          | .some (d, count) =>
            (quotedFrom quote (count + 1) (column + 1) [] false cs).map (·.cons (filler ++ [d]))
    else (quotedFrom quote 0 (column + 1) [] false cs).map (·.cons (filler ++ [c]))

/-- What becomes of the line ends at the end of a block. -/
inductive Chomping where
  | strip
  | clip
  | keep
deriving DecidableEq, Repr

def Chomping.ofSign? (c : Char) : Option Chomping :=
  if c == '-' then .some .strip else if c == '+' then .some .keep else .none

/-- The line end after the last line of a block, and the empty lines after
that, as far as they belong to it. -/
def Chomping.tail (chomping : Chomping) (lineEnd emptyLines : List Char) : List Char :=
  match chomping with
  | .strip => []
  | .clip => lineEnd
  | .keep => lineEnd ++ emptyLines

/-- The signs after the sign of a block, in either order: its chomping, its
indentation if it is given, and the number of signs. -/
def blockSigns? (s : List Char) : Option (Chomping × Option Nat × Nat) :=
  let width? (c : Char) : Option Nat := if c.isDigit then .some (c.toNat - 48) else .none
  let first := s.head?
  let second := (s.drop 1).head?
  match first.bind Chomping.ofSign?, first.bind width? with
  | .some chomping, _ =>
    match second.bind width? with
    | .some width => if width == 0 then .none else .some (chomping, .some width, 2)
    | .none => .some (chomping, .none, 1)
  | .none, .some width =>
    if width == 0 then .none
    else
      match second.bind Chomping.ofSign? with
      | .some chomping => .some (chomping, .some width, 2)
      | .none => .some (.clip, .some width, 1)
  | .none, .none => .some (.clip, .none, 0)

/-- How a block is read. -/
structure BlockForm where
  /-- Its line ends are kept and not folded. -/
  literal : Bool
  chomping : Chomping
  /-- The least indentation that is not given but found. -/
  least : Nat
deriving Repr

/-- Where the reader of a block stands: inside a line, or before one, with
the line end and the empty lines that lie between it and the last line. -/
inductive BlockState where
  | inLine (startsBlank : Bool)
  | margin (column widest : Nat) (lineEnd emptyLines : List Char) (afterBlank : Bool)
deriving Repr

/-- The lines of a block. Its indentation, if it is not yet known, is that of
the first line that is not empty, and no line before may be wider. -/
def blockFrom (form : BlockForm) : (indent : Option Nat) → BlockState → List Char → Option Scalar
  | _, .inLine _, [] => .some ⟨[], 0, true⟩
  | _, .margin _ _ lineEnd emptyLines _, [] => .some ⟨form.chomping.tail lineEnd emptyLines, 0, true⟩
  | indent, .inLine startsBlank, c :: cs =>
    if isBreak c then (blockFrom form indent (.margin 0 0 [c] [] startsBlank) cs).map (·.cons [])
    else (blockFrom form indent (.inLine startsBlank) cs).map (·.cons [c])
  | indent, .margin column widest lineEnd emptyLines afterBlank, c :: cs =>
    let inMargin := indent.all fun width => decide (column < width)
    let widest := max widest column
    if inMargin && c == ' ' then
      (blockFrom form indent (.margin (column + 1) widest lineEnd emptyLines afterBlank) cs).map (·.cons [])
    else if inMargin && c == '\t' then .none
    else if isBreak c then
      (blockFrom form indent (.margin 0 widest lineEnd (emptyLines ++ [c]) afterBlank) cs).map (·.cons [])
    else
      let width := indent.getD (max widest form.least)
      if column == width then
        let isFolded := !form.literal && lineEnd == ['\n'] && !afterBlank && !isBlank c
        let joint := if !isFolded then lineEnd else if emptyLines.isEmpty then [' '] else []
        (blockFrom form (.some width) (.inLine (isBlank c)) cs).map (·.cons (joint ++ emptyLines ++ [c]))
      else .some ⟨form.chomping.tail lineEnd emptyLines, 0, true⟩

/-- A block after its sign; `outer` is the column of the collection that it
stands in. -/
def block? (literal : Bool) (outer : Option Nat) (s : List Char) : Option Scalar := do
  let (chomping, width, signs) ← blockSigns? s
  let line ← restOfLine? (s.drop signs)
  let least := match outer with
    | .some column => column + 1
    | .none => 1
  let indent := width.map (outer.getD 0 + ·)
  let r ← blockFrom ⟨literal, chomping, least⟩ indent (.margin 0 0 [] [] false) (s.drop (signs + line))
  return { r with taken := signs + line + r.taken }

end ThemeVars.Yaml
