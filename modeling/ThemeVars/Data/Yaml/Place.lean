/-
Where a reader of YAML stands: the characters ahead, and how many characters
and lines lie behind. Once `withLineFeeds` has been at the text, every line
end is a single character.
-/

namespace ThemeVars.Yaml

def isBlank (c : Char) : Bool := c == ' ' || c == '\t'

/-- A line feed, a line separator or a paragraph separator. -/
def isBreak (c : Char) : Bool := c == '\n' || c == '\u2028' || c == '\u2029'

def isSpace (c : Char) : Bool := isBlank c || isBreak c

/-- Space or the end of the text follows. -/
def endsWord (s : List Char) : Bool := s.head?.all isSpace

/-- Every carriage return, with the line feed after it if there is one, and
every next-line character made a line feed. -/
def withLineFeeds : (afterReturn : Bool) → List Char → List Char
  | _, [] => []
  | afterReturn, c :: cs =>
    if c == '\r' then '\n' :: withLineFeeds true cs
    else if c == '\n' && afterReturn then withLineFeeds false cs
    else if c == '\u0085' then '\n' :: withLineFeeds false cs
    else c :: withLineFeeds false cs

/-- The column after a character at `column`. -/
def columnAfter (column : Nat) (c : Char) : Nat := if isBreak c then 0 else column + 1

/-- Three hyphens or three points stand at the front, as the mark of a
document's beginning or end. -/
def marksDocument (column : Nat) (s : List Char) : Bool :=
  column == 0 && (['-', '-', '-'].isPrefixOf s || ['.', '.', '.'].isPrefixOf s) && endsWord (s.drop 3)

/-- The number of characters up to and with the end of a line on which only
blanks and a comment are left. -/
def restOfLine? (s : List Char) : Option Nat :=
  let blanks := (s.takeWhile isBlank).length
  let after := s.drop blanks
  let comment := if after.head? == .some '#' then (after.takeWhile (!isBreak ·)).length else 0
  match after.drop comment with
  | [] => .some (blanks + comment)
  | c :: _ => if isBreak c then .some (blanks + comment + 1) else .none

structure Place where
  /-- The number of characters behind. -/
  passed : Nat
  /-- The number of lines behind. -/
  line : Nat
  column : Nat
  /-- The characters ahead. -/
  rest : List Char
deriving Repr

namespace Place

def start (s : List Char) : Place := ⟨0, 0, 0, s⟩

/-- The place one character further. -/
def next (p : Place) : Place :=
  match p.rest with
  | [] => p
  | c :: cs => ⟨p.passed + 1, if isBreak c then p.line + 1 else p.line, columnAfter p.column c, cs⟩

/-- The place so many characters further. -/
def skip (p : Place) : Nat → Place
  | 0 => p
  | n + 1 => p.next.skip n

end Place

end ThemeVars.Yaml
