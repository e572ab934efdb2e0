/-
Where a text ends, counted in lines and columns. A sheet is counted in line
feeds and bytes; a value in newlines of every kind and in UTF-16 units.
-/
import ThemeVars.Text.Blank

namespace ThemeVars.Text

/-- A line and a column. -/
structure Position where
  line : Nat
  column : Nat
deriving DecidableEq, Repr

/-- What stands after the last line feed. -/
def lastLine (cs : List Char) : List Char :=
  (cs.reverse.takeWhile fun c => c != '\n').reverse

def utf8Length (cs : List Char) : Nat := cs.foldr (fun c length => c.utf8Size + length) 0

/-- The position just after `consumed` in a sheet: lines from 1, columns in
bytes from 1. -/
def sheetPosition (consumed : List Char) : Position :=
  ⟨consumed.count '\n' + 1, utf8Length (lastLine consumed) + 1⟩

/-- The number of UTF-16 units that write the character. -/
def units16 (c : Char) : Nat := if c.toNat < 0x10000 then 1 else 2

/-- The position after `c`, given the position before it and whether a
carriage return stands before it: such a pair is one newline. -/
def Position.advance (p : Position) (afterReturn : Bool) (c : Char) : Position :=
  if c == '\n' && afterReturn then { p with column := 1 }
  else if isNewline c then ⟨p.line + 1, 1⟩
  else { p with column := p.column + units16 c }

def positionFrom (p : Position) : Bool → List Char → Position
  | _, [] => p
  | afterReturn, c :: cs => positionFrom (p.advance afterReturn c) (c == '\r') cs

/-- The position just after `consumed` in a value: lines from 0, columns in
UTF-16 units from 1. -/
def valuePosition (consumed : List Char) : Position := positionFrom ⟨0, 1⟩ false consumed

example : sheetPosition "é\nab".toList = ⟨2, 3⟩ := by decide
example : valuePosition "a\r\nb\r\r😀".toList = ⟨3, 3⟩ := by decide

end ThemeVars.Text
