/-
The two kinds of blank: the Unicode property White_Space, by which texts are
trimmed and cut into words, and the five characters that separate tokens in
a stylesheet. `trimStart` and `trimEnd` drop the first kind.
-/

namespace ThemeVars.Text

/-- Has the Unicode property White_Space. -/
def isBlank (c : Char) : Bool :=
  let n := c.toNat
  (9 ≤ n && n ≤ 13) || n == 32 || n == 0x85 || n == 0xA0 || n == 0x1680 ||
    (0x2000 ≤ n && n ≤ 0x200A) || n == 0x2028 || n == 0x2029 || n == 0x202F || n == 0x205F || n == 0x3000

/-- Ends a line of a stylesheet: line feed, form feed or carriage return. -/
def isNewline (c : Char) : Bool := c == '\n' || c == '\x0c' || c == '\r'

/-- Separates tokens: space, tab or a newline. -/
def isSpace (c : Char) : Bool := c == ' ' || c == '\t' || isNewline c

def trimStart (cs : List Char) : List Char := cs.dropWhile isBlank

def trimEnd (cs : List Char) : List Char := (cs.reverse.dropWhile isBlank).reverse

def trim (cs : List Char) : List Char := trimEnd (trimStart cs)

/-- A space that separates tokens is a blank. -/
theorem isBlank_of_isSpace {c : Char} (h : isSpace c = true) : isBlank c = true := by
  simp only [isSpace, isNewline, Bool.or_eq_true, beq_iff_eq] at h
  rcases h with (rfl | rfl) | (rfl | rfl) | rfl <;> decide

example : isBlank '\u0085' = true ∧ isBlank '\u3000' = true ∧ isBlank '\u200b' = false ∧
    isBlank '\x1c' = false := by decide

end ThemeVars.Text

namespace String

/-- The text without blanks at its end. -/
def trimmedEnd (s : String) : String := String.ofList (ThemeVars.Text.trimEnd s.toList)

/-- The text without blanks at both ends. -/
def trimmed (s : String) : String := String.ofList (ThemeVars.Text.trim s.toList)

end String
