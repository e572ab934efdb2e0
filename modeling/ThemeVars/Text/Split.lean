/-
Cutting a text at a separator that stands outside strings and brackets.
`splitTopLevel` always answers at least one piece, and the pieces, joined by
the separator, are the text.
-/

namespace ThemeVars.Text

/-- Where in a text one stands: the number of open brackets, the quote of the
string one is in, and whether a backslash came just before. -/
structure Nesting where
  depth : Nat := 0
  quote : Option Char := .none
  escaped : Bool := false
deriving DecidableEq

def isQuote (c : Char) : Bool := c == '"' || c == '\''

def isOpening (c : Char) : Bool := c == '(' || c == '[' || c == '\x7b'

def isClosing (c : Char) : Bool := c == ')' || c == ']' || c == '\x7d'

/-- Where one stands after the character `c`. A closing bracket that nothing
opened is passed over, and brackets are not told apart. -/
def Nesting.step (n : Nesting) (c : Char) : Nesting :=
  if n.escaped then { n with escaped := false }
  else if c == '\\' then { n with escaped := true }
  else if isQuote c then
    match n.quote with
    | .none => { n with quote := .some c }
    | .some q => if q == c then { n with quote := .none } else n
  else if n.quote.isSome then n
  else if isOpening c then { n with depth := n.depth + 1 }
  else if isClosing c then { n with depth := n.depth - 1 }
  else n

/-- The character `c` is the separator, outside strings and brackets. -/
def Nesting.cutsAt (n : Nesting) (separator c : Char) : Bool :=
  c == separator && n == {} && !(c == '\\' || isQuote c || isOpening c || isClosing c)

/-- The pieces of a text that is entered in the state `n`. -/
def splitFrom (separator : Char) : Nesting → List Char → List (List Char)
  | _, [] => [[]]
  | n, c :: cs =>
    if n.cutsAt separator c then [] :: splitFrom separator n cs
    else (splitFrom separator (n.step c) cs).modifyHead (c :: ·)

/-- The pieces between the separators that stand outside strings and brackets,
blanks included. -/
def splitTopLevel (separator : Char) (text : List Char) : List (List Char) :=
  splitFrom separator {} text

end ThemeVars.Text
