/-
Letters without regard to case. Only the ASCII letters have a case here: a
keyword, a property or a function name is recognised by `lower`.
-/

namespace ThemeVars.Text

/-- The text with its ASCII capitals made small. -/
def lower (cs : List Char) : List Char := cs.map Char.toLower

end ThemeVars.Text

namespace String

/-- The text with its ASCII capitals made small. -/
def lowered (s : String) : String := String.ofList (ThemeVars.Text.lower s.toList)

/-- Equal once ASCII capitals are made small. -/
def equalsIgnoringCase (a b : String) : Bool := a.lowered == b.lowered

end String
