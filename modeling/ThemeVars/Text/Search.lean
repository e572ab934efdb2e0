/-
Looking for one text in another.
-/

namespace ThemeVars.Text

/-- The text has `part` in it. -/
def occurs (part : List Char) : List Char → Bool
  | [] => part.isEmpty
  | c :: cs => part.isPrefixOf (c :: cs) || occurs part cs

/-- The text with every `part` replaced, from the front and without overlap;
`skip` characters are passed over as replaced already. -/
def replaceFrom (part new : List Char) : Nat → List Char → List Char
  | _, [] => []
  | skip + 1, _ :: cs => replaceFrom part new skip cs
  | 0, c :: cs =>
    if part.isPrefixOf (c :: cs) then new ++ replaceFrom part new (part.length - 1) cs
    else c :: replaceFrom part new 0 cs

end ThemeVars.Text

namespace String

def beginsWith (s start : String) : Bool := start.toList.isPrefixOf s.toList

/-- The text has `part` in it. -/
def occursIn (part s : String) : Bool := ThemeVars.Text.occurs part.toList s.toList

/-- The text with every `part` replaced, where `part` is not empty. -/
def replacing (s part new : String) : String :=
  String.ofList (ThemeVars.Text.replaceFrom part.toList new.toList 0 s.toList)

end String
