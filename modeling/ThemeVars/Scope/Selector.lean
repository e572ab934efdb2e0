/-
Restricting selectors to documents whose root element carries a marker. A
branch that selects the root element gets the marker there; any other is put
under a root that has it. `scope` does nothing to a branch that is scoped.
-/
import ThemeVars.Text.Split
import ThemeVars.Text.Blank
import ThemeVars.Text.Case
import ThemeVars.Text.Search

namespace ThemeVars.Selector

/-- What is left after the attribute selectors at the front; none if one of
them is not closed. -/
def afterAttributes? : (inside : Bool) → List Char → Option (List Char)
  | inside, [] => if inside then .none else .some []
  | true, c :: cs => afterAttributes? (c != ']') cs
  | false, c :: cs => if c == '[' then afterAttributes? true cs else .some (c :: cs)

def continuesName (c : Char) : Bool := c.isAlphanum || c == '-' || c == '_'

/-- The length of the token at the front that selects the root element: `html`,
or `:root` after any number of attribute selectors, where the name ends. -/
def rootLength? (branch : List Char) : Option Nat :=
  let lower := Text.lower branch
  let length : Option Nat :=
    if "html".toList.isPrefixOf lower then .some 4
    else
      match afterAttributes? false lower with
      | .none => .none
      | .some rest =>
        if ":root".toList.isPrefixOf rest then .some (lower.length - rest.length + 5) else .none
  length.filter fun n => !(lower.drop n).head?.any continuesName

/-- The marker with single quotes. -/
def singleQuoted (marker : List Char) : List Char := marker.map fun c => if c == '"' then '\'' else c

/-- Restricts one branch, blanks before it left out. -/
def scopeBranch (marker branch : List Char) : List Char :=
  match rootLength? branch with
  | .none => ":root".toList ++ marker ++ ' ' :: branch
  | .some n =>
    let token := branch.take n
    let rest := branch.drop n
    let carries (m : List Char) : Bool := Text.occurs m token || m.isPrefixOf rest
    if carries marker || carries (singleQuoted marker) then branch else token ++ marker ++ rest

/-- Restricts a branch and keeps the blanks before it. -/
def scopePiece (marker piece : List Char) : List Char :=
  piece.takeWhile Text.isBlank ++ scopeBranch marker (Text.trimStart piece)

/-- Restricts every branch of a list of selectors. -/
def scope (marker selector : String) : String :=
  let pieces := Text.splitTopLevel ',' selector.toList
  String.ofList ([','].intercalate (pieces.map (scopePiece marker.toList)))

end ThemeVars.Selector
