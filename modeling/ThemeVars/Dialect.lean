/-
The style sheet dialects and what sets them apart: the sigil of a variable
and the extensions of a file.
-/
import ThemeVars.Path.Basic
import ThemeVars.Text.Case
import ThemeVars.Text.Search

namespace ThemeVars

inductive Dialect where
  | css
  | scss
  | less
  | stylus
deriving DecidableEq, Repr, Inhabited

namespace Dialect

/-- What a variable's name begins with, besides two hyphens. -/
def sigil? : Dialect → Option Char
  | .css => .none
  | .scss => .some '$'
  | .less => .some '@'
  | .stylus => .some '$'

def name : Dialect → String
  | .css => "css"
  | .scss => "scss"
  | .less => "less"
  | .stylus => "stylus"

/-- Two hyphens or the sigil, and something more. -/
def isVariableName (d : Dialect) (name : String) : Bool :=
  (name.beginsWith "--" && decide (2 < name.length)) ||
    d.sigil?.any fun sigil => name.toList.head? == .some sigil && decide (1 < name.length)

/-- The extensions that an import may leave out, in the order of trial. -/
def extensions : Dialect → List String
  | .css => ["css"]
  | .scss => ["scss", "sass", "css"]
  | .less => ["less", "css"]
  | .stylus => ["styl", "stylus", "css"]

/-- The dialect of files with this extension. -/
def ofExtension? (extension : String) : Option Dialect :=
  let e := extension.lowered
  if ["css", "pcss", "postcss"].contains e then .some .css
  else if ["scss", "sass"].contains e then .some .scss
  else if e == "less" then .some .less
  else if ["styl", "stylus"].contains e then .some .stylus
  else .none

/-- The dialect that the name of the file tells. -/
def ofPath? (p : Path) : Option Dialect := p.extension?.bind ofExtension?

/-- The dialect with this name, in letters of either case. -/
def ofName? (name : String) : Option Dialect :=
  let n := name.lowered
  if n == "css" then .some .css
  else if n == "scss" || n == "sass" then .some .scss
  else if n == "less" then .some .less
  else if n == "stylus" || n == "styl" then .some .stylus
  else .none

end Dialect

end ThemeVars
