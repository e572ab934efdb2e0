/-
The variables of a file by where they come from: theme variables are declared
by a theme file and not here; reference variables are declared here and depend
on theme and reference variables alone; the rest are context variables.
-/
import ThemeVars.Variable.Table
import ThemeVars.Value.Color

namespace ThemeVars

/-- The idents of each kind, in the order of their tables. -/
structure Classification where
  theme : List Ident
  reference : List Ident
  context : List Ident
deriving DecidableEq, Repr

/-- A file's own table, the table of its theme, and whether only what carries
color is taken from it. -/
structure Classifier where
  context : Table
  theme : Table
  onlyColor : Bool

namespace Classifier

/-- Declared by the theme and not by the file. -/
def isTheme (c : Classifier) (ident : Ident) : Bool := !c.context.contains ident && c.theme.contains ident

/-- A theme variable that carries color, where that is asked for. -/
def isCandidate (c : Classifier) (ident : Ident) : Bool :=
  c.isTheme ident &&
    (!c.onlyColor || (c.theme.get? ident).any fun v => Color.isBearing (.some v.name) v.resolved)

/-- Depends on something, and on theme and reference variables alone; `waiting`
are the file's variables that are not under way. -/
def isReferenceAmong (c : Classifier) (waiting : List Ident) (ident : Ident) : Bool :=
  if _h : ident ∈ waiting then
    match c.context.get? ident with
    | .none => false
    | .some v =>
      !v.dependencies.isEmpty &&
        v.dependencies.all fun d => c.isTheme d || c.isReferenceAmong (waiting.erase ident) d
  else false
termination_by waiting.length
decreasing_by
  rw [List.length_erase_of_mem _h]
  have := List.length_pos_of_mem _h
  omega

def isReference (c : Classifier) (ident : Ident) : Bool := c.isReferenceAmong c.context.idents ident

def classify (c : Classifier) : Classification where
  theme := c.theme.idents.filter c.isCandidate
  reference := c.context.idents.filter c.isReference
  context := c.context.idents.filter fun ident => !c.isReference ident

end Classifier

end ThemeVars
