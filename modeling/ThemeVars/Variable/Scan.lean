/-
The variables that a sheet declares: at its top level, and as custom
properties of rules that select the root element alone.
-/
import ThemeVars.Variable.Table
import ThemeVars.Sheet.Basic
import ThemeVars.Dialect

namespace ThemeVars

namespace Node

/-- The declarations of custom properties among the nodes. -/
def customProperties (nodes : List Node) : List (String × String) :=
  nodes.filterMap fun
    | .declaration property value _ _ => if isCustomProperty property then .some (property, value) else .none
    | _ => .none

/-- The variables that a top-level node declares, with their values, and
whether they are properties of the root element. -/
def declared (dialect : Dialect) : Node → Bool × List (String × String)
  | .declaration property value _ _ =>
    (false, if dialect.isVariableName property then [(property, value)] else [])
  | .rule selector children _ => (true, if isRootSelector selector then customProperties children else [])
  | _ => (false, [])

end Node

namespace Sheet

/-- The variables of the nodes from `position` on. -/
def variablesFrom (dialect : Dialect) (mode : IdentMode) (file : Option Path) (position : Nat) :
    List Node → List Variable
  | [] => []
  | node :: rest =>
    let (rootScoped, declared) := node.declared dialect
    (declared.map fun (name, raw) =>
        { ident := .ofName mode name, name, raw, rootScoped, source := file, position }) ++
      variablesFrom dialect mode file (position + 1) rest

/-- The table of the variables that the sheet declares, not resolved yet. -/
def scan (sheet : Sheet) (file : Option Path) (dialect : Dialect) (mode : IdentMode) : Table :=
  .ofList (variablesFrom dialect mode file 0 sheet.nodes)

end Sheet

end ThemeVars
