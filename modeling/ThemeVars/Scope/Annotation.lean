/-
Restricting a sheet to one theme: its rules apply to documents whose root
element carries the theme's marker, and its keyframes get names of their own.
-/
import ThemeVars.Scope.Selector
import ThemeVars.Scope.Animation
import ThemeVars.Sheet.Basic

namespace ThemeVars.Scope

/-- The names that stand for something else than keyframes. -/
def reservedNames : List String :=
  ["none", "initial", "inherit", "unset", "revert", "revert-layer", "default"]

/-- At-rules whose rules are the sheet's own under some condition. -/
def conditionalNames : List String := ["media", "supports", "document", "layer", "container"]

/-- The text without the quotes around it, if it has any. -/
def unquote (s : String) : String :=
  match s.toList with
  | c :: rest =>
    if Text.isQuote c && rest.getLast? == .some c then String.ofList rest.dropLast else s
  | [] => s

/-- The name of keyframes, trimmed, and the theme's name for them, between the
same quotes. Reserved names have none. -/
def newKeyframes? (params theme : String) : Option (String × String) :=
  let name := params.trimmed
  if name.isEmpty then .none
  else
    let bare := unquote name
    if reservedNames.any fun r => r.equalsIgnoringCase bare then .none
    else if bare.length == name.length then .some (name, bare ++ "-" ++ theme)
    else
      let quote := String.ofList (name.toList.take 1)
      .some (name, quote ++ bare ++ "-" ++ theme ++ quote)

/-- The parameters of keyframes under the theme, and the renames with them. -/
def renameParams (theme params : String) (renames : Animation.Renaming) :
    String × Animation.Renaming :=
  match newKeyframes? params theme with
  | .some (old, new) => (new, (unquote old, unquote new) :: renames)
  | .none => (params, renames)

mutual

/-- The node with the keyframes in it renamed. -/
def renameNode (theme : String) (renames : Animation.Renaming) :
    Node → Node × Animation.Renaming
  | .statement name params before afterName between semicolon =>
    if Node.unprefixed name == "keyframes" then
      let (params, renames) := renameParams theme params renames
      (.statement name params before afterName between semicolon, renames)
    else (.statement name params before afterName between semicolon, renames)
  | .group name params children spacing afterName =>
    if Node.unprefixed name == "keyframes" then
      let (params, renames) := renameParams theme params renames
      (.group name params children spacing afterName, renames)
    else if conditionalNames.contains (Node.unprefixed name) then
      let (children, renames) := renameNodes theme renames children
      (.group name params children spacing afterName, renames)
    else (.group name params children spacing afterName, renames)
  | node => (node, renames)

def renameNodes (theme : String) (renames : Animation.Renaming) :
    List Node → List Node × Animation.Renaming
  | [] => ([], renames)
  | node :: rest =>
    let (node, renames) := renameNode theme renames node
    let (rest, renames) := renameNodes theme renames rest
    (node :: rest, renames)

end

/-- The property names an animation, whatever its vendor. -/
def isAnimationProperty (property : String) : Bool :=
  ["animation", "animation-name"].contains (Node.unprefixed property)

/-- The declaration with the names of keyframes replaced. -/
def renameDeclaration (renames : Animation.Renaming) : Node → Node
  | .declaration property value spacing semicolon =>
    let value := if isAnimationProperty property then Animation.rename renames value else value
    .declaration property value spacing semicolon
  | node => node

mutual

/-- The node with its rules restricted. -/
def scopeNode (marker : String) (renames : Animation.Renaming) : Node → Node
  | .rule selector children spacing =>
    let children := if renames.isEmpty then children else children.map (renameDeclaration renames)
    .rule (Selector.scope marker selector) children spacing
  | .group name params children spacing afterName =>
    if conditionalNames.contains (Node.unprefixed name) then
      .group name params (scopeNodes marker renames children) spacing afterName
    else .group name params children spacing afterName
  | node => node

def scopeNodes (marker : String) (renames : Animation.Renaming) : List Node → List Node
  | [] => []
  | node :: rest => scopeNode marker renames node :: scopeNodes marker renames rest

end

/-- The attribute selector that tells the theme. -/
def marker (attr theme : String) : String := "[" ++ attr ++ "=\"" ++ theme ++ "\"]"

/-- Restricts a sheet to a theme. -/
def annotate (attr theme : String) (sheet : Sheet) : Sheet :=
  let (nodes, renames) := renameNodes theme [] sheet.nodes
  { sheet with nodes := scopeNodes (marker attr theme) renames nodes }

end ThemeVars.Scope
