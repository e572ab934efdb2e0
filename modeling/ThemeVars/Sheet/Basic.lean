/-
Style sheets as trees. A node keeps the text around its parts, so that an
unchanged tree is written as it was read.
-/
import ThemeVars.Path.Basic
import ThemeVars.Text.Split
import ThemeVars.Text.Case
import ThemeVars.Text.Search
import ThemeVars.Text.Blank

namespace ThemeVars

/-- The text around a node: before it, between its head and what the head
introduces, and at its end. -/
structure Spacing where
  before : String := ""
  between : String := ""
  after : String := ""
deriving DecidableEq, Repr, Inhabited

inductive Node where
  /-- A selector and a block. -/
  | rule (selector : String) (children : List Node) (spacing : Spacing)
  /-- A property and its value, the colon being in the text between them. A
  statement without a colon is a property without a value. -/
  | declaration (property value : String) (spacing : Spacing) (semicolon : Bool)
  /-- An at-rule without a block; `afterName` stands before the parameters. -/
  | statement (name params before afterName between : String) (semicolon : Bool)
  /-- An at-rule with a block. -/
  | group (name params : String) (children : List Node) (spacing : Spacing) (afterName : String)
  /-- A comment; `inLine` if it runs to the end of its line. -/
  | comment (text before : String) (inLine : Bool)
deriving Repr, Inhabited

/-- A style sheet: nodes, the text after the last, and the file it is from. -/
structure Sheet where
  nodes : List Node := []
  after : String := ""
  source : Option Path := .none
deriving Repr, Inhabited

namespace Node

/-- The text before the node. -/
def before : Node → String
  | .rule _ _ spacing => spacing.before
  | .declaration _ _ spacing _ => spacing.before
  | .statement _ _ before _ _ _ => before
  | .group _ _ _ spacing _ => spacing.before
  | .comment _ before _ => before

/-- The node with other text before it. -/
def withBefore (before : String) : Node → Node
  | .rule selector children spacing => .rule selector children { spacing with before }
  | .declaration property value spacing semicolon =>
    .declaration property value { spacing with before } semicolon
  | .statement name params _ afterName between semicolon =>
    .statement name params before afterName between semicolon
  | .group name params children spacing afterName =>
    .group name params children { spacing with before } afterName
  | .comment text _ inLine => .comment text before inLine

/-- A rule in the usual form, on a line of its own. -/
def newRule (selector : String) (children : List Node) : Node :=
  .rule selector children { before := "\n", between := " ", after := "\n" }

/-- A declaration in the usual form, indented by two spaces. -/
def newDeclaration (property value : String) : Node :=
  .declaration property value { before := "\n  ", between := ": " } true

/-- A comment in the usual form, on a line of its own. -/
def newComment (text : String) : Node := .comment text "\n" false

mutual

/-- The node as text. -/
def print : Node → String
  | .rule selector children spacing =>
    spacing.before ++ selector ++ spacing.between ++ "\x7b" ++ printAll children ++ spacing.after ++ "\x7d"
  | .declaration property value spacing semicolon =>
    spacing.before ++ property ++ spacing.between ++ value ++ spacing.after ++
      (if semicolon then ";" else "")
  | .statement name params before afterName between semicolon =>
    before ++ "@" ++ name ++ afterName ++ params ++ between ++ (if semicolon then ";" else "")
  | .group name params children spacing afterName =>
    spacing.before ++ "@" ++ name ++ afterName ++ params ++ spacing.between ++ "\x7b" ++
      printAll children ++ spacing.after ++ "\x7d"
  | .comment text before inLine =>
    before ++ (if inLine then "//" ++ text else "/*" ++ text ++ "*/")

/-- The nodes as text, one after the other. -/
def printAll : List Node → String
  | [] => ""
  | node :: rest => node.print ++ printAll rest

end

/-- The property is a custom one. -/
def isCustomProperty (property : String) : Bool := property.beginsWith "--"

/-- The branches of a list of selectors, trimmed. -/
def selectorBranches (selector : String) : List String :=
  (Text.splitTopLevel ',' selector.toList).map fun branch => String.ofList (Text.trim branch)

/-- Every branch of the list selects the root element and nothing else. -/
def isRootSelector (selector : String) : Bool :=
  (selectorBranches selector).all fun branch => branch.lowered == ":root" || branch.lowered == "html"

/-- A name without its vendor's part, in small letters: what follows the
second hyphen, where the first stands at the front. -/
def unprefixed (name : String) : String :=
  let lower := Text.lower name.toList
  match lower with
  | '-' :: rest =>
    match rest.dropWhile (· != '-') with
    | _ :: tail => String.ofList tail
    | [] => String.ofList lower
  | _ => String.ofList lower

/-- The name of an at-rule that brings in another style sheet. -/
def isImportName (name : String) : Bool := ["import", "use", "forward", "require"].contains name.lowered

end Node

namespace Sheet

/-- The style sheet as text. -/
def print (sheet : Sheet) : String := Node.printAll sheet.nodes ++ sheet.after

/-- The sheet with a node at the index, or at the end if the index is too
large. A node put first loses the text before it, and what stood first then
begins on a line of its own. -/
def insertAt (sheet : Sheet) (index : Nat) (node : Node) : Sheet :=
  let index := min index sheet.nodes.length
  if index == 0 then
    let rest :=
      match sheet.nodes with
      | [] => []
      | first :: rest => (if first.before.isEmpty then first.withBefore "\n" else first) :: rest
    { sheet with nodes := node.withBefore "" :: rest }
  else { sheet with nodes := sheet.nodes.take index ++ node :: sheet.nodes.drop index }

end Sheet

end ThemeVars
