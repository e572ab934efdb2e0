/-
Writing a file out so that its theme can change at run time: either a rule is
added that declares the theme's variables, or every reference to one becomes a
custom property with the value of now as its fallback. A variable that only
follows the theme is then declared at run time too.
-/
import ThemeVars.Settings.Basic
import ThemeVars.Sheet.Basic
import ThemeVars.Value.Rewrite
import ThemeVars.Variable.Scan
import ThemeVars.Variable.Resolution
import ThemeVars.Variable.Classification
import ThemeVars.Message

namespace ThemeVars

inductive EmitMode where
  /-- Add a rule that declares the theme. -/
  | standalone
  /-- Rewrite references where they stand. -/
  | inPlace
deriving DecidableEq, Repr, Inhabited

/-- What a pass over a file reads: the settings, the file's dialect, and the
resolved tables of its imports and of the whole theme. -/
structure PassContext where
  settings : Settings
  dialect : Dialect
  imports : List Table
  theme : Table

/-- A file on its way: its sheet, its variables, and what relocation found. -/
structure Pass where
  sheet : Sheet
  file : Option Path
  table : Table
  memo : Relocations := {}

/-- What a pass gives. -/
structure Output where
  sheet : Sheet
  table : Table
  classification : Classification
  log : Log

/-- What emission reads. -/
structure Emitter where
  context : PassContext
  table : Table
  file : Option Path
  classification : Classification

/-- What emission has done so far; `used` are the reference variables that a
replacement names, in the order of their first use. -/
structure Emission where
  memo : Relocations
  log : Log := {}
  used : List Ident := []

abbrev Emitting := StateT Emission (Except Error)

/-- The index after the last top-level import and after every declaration of
these variables in the file. -/
def insertionIndex (sheet : Sheet) (table : Table) (anchors : List Ident) : Nat :=
  let isImport : Node → Bool
    | .statement name _ _ _ _ _ => Node.isImportName name
    | .group name _ _ _ _ => Node.isImportName name
    | _ => false
  let afterImports := (sheet.nodes.reverse.dropWhile fun n => !isImport n).length
  let afterAnchors := (anchors.filterMap table.get?).map (·.position + 1)
  afterAnchors.foldl max afterImports

/-- The nodes with the value of the first declaration of the property in a
rule of the root element replaced, if there is one. -/
def replaceRootDeclaration (property value : String) : List Node → Option (List Node)
  | [] => .none
  | node :: rest =>
    let rec replaceIn : List Node → Option (List Node)
      | [] => .none
      | .declaration p v spacing semicolon :: more =>
        if p == property then .some (.declaration p value spacing semicolon :: more)
        else (replaceIn more).map (.declaration p v spacing semicolon :: ·)
      | child :: more => (replaceIn more).map (child :: ·)
    let here : Option Node :=
      match node with
      | .rule selector children spacing =>
        if Node.isRootSelector selector then (replaceIn children).map fun children => Node.rule selector children spacing else .none
      | _ => .none
    match here with
    | .some node => .some (node :: rest)
    | .none => (replaceRootDeclaration property value rest).map (node :: ·)

/-- A custom property with the value as its fallback. -/
def varWithFallback (ident : Ident) (value : String) : String :=
  if value.isEmpty then "var(" ++ ident.text ++ ")" else Value.varText ident.text value

namespace Emitter

def engine (e : Emitter) : String := e.context.settings.engineIdentity

def classifier (e : Emitter) : Classifier := ⟨e.table, e.context.theme, e.context.settings.onlyColor⟩

def tell (e : Emitter) (v : Variable) (kind : MessageKind) (value : String) : Emitting Unit :=
  modify fun s => { s with log := s.log.push (.ofVariable v kind e.engine value) }

/-- The value of a theme variable as the file has to write it. -/
def relocated (e : Emitter) (v : Variable) : Emitting String := do
  let s ← get
  let (value, memo) ← (s.memo.relocate v e.file : Except Error (String × Relocations))
  set { s with memo }
  return value

/-- The theme variable and its value as the file has to write it; its use is
told. -/
def themeValue (e : Emitter) (ident : Ident) : Emitting (Option (Variable × String)) := do
  match e.context.theme.get? ident with
  | .none => return .none
  | .some v =>
    let value ← e.relocated v
    e.tell v .themeVariable value
    if v.rootScoped then e.tell v .rootScopedThemeVariable value
    if v.urls.isSome then e.tell v .urlDependencyVariable value
    return .some (v, value)

/-- Tells of the context variables. -/
def tellContext (e : Emitter) : List Ident → Emitting Unit
  | [] => return
  | ident :: rest => do
    if let .some v := e.table.get? ident then e.tell v .localContextVariable v.resolved
    e.tellContext rest

/-- The declarations of the theme variables, and the variables that they have
to follow. -/
def themeDeclarations (e : Emitter) : List Ident → Emitting (List Node × List Ident)
  | [] => return ([], [])
  | ident :: rest => do
    match ← e.themeValue ident with
    | .none => e.themeDeclarations rest
    | .some (v, value) =>
      let (nodes, anchors) ← e.themeDeclarations rest
      return (Node.newDeclaration ident.text value :: nodes, ident :: v.dependencies ++ anchors)

/-- Adds a rule that declares the theme, if it has anything to declare. -/
def standalone (e : Emitter) (sheet : Sheet) : Emitting Sheet := do
  if e.classification.theme.isEmpty then return sheet
  let (nodes, anchors) ← e.themeDeclarations e.classification.theme
  let rule := Node.newRule e.context.settings.rootSelector nodes
  return sheet.insertAt (insertionIndex sheet e.table anchors) rule

/-- What takes the place of a reference; none where it is kept.
`colorProperty` says that it stands in the value of a property that carries
color, while only those are looked at. -/
def replacement? (e : Emitter) (colorProperty : Bool) (r : Reference) : Emitting (Option String) := do
  if r.name.isEmpty then return .none
  let ident := Ident.ofName e.context.settings.identMode r.name
  if e.classifier.isCandidate ident || (colorProperty && e.classifier.isTheme ident) then
    match ← e.themeValue ident with
    | .some (_, value) => return .some (varWithFallback ident value)
    | .none => return .none
  else if e.classification.reference.contains ident then
    match e.table.get? ident with
    | .none => return .none
    | .some v =>
      modify fun s => if s.used.contains ident then s else { s with used := s.used ++ [ident] }
      return .some (varWithFallback ident v.resolved)
  else return .none

/-- The value of a declaration with its references replaced. Definitions of
the dialect's own variables are left alone. -/
def rewriteValue (e : Emitter) (property value : String) : Emitting String := do
  let sigil := e.context.dialect.sigil?
  if sigil.isSome && property.toList.head? == sigil then return value
  let (body, priority) := Value.splitPriority value
  let segments ← (Value.parse sigil body : Except Error Value)
  if segments.references.isEmpty then return value
  let colorProperty := e.context.settings.onlyColor && Color.isProperty property
  let rewritten ← segments.rewrite (fun r _ => e.replacement? colorProperty r) false
  return if rewritten == body then value else rewritten ++ priority

mutual

/-- The node with the values in it rewritten. -/
def rewriteNode (e : Emitter) : Node → Emitting Node
  | .rule selector children spacing => do
    let children ← e.rewriteNodes children
    return .rule selector children spacing
  | .declaration property value spacing semicolon => do
    let value ← e.rewriteValue property value
    return .declaration property value spacing semicolon
  | .group name params children spacing afterName => do
    let children ← e.rewriteNodes children
    return .group name params children spacing afterName
  | .statement name params before afterName between semicolon =>
    return .statement name params before afterName between semicolon
  | .comment text before inLine => return .comment text before inLine

def rewriteNodes (e : Emitter) : List Node → Emitting (List Node)
  | [] => return []
  | node :: rest => do
    let node ← e.rewriteNode node
    let rest ← e.rewriteNodes rest
    return node :: rest

end

/-- The run time declarations of the reference variables in use, from the
`done`-th on. A declaration may bring others into use; `waiting` are those
not declared yet. -/
def runtimeDeclarations (e : Emitter) (waiting : List Ident) (done : Nat) :
    Emitting (List (Ident × String)) := do
  match (← get).used[done]? with
  | .none => return []
  | .some ident =>
    if _h : ident ∈ waiting then
      match e.table.get? ident with
      | .none => e.runtimeDeclarations (waiting.erase ident) (done + 1)
      | .some v =>
        let segments ← (Value.parse e.context.dialect.sigil? (Value.stripPriority v.raw) : Except Error Value)
        let value ← segments.rewrite (fun r _ => e.replacement? false r) false
        e.tell v .inlinePropertyVariable value
        let rest ← e.runtimeDeclarations (waiting.erase ident) (done + 1)
        return (ident, value) :: rest
    else return []
termination_by waiting.length
decreasing_by
  all_goals
    rw [List.length_erase_of_mem _h]
    have := List.length_pos_of_mem _h
    omega

/-- Writes the declarations into the rules of the root element that have them
already; the others are left over. -/
def overwrite (nodes : List Node) : List (Ident × String) → List Node × List (Ident × String)
  | [] => (nodes, [])
  | (ident, value) :: rest =>
    match replaceRootDeclaration ident.text value nodes with
    | .some nodes => overwrite nodes rest
    | .none =>
      let (nodes, left) := overwrite nodes rest
      (nodes, (ident, value) :: left)

/-- Gives every reference variable in use a declaration at run time. -/
def declareReferences (e : Emitter) (sheet : Sheet) : Emitting Sheet := do
  let declarations ← e.runtimeDeclarations e.classification.reference 0
  let (nodes, left) := overwrite sheet.nodes declarations
  let sheet := { sheet with nodes }
  if left.isEmpty then return sheet
  let anchors := left.flatMap fun (ident, _) =>
    ident :: (e.table.get? ident).elim [] (·.dependencies)
  let rule := Node.newRule e.context.settings.rootSelector
    (left.map fun (ident, value) => Node.newDeclaration ident.text value)
  return sheet.insertAt (insertionIndex sheet e.table anchors) rule

/-- The lines that list the theme variables in a comment. -/
def themeLines (e : Emitter) : List Ident → Emitting String
  | [] => return ""
  | ident :: rest => do
    match e.context.theme.get? ident with
    | .none => e.themeLines rest
    | .some v =>
      let value ← e.relocated v
      let line := "  " ++ ident.text ++ ": " ++ value.replacing "*/" "* /" ++ "; // " ++ v.name ++ "\n"
      let rest ← e.themeLines rest
      return line ++ rest

/-- Adds a comment that lists the theme, if there is anything to list. -/
def documentTheme (e : Emitter) (sheet : Sheet) : Emitting Sheet := do
  if e.classification.theme.isEmpty then return sheet
  let lines ← e.themeLines e.classification.theme
  let text := " " ++ e.engine ++ " theme variables\n" ++ e.context.settings.rootSelector ++ " \x7b\n" ++
    lines ++ "\x7d\n"
  return { sheet with nodes := sheet.nodes ++ [(Node.newComment text).withBefore "\n\n"] }

/-- The file is one of the theme's own. -/
def isThemeFile (e : Emitter) : Bool :=
  e.file.any fun f => e.context.settings.isThemeFile f.normalize

/-- Rewrites the references, declares what they need, and lists the theme
where that is asked for. -/
def inPlace (e : Emitter) (sheet : Sheet) : Emitting Sheet := do
  let nodes ← e.rewriteNodes sheet.nodes
  let sheet ← e.declareReferences { sheet with nodes }
  if e.context.settings.documentTheme && !e.isThemeFile then e.documentTheme sheet else return sheet

end Emitter

/-- The value of a custom property in Scss, where a reference counts only in
an interpolation. -/
def interpolateReferences (value : String) : String :=
  match Value.read (.some '$') value with
  | .error _ => value
  | .ok segments =>
    let wrap (r : Reference) (inside : Bool) : Id (Option String) :=
      if r.kind == .sigil && !inside then .some (Value.interpolated r.raw) else .none
    segments.rewrite wrap false

/-- The node with the references in the custom properties of root rules put
into interpolations. -/
def interpolateRootValues (rootSelector : String) : Node → Node
  | .rule selector children spacing =>
    if Node.isRootSelector selector || selector.trimmed == rootSelector then
      let fix : Node → Node
        | .declaration property value spacing semicolon =>
          let value := if Node.isCustomProperty property then interpolateReferences value else value
          .declaration property value spacing semicolon
        | child => child
      .rule selector (children.map fix) spacing
    else .rule selector children spacing
  | node => node

namespace Pass

/-- Takes a sheet up, its variables not resolved yet. -/
def scan (context : PassContext) (sheet : Sheet) (file : Option Path) : Pass :=
  { sheet, file, table := sheet.scan file context.dialect context.settings.identMode }

/-- Resolves the file's variables. -/
def resolve (context : PassContext) (p : Pass) : Except Error Pass :=
  let surroundings : Surroundings := ⟨context.dialect, context.settings.identMode, context.imports, p.file⟩
  match surroundings.resolveTable.run { table := p.table, memo := p.memo } with
  | (.error e, _) => .error e
  | (.ok _, progress) => .ok { p with table := progress.table, memo := progress.memo }

def classify (context : PassContext) (p : Pass) : Classification :=
  (Classifier.mk p.table context.theme context.settings.onlyColor).classify

/-- Writes the file out. -/
def emit (context : PassContext) (mode : EmitMode) (p : Pass) : Except Error Output := do
  let classification := p.classify context
  let e : Emitter := ⟨context, p.table, p.file, classification⟩
  let write : Emitting Sheet := do
    e.tellContext classification.context
    match mode with
    | .standalone => e.standalone p.sheet
    | .inPlace => e.inPlace p.sheet
  let (sheet, s) ← write.run { memo := p.memo }
  let sheet :=
    if context.dialect == .scss then
      { sheet with nodes := sheet.nodes.map (interpolateRootValues context.settings.rootSelector) }
    else sheet
  return ⟨sheet, p.table, classification, s.log⟩

/-- The whole way of a file. -/
def run (context : PassContext) (mode : EmitMode) (sheet : Sheet) (file : Option Path) :
    Except Error Output := do
  let p ← (scan context sheet file).resolve context
  p.emit context mode

end Pass

end ThemeVars
