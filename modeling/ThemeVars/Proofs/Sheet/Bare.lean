/-
Sheets without the text around their parts and without the text of their
comments. Imports, variables and the places where rules are put are the same
for a sheet and its bare form.
-/
import Mathlib.Data.List.Basic
import Mathlib.Tactic.Common
import ThemeVars.Emission
import ThemeVars.Import

namespace ThemeVars

namespace Node

mutual

/-- The node without the text around its parts; of a comment only its place is
left. -/
def bare : Node → Node
  | .rule selector children _ => .rule selector (bareAll children) {}
  | .declaration property value _ _ => .declaration property value {} false
  | .statement name params _ _ _ _ => .statement name params "" "" "" false
  | .group name params children _ _ => .group name params (bareAll children) {} ""
  | .comment _ _ _ => .comment "" "" false

def bareAll : List Node → List Node
  | [] => []
  | node :: rest => node.bare :: bareAll rest

end

theorem bareAll_eq (nodes : List Node) : bareAll nodes = nodes.map bare := by
  induction nodes with
  | nil => rfl
  | cons node rest ih => rw [bareAll, List.map_cons, ih]

mutual

@[simp] theorem bare_bare : ∀ node : Node, node.bare.bare = node.bare
  | .rule _ children _ => by rw [bare, bare, bareAll_bareAll children]
  | .declaration _ _ _ _ => rfl
  | .statement _ _ _ _ _ _ => rfl
  | .group _ _ children _ _ => by rw [bare, bare, bareAll_bareAll children]
  | .comment _ _ _ => rfl

theorem bareAll_bareAll : ∀ nodes : List Node, bareAll (bareAll nodes) = bareAll nodes
  | [] => rfl
  | node :: rest => by rw [bareAll, bareAll, bare_bare node, bareAll_bareAll rest]

end

@[simp] theorem bare_withBefore (before : String) (node : Node) : (node.withBefore before).bare = node.bare := by
  cases node <;> rfl

theorem customProperties_bare (nodes : List Node) : customProperties (nodes.map bare) = customProperties nodes := by
  unfold customProperties
  rw [List.filterMap_map]
  refine List.filterMap_congr fun node _ => ?_
  cases node <;> rfl

theorem declared_bare (dialect : Dialect) (node : Node) : node.bare.declared dialect = node.declared dialect := by
  cases node with
  | rule selector children spacing => rw [bare, declared, declared, bareAll_eq, customProperties_bare]
  | declaration => rfl
  | statement => rfl
  | group => rfl
  | comment => rfl

end Node

/-- The sheet without the text between its parts. -/
def Sheet.bare (sheet : Sheet) : Sheet := ⟨sheet.nodes.map Node.bare, "", sheet.source⟩

@[simp] theorem Sheet.bare_bare (sheet : Sheet) : sheet.bare.bare = sheet.bare := by
  simp [Sheet.bare, Function.comp_def]

theorem Import.specifiers_bare (sheet : Sheet) : specifiers sheet.bare = specifiers sheet := by
  simp only [specifiers, Sheet.bare, List.flatMap_map]
  refine List.flatMap_congr fun node _ => ?_
  cases node <;> rfl

namespace Sheet

theorem variablesFrom_bare (dialect : Dialect) (mode : IdentMode) (file : Option Path) (position : Nat)
    (nodes : List Node) :
    variablesFrom dialect mode file position (nodes.map Node.bare) = variablesFrom dialect mode file position nodes := by
  induction nodes generalizing position with
  | nil => rfl
  | cons node rest ih => simp only [List.map_cons, variablesFrom, Node.declared_bare, ih]

theorem scan_bare (sheet : Sheet) (file : Option Path) (dialect : Dialect) (mode : IdentMode) :
    sheet.bare.scan file dialect mode = sheet.scan file dialect mode :=
  congrArg Table.ofList (variablesFrom_bare dialect mode file 0 sheet.nodes)

/-- What is put into the bare sheet is put at the same place. -/
theorem insertAt_bare (sheet : Sheet) (index : Nat) (node : Node) :
    (sheet.bare.insertAt index node).bare = (sheet.insertAt index node).bare := by
  have hnodes (nodes : List Node) : (nodes.map Node.bare).map Node.bare = nodes.map Node.bare := by
    simp [Function.comp_def]
  simp only [insertAt, bare, List.length_map]
  split
  · cases sheet.nodes with
    | nil => rfl
    | cons first rest =>
      simp only [List.map_cons, Node.bare_withBefore, hnodes, apply_ite Node.bare, Node.bare_bare, ite_self]
  · simp only [List.map_append, List.map_cons, List.map_take, List.map_drop, hnodes]

end Sheet

theorem insertionIndex_bare (sheet : Sheet) (table : Table) (anchors : List Ident) :
    insertionIndex sheet.bare table anchors = insertionIndex sheet table anchors := by
  have himport (isImport : Node → Bool) (h : ∀ n, isImport n.bare = isImport n) :
      ((sheet.nodes.map Node.bare).reverse.dropWhile fun n => !isImport n).length =
        (sheet.nodes.reverse.dropWhile fun n => !isImport n).length := by
    rw [← List.map_reverse, List.dropWhile_map, List.length_map]
    simp only [Function.comp_def, h]
  simp only [insertionIndex, Sheet.bare]
  rw [himport]
  intro n
  cases n <;> rfl

theorem replaceIn_bare (property value : String) (nodes : List Node) :
    replaceRootDeclaration.replaceIn property value (nodes.map Node.bare) =
      (replaceRootDeclaration.replaceIn property value nodes).map (·.map Node.bare) := by
  induction nodes with
  | nil => rfl
  | cons child more ih =>
    cases child with
    | declaration p v spacing semicolon =>
      simp only [List.map_cons, Node.bare, replaceRootDeclaration.replaceIn, ih]
      split
      · rfl
      · simp only [Option.map_map]
        rfl
    | rule | statement | group | comment =>
      simp only [List.map_cons, Node.bare, replaceRootDeclaration.replaceIn, ih, Option.map_map]
      rfl

/-- A value is replaced in the same declaration of the bare sheet. -/
theorem replaceRootDeclaration_bare (property value : String) (nodes : List Node) :
    replaceRootDeclaration property value (nodes.map Node.bare) =
      (replaceRootDeclaration property value nodes).map (·.map Node.bare) := by
  induction nodes with
  | nil => rfl
  | cons node rest ih =>
    cases node with
    | rule selector children spacing =>
      simp only [List.map_cons, Node.bare, Node.bareAll_eq, replaceRootDeclaration, replaceIn_bare, ih]
      cases Node.isRootSelector selector with
      | false => simp [Option.map_map, Function.comp_def, Node.bare, Node.bareAll_eq]
      | true =>
        cases replaceRootDeclaration.replaceIn property value children with
        | none => simp [Option.map_map, Function.comp_def, Node.bare, Node.bareAll_eq]
        | some => simp [Node.bare, Node.bareAll_eq]
    | declaration | statement | group | comment =>
      simp only [List.map_cons, Node.bare, replaceRootDeclaration, ih, Option.map_map]
      rfl

theorem Emitter.overwrite_bare (nodes : List Node) (declarations : List (Ident × String)) :
    overwrite (nodes.map Node.bare) declarations =
      ((overwrite nodes declarations).1.map Node.bare, (overwrite nodes declarations).2) := by
  induction declarations generalizing nodes with
  | nil => rfl
  | cons declaration rest ih =>
    obtain ⟨ident, value⟩ := declaration
    simp only [overwrite, replaceRootDeclaration_bare]
    cases replaceRootDeclaration ident.text value nodes with
    | none => simp [ih]
    | some nodes => exact ih nodes

theorem interpolateRootValues_bare (rootSelector : String) (node : Node) :
    interpolateRootValues rootSelector node.bare = (interpolateRootValues rootSelector node).bare := by
  cases node with
  | rule selector children spacing =>
    simp only [Node.bare, interpolateRootValues]
    split
    · simp only [Node.bare, Node.bareAll_eq, List.map_map]
      congr 1
      refine List.map_congr_left fun child _ => ?_
      cases child <;> rfl
    · rfl
  | declaration | statement | group | comment => rfl

end ThemeVars
