/-
What a scan finds: the declarations of a sheet, which know nothing of idents,
each as a variable under an ident of its name (`variablesFrom_eq`, `mem_scan`).
-/
import ThemeVars.Proofs.Variable.Table
import ThemeVars.Variable.Scan

namespace ThemeVars

/-- A declaration of a variable; `position` is the index of the top-level node
that it stands in. -/
structure Declaration where
  position : Nat
  rootScoped : Bool
  name : String
  raw : String

/-- The variable that is declared, not resolved yet. -/
def Declaration.toVariable (d : Declaration) (mode : IdentMode) (file : Option Path) : Variable :=
  { ident := .ofName mode d.name, name := d.name, raw := d.raw, rootScoped := d.rootScoped, source := file,
    position := d.position }

namespace Sheet

/-- The declarations of variables in the nodes from `position` on. -/
def declarationsFrom (dialect : Dialect) (position : Nat) : List Node → List Declaration
  | [] => []
  | node :: rest =>
    (node.declared dialect).2.map (fun d => ⟨position, (node.declared dialect).1, d.1, d.2⟩) ++
      declarationsFrom dialect (position + 1) rest

/-- The declarations of variables in the sheet. -/
def declarations (sheet : Sheet) (dialect : Dialect) : List Declaration := declarationsFrom dialect 0 sheet.nodes

variable {sheet : Sheet} {dialect : Dialect} {mode : IdentMode} {file : Option Path} {v : Variable}

theorem variablesFrom_eq (nodes : List Node) (position : Nat) :
    variablesFrom dialect mode file position nodes =
      (declarationsFrom dialect position nodes).map fun d => d.toVariable mode file := by
  induction nodes generalizing position with
  | nil => rfl
  | cons node rest ih =>
    rw [variablesFrom, declarationsFrom, List.map_append, List.map_map, ← ih]
    rfl

theorem scan_eq : sheet.scan file dialect mode = .ofList ((sheet.declarations dialect).map fun d => d.toVariable mode file) :=
  congrArg Table.ofList (variablesFrom_eq sheet.nodes 0)

theorem mem_scan (h : v ∈ (sheet.scan file dialect mode).records) :
    ∃ d ∈ sheet.declarations dialect, v = d.toVariable mode file := by
  rw [scan_eq] at h
  obtain ⟨d, hd, rfl⟩ := List.mem_map.1 (Table.mem_ofList h)
  exact ⟨d, hd, rfl⟩

end Sheet

end ThemeVars
