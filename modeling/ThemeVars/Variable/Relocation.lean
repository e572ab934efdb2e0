/-
Values that name files, as other files have to write them. Each variable is
relocated once for each target file; what was found then is kept in a memo.
-/
import ThemeVars.Variable.Table
import ThemeVars.Path.Relocation
import ThemeVars.Value.Resource
import ThemeVars.Error

namespace ThemeVars

/-- The relative paths in a value declared in the file, if there are any. -/
def RelativeUrls.ofValue (value : String) (file : Option Path) : Except Error (Option RelativeUrls) :=
  match file with
  | .none => .ok .none
  | .some origin =>
    match Value.resourcePaths value with
    | .error e => .error (.value value e)
    | .ok paths =>
      let relative := OrderedSet.ofList (paths.filter Path.isRelativeResource)
      .ok (if relative.isEmpty then .none else .some ⟨origin, relative⟩)

/-- What relocation has found, for variables and target files. -/
structure Relocations where
  entries : List ((Ident × Path) × String) := []
deriving Repr, Inhabited

namespace Relocations

def find? (memo : Relocations) (ident : Ident) (target : Path) : Option String :=
  (memo.entries.find? fun e => e.1.1 == ident && e.1.2.same target).map (·.2)

def size (memo : Relocations) : Nat := memo.entries.length

/-- The value of a variable with these relative paths as the target file has
to write it. -/
def compute (v : Variable) (urls : RelativeUrls) (target : Path) : Except Error String :=
  let move (path : String) : Option String :=
    if urls.paths.contains path then Path.relocate? path urls.origin target else .none
  (Value.rewriteResources move v.resolved).mapError (.value v.resolved)

/-- The resolved value as the target file has to write it, and the memo after. -/
def relocate (memo : Relocations) (v : Variable) (target : Option Path) :
    Except Error (String × Relocations) :=
  match v.urls, target with
  | .some urls, .some target =>
    match memo.find? v.ident target with
    | .some value => .ok (value, memo)
    | .none =>
      (compute v urls target).map fun value => (value, ⟨((v.ident, target), value) :: memo.entries⟩)
  | _, _ => .ok (v.resolved, memo)

end Relocations

end ThemeVars
