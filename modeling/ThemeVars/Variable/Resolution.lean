/-
The values of variables with every reference replaced by the value it leads
to: a local variable first, else the last external table that has the name,
else the fallback, else nothing. A reference that leads back to a variable
under way gives nothing. Each step leaves one local variable fewer to resolve,
which is why resolution ends on every table.
-/
import ThemeVars.Variable.Relocation
import ThemeVars.Value.Priority
import ThemeVars.Dialect

namespace ThemeVars

/-- What the variables of a file are resolved against: the resolved tables of
its imports, and the file that the values are written for. -/
structure Surroundings where
  dialect : Dialect
  mode : IdentMode
  externals : List Table
  file : Option Path

/-- What a resolution changes, also when it fails. -/
structure Progress where
  table : Table
  memo : Relocations := {}

abbrev Resolving := ExceptT Error (StateM Progress)

/-- A text and the variables that it depends on. -/
abbrev Expansion := String × List Ident

namespace Expansion

def empty : Expansion := ("", [])

def append (a b : Expansion) : Expansion := (a.1 ++ b.1, OrderedSet.union a.2 b.2)

/-- What a reference to the variable gives. No text, no dependency. -/
def ofVariable (ident : Ident) (text : String) (dependencies : List Ident) : Expansion :=
  if text.isEmpty then empty else (text, OrderedSet.insert ident dependencies)

end Expansion

/-- The value with every reference replaced by what `find` gives for it; where
it gives none, by the fallback. -/
def Value.expand {m : Type → Type} [Monad m] (find : Reference → m (Option Expansion)) :
    Value → m Expansion
  | .done => pure Expansion.empty
  | .text s rest => do
    let rest ← expand find rest
    return Expansion.append (s, []) rest
  | .interpolation inner rest => do
    let inner ← expand find inner
    let rest ← expand find rest
    return inner.append rest
  | .reference r rest => do
    let found ← find r
    let rest ← expand find rest
    return Expansion.append (found.getD Expansion.empty) rest
  | .guarded r fallback rest => do
    match ← find r with
    | .some found => do
      let rest ← expand find rest
      return found.append rest
    | .none => do
      let found ← expand find fallback
      let rest ← expand find rest
      return found.append rest

namespace Surroundings

/-- The value of an external variable as the file has to write it. -/
def external? (s : Surroundings) (ident : Ident) : Resolving (Option Expansion) := do
  match Table.findLast? s.externals ident with
  | .none => return .none
  | .some v =>
    let progress ← get
    match progress.memo.relocate v s.file with
    | .error e => throw e
    | .ok (value, memo) =>
      set { progress with memo }
      return .some (.ofVariable ident value v.dependencies)

/-- What a reference gives. `settle` resolves a local variable, and answers no
if that is under way. -/
def find? (s : Surroundings) (settle : Ident → Resolving Bool) (r : Reference) :
    Resolving (Option Expansion) := do
  if r.name.isEmpty then return .some Expansion.empty
  let ident := Ident.ofName s.mode r.name
  if (← get).table.contains ident then
    if ← settle ident then
      match (← get).table.get? ident with
      | .some v => return .some (.ofVariable ident v.resolved v.dependencies)
      | .none => return .some Expansion.empty
    else return .some Expansion.empty
  else s.external? ident

/-- The value, its priority markers dropped, and the references in it
replaced. -/
def expandText (s : Surroundings) (settle : Ident → Resolving Bool) (text : String) :
    Resolving Expansion := do
  let value ← (Value.parse s.dialect.sigil? (Value.stripPriority text) : Except Error Value)
  value.expand (s.find? settle)

/-- Resolves a local variable; `waiting` are the local variables that are not
under way, this one no longer among them. -/
def resolve (s : Surroundings) (waiting : List Ident) (ident : Ident) : Resolving Unit := do
  match (← get).table.get? ident with
  | .none => return
  | .some v =>
    if v.parsed then return
    let settle (next : Ident) : Resolving Bool :=
      if _h : next ∈ waiting then do
        s.resolve (waiting.erase next) next
        return true
      else return false
    let (resolved, dependencies) ← s.expandText settle v.raw
    let urls ← (RelativeUrls.ofValue resolved v.source : Except Error (Option RelativeUrls))
    let v := { v with resolved, dependencies := OrderedSet.remove ident dependencies, urls, parsed := true }
    modify fun progress => { progress with table := progress.table.insert v }
termination_by waiting.length
decreasing_by
  rw [List.length_erase_of_mem _h]
  have := List.length_pos_of_mem _h
  omega

/-- Resolves the variables in this order. -/
def resolveAll (s : Surroundings) (locals : List Ident) : List Ident → Resolving Unit
  | [] => return
  | ident :: rest => do
    s.resolve (locals.erase ident) ident
    s.resolveAll locals rest

/-- Resolves every variable of the table. -/
def resolveTable (s : Surroundings) : Resolving Unit := do
  let locals := (← get).table.idents
  s.resolveAll locals locals

/-- Resolves a value that no variable has. -/
def resolveValue (s : Surroundings) (value : String) : Resolving Expansion := do
  let locals := (← get).table.idents
  let settle (next : Ident) : Resolving Bool := do
    if locals.contains next then
      s.resolve (locals.erase next) next
      return true
    else return false
  s.expandText settle value

end Surroundings

end ThemeVars
