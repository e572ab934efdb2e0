/-
Variables and the tables that hold them. A table keeps its variables in the
order in which their idents came first, and finds them by an index; a later
variable with the same ident takes the place of the earlier.
-/
import ThemeVars.Ident
import ThemeVars.Keyed
import ThemeVars.OrderedSet
import ThemeVars.Path.Basic

namespace ThemeVars

/-- The relative paths in a value, in order and once each, and the file that
they are relative to. -/
structure RelativeUrls where
  origin : Path
  paths : List String
deriving DecidableEq, Repr

/-- A declared variable. -/
structure Variable where
  ident : Ident
  /-- The name as written, sigil and all. -/
  name : String
  /-- The value as written. -/
  raw : String
  /-- The value with every reference replaced, once `parsed`. -/
  resolved : String := ""
  /-- Declared as a custom property of the root element. -/
  rootScoped : Bool := false
  /-- Every variable that the value depends on, itself aside. -/
  dependencies : List Ident := []
  source : Option Path := .none
  parsed : Bool := false
  urls : Option RelativeUrls := .none
  /-- The index of the top-level node that declares it. -/
  position : Nat := 0
deriving DecidableEq, Repr

/-- Variables in the order in which their idents came first. -/
structure Table extends Keyed Variable.ident
deriving DecidableEq, Repr

namespace Table

instance : EmptyCollection Table := ⟨⟨{}⟩⟩

instance : Inhabited Table := ⟨{}⟩

/-- The variables in the table's order. -/
abbrev records (t : Table) : List Variable := t.entries

def insert (t : Table) (v : Variable) : Table := ⟨t.toKeyed.push v⟩

/-- The place of the variable in the table's order. -/
def slot? (t : Table) (ident : Ident) : Option Nat := t.index.lookup ident

def get? (t : Table) (ident : Ident) : Option Variable := (t.slot? ident).bind (t.records[·]?)

def contains (t : Table) (ident : Ident) : Bool := (t.slot? ident).isSome

def size (t : Table) : Nat := t.records.length

def idents (t : Table) : List Ident := t.records.map (·.ident)

/-- The table with a variable changed where it stands, if it is there. It stays
the variable with its ident. -/
def update (t : Table) (ident : Ident) (change : Variable → Variable) : Table :=
  match t.get? ident with
  | .some v => t.insert { change v with ident }
  | .none => t

/-- The table with the resolved value of a variable replaced, if it is there. -/
def setResolved (t : Table) (ident : Ident) (value : String) : Table :=
  t.update ident fun v => { v with resolved := value }

def ofList (vs : List Variable) : Table := vs.foldl insert {}

/-- One table of several, the later ones overriding the earlier. -/
def merged (ts : List Table) : Table :=
  ts.foldl (fun all t => t.records.foldl insert all) {}

/-- The variable in the last of the tables that has it. -/
def findLast? (ts : List Table) (ident : Ident) : Option Variable :=
  ts.reverse.findSome? (·.get? ident)

end Table

end ThemeVars
