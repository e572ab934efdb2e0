/-
Imports: what the at-rules of a sheet name, the files that may be meant, and
where files come from.
-/
import ThemeVars.Sheet.Basic
import ThemeVars.Dialect
import ThemeVars.Error

namespace ThemeVars

namespace Import

/-- The text without the quotes around it, if it has any. -/
def unquoteChars (s : List Char) : List Char :=
  match s with
  | c :: rest => if Text.isQuote c && rest.getLast? == .some c then rest.dropLast else s
  | [] => s

/-- What stands before the first `closer`; none if it is missing. -/
def before? (closer : Char) (s : List Char) : Option (List Char) :=
  if s.contains closer then .some (s.takeWhile (· != closer)) else .none

/-- The options in parentheses at the front dropped; none if they are not
closed. -/
def afterOptions? (clause : List Char) : Option (List Char) :=
  if clause.head? == .some '(' then
    (before? ')' clause).map fun options => Text.trimStart (clause.drop (options.length + 1))
  else .some clause

/-- What a clause names: the inside of `url()`, a quoted text, or a word. -/
def named? (clause : List Char) : Option (List Char) :=
  if "url(".toList.isPrefixOf clause then
    (before? ')' (clause.drop 4)).map fun inner => unquoteChars (Text.trim inner)
  else
    match clause with
    | [] => .none
    | c :: rest =>
      if Text.isQuote c then before? c rest
      else
        let word := (c :: rest).takeWhile fun d => !Text.isBlank d
        .some (word.reverse.dropWhile (· == ';')).reverse

/-- What an import clause names, if anything. -/
def specifier? (clause : List Char) : Option String :=
  (((afterOptions? (Text.trim clause)).bind named?).filter (!·.isEmpty)).map String.ofList

/-- What the parameters of an import name, in order. -/
def specifiersOf (params : String) : List String :=
  (Text.splitTopLevel ',' params.toList).filterMap specifier?

/-- What the top-level imports of a sheet name, in order. -/
def specifiers (sheet : Sheet) : List String :=
  sheet.nodes.flatMap fun
    | .statement name params _ _ _ _ => if Node.isImportName name then specifiersOf params else []
    | .group name params _ _ _ => if Node.isImportName name then specifiersOf params else []
    | _ => []

/-- The files that a specifier may mean, in the order of trial. Without an
extension it may mean a file with one of the dialect's, and in Scss such a
file with an underscore before its name. -/
def candidates (specifier : String) (base : Path) (dialect : Dialect) : List Path :=
  let joined := (base.join ⟨specifier⟩).normalize
  match joined.extension?, joined.fileName? with
  | .none, .some name =>
    joined :: dialect.extensions.flatMap fun extension =>
      joined.withFileName (name ++ "." ++ extension) ::
        (if dialect == .scss then [joined.withFileName ("_" ++ name ++ "." ++ extension)] else [])
  | _, _ => [joined]

end Import

/-- Where sheets come from. -/
structure Sources (m : Type → Type) where
  /-- There is such a file. -/
  holds : Path → m Bool
  load : Path → m (Except Error String)

namespace Sources

/-- The first of the paths that there is a file for. -/
def firstHeld {m : Type → Type} [Monad m] (s : Sources m) : List Path → m (Option Path)
  | [] => pure .none
  | p :: rest => do
    if ← s.holds p then return .some p
    s.firstHeld rest

/-- The file that a specifier means. -/
def resolve {m : Type → Type} [Monad m] (s : Sources m) (specifier : String) (base : Path)
    (dialect : Dialect) : m (Option Path) :=
  s.firstHeld (Import.candidates specifier base dialect)

end Sources

/-- Sheets kept by their paths, in normal form, the latest first; of two with
the same path the latest counts. -/
structure Shelf where
  files : List (Path × String) := []

namespace Shelf

def insert (s : Shelf) (path : Path) (text : String) : Shelf := ⟨(path.normalize, text) :: s.files⟩

def find? (s : Shelf) (path : Path) : Option String := (s.files.find? (·.1.same path)).map (·.2)

def load (s : Shelf) (path : Path) : Except Error String :=
  match s.find? path.normalize with
  | .some text => .ok text
  | .none => .error (.unreadable path "not in memory")

/-- Imports are looked up on one shelf, sheets are taken from another. -/
def sources (names texts : Shelf) : Sources Id where
  holds path := (names.find? path).isSome
  load path := texts.load path

/-- The file on the shelf that a specifier means. -/
def resolve (s : Shelf) (specifier : String) (base : Path) (dialect : Dialect) : Except Error Path :=
  match Id.run ((s.sources s).resolve specifier base dialect) with
  | .some path => .ok path
  | .none => .error (.unresolved specifier base)

end Shelf

end ThemeVars
