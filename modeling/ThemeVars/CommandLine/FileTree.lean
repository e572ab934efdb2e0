/-
Files in memory, looked up as a system does it: a path is walked step by step,
and every step but the last has to lead to a directory.
-/
import ThemeVars.Path.Basic

namespace ThemeVars

/-- Why a file can be neither read nor written. -/
inductive FileFault where
  | missing
  | notDirectory
  | isDirectory
deriving DecidableEq, Repr

def FileFault.message : FileFault → String
  | .missing => "No such file or directory (os error 2)"
  | .notDirectory => "Not a directory (os error 20)"
  | .isDirectory => "Is a directory (os error 21)"

/-- The names on the way from the root. -/
abbrev Place := List String

inductive Entry where
  | directory
  | file (text : String)
deriving DecidableEq, Repr

/-- Files by their places, the latest first, and the working directory. There
are the directories on the way to a file and to the working directory. -/
structure FileTree where
  directory : Place
  files : List (Place × String) := []
deriving DecidableEq, Repr

namespace FileTree

def entry? (t : FileTree) (place : Place) : Option Entry :=
  match t.files.lookup place with
  | .some text => .some (.file text)
  | .none =>
    if place.isPrefixOf t.directory || t.files.any (fun f => place.isPrefixOf f.1) then .some .directory
    else .none

/-- One step further; nothing and a dot stay where they are. -/
def step (place : Place) (segment : List Char) : Place :=
  if Path.isIdle segment then place
  else if segment == ['.', '.'] then place.dropLast
  else place ++ [String.ofList segment]

/-- Where the segments lead. -/
def walk (t : FileTree) (place : Place) : List (List Char) → Except FileFault Place
  | [] => .ok place
  | segment :: rest =>
    match t.entry? place with
    | .none => .error .missing
    | .some (.file _) => .error .notDirectory
    | .some .directory => t.walk (step place segment) rest

/-- Where a walk along the path begins. -/
def start (t : FileTree) (path : Path) : Place := if path.isAbsolute then [] else t.directory

def find (t : FileTree) (path : Path) : Except FileFault Entry := do
  let place ← t.walk (t.start path) (Path.segments path.text.toList)
  match t.entry? place with
  | .some entry => .ok entry
  | .none => .error .missing

def isFile (t : FileTree) (path : Path) : Bool :=
  match t.find path with
  | .ok (.file _) => true
  | _ => false

def read (t : FileTree) (path : Path) : Except FileFault String := do
  match ← t.find path with
  | .file text => .ok text
  | .directory => .error .isDirectory

/-- The tree with the text at the place. -/
def put (t : FileTree) (place : Place) (text : String) : FileTree :=
  { t with files := (place, text) :: t.files.filter fun f => f.1 != place }

/-- Writes a file, which need not be there, in a directory that is. A path that
ends in a slash is taken for a directory. -/
def write (t : FileTree) (path : Path) (text : String) : Except FileFault FileTree := do
  let segments := Path.segments path.text.toList
  let named := (segments.reverse.dropWhile (·.isEmpty)).reverse
  let place ← t.walk (t.start path) named
  if decide (named.length < segments.length) || t.entry? place == .some .directory then .error .isDirectory
  else .ok (t.put place text)

end FileTree

end ThemeVars
