/-
The files that a value refers to: urls without quotes at any depth, and the
strings that stand directly in `url()`, `src()` or `image-set()`. A value is
written anew from the front, and each path is asked about where it stands.
-/
import ThemeVars.Value.Reader

namespace ThemeVars

/-- A part of a value: text, a url without quotes, or a string that names a
file. `raw` is the text it was read from. -/
inductive ResourcePart where
  | text (s : String)
  | url (path raw : String)
  | string (path raw : String)
deriving DecidableEq, Repr

namespace ResourcePart

/-- The strings directly in a block with this opener name files. -/
def namesFiles (opener : Token) : Bool :=
  match opener with
  | .function name => ["url", "src", "image-set", "-webkit-image-set"].contains name.lowered
  | _ => false

/-- The part that a lexeme outside of blocks is; `inFiles` says that strings
name files. -/
def ofLexeme (inFiles : Bool) (l : Lexeme) : Except ValueError ResourcePart :=
  let raw := String.ofList l.text
  match l.token with
  | .url path => .ok (.url path raw)
  | .string path => .ok (if inFiles then .string path raw else .text raw)
  | .badUrl s => .error ⟨.badUrl s, l.stop⟩
  | .badString s => .error ⟨.badString s, l.stop⟩
  | _ => .ok (.text raw)

/-- Writes the part; `f` is asked about its path, and what it answers takes
the place of the path. A string keeps its quotes. -/
def write {m : Type → Type} [Monad m] (f : String → m (Option String)) : ResourcePart → m String
  | .text s => return s
  | .url path raw => do
    match ← f path with
    | .some new => return "url(" ++ new ++ ")"
    | .none => return raw
  | .string path raw => do
    match ← f path with
    | .some new =>
      let quote := String.ofList (raw.toList.take 1)
      return quote ++ new ++ quote
    | .none => return raw

/-- Writes a sequence, part by part. A block is always written with its closer. -/
def writeAll {m : Type → Type} [Monad m] (f : String → m (Option String)) (inFiles : Bool) :
    Pieces → ExceptT ValueError m String
  | .done => return ""
  | .leaf l rest => do
    let part ← (ExceptT.mk (pure (ofLexeme inFiles l)) : ExceptT ValueError m ResourcePart)
    let here ← (part.write f : m String)
    let rest ← writeAll f inFiles rest
    return here ++ rest
  | .block opener bracket inner _ rest => do
    let inner ← writeAll f (namesFiles opener.token) inner
    let rest ← writeAll f inFiles rest
    return String.ofList opener.text ++ (inner ++ (bracket.closer ++ rest))

end ResourcePart

namespace Value

/-- Writes a value; `f` is asked about each file that it names. -/
def writeResources {m : Type → Type} [Monad m] (f : String → m (Option String)) (value : String) :
    ExceptT ValueError m String :=
  ResourcePart.writeAll f false (.ofText value.toList)

/-- Takes a path down after those found before, and answers none. -/
def recordPath (path : String) : StateM (List String) (Option String) := do
  modify (· ++ [path])
  return .none

/-- The files that the value names, in order. -/
def resourcePaths (value : String) : Except ValueError (List String) :=
  let (written, found) := (writeResources recordPath value).run.run []
  written.map fun _ => found

/-- The value with the paths replaced for which `f` gives another. -/
def rewriteResources (f : String → Option String) (value : String) : Except ValueError String :=
  (writeResources (m := Id) (fun path => pure (f path)) value).run

end Value

end ThemeVars
