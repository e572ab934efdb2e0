/-
Paths of resources, and how one is written in another file so that it names
the same resource.
-/
import ThemeVars.Path.Basic
import ThemeVars.Text.Blank
import ThemeVars.Text.Search

namespace ThemeVars.Path

def isSchemeChar (c : Char) : Bool := c.isAlphanum || c == '+' || c == '.' || c == '-'

/-- A letter, more letters, digits, `+`, `.` or `-`, and a colon. -/
def hasScheme (s : List Char) : Bool :=
  s.head?.any Char.isAlpha && (s.dropWhile isSchemeChar).head? == .some ':'

/-- The resource is found from the file that names it: it is not absolute, has
no scheme, is no fragment or module path, and holds no variable. -/
def isRelativeResource (resource : String) : Bool :=
  let s := Text.trim resource.toList
  !(s.isEmpty || s.head? == .some '/' || s.head? == .some '#' || s.head? == .some '~' || s.contains '$' ||
    s.contains '@' || Text.occurs ['#', '\x7b'] s || hasScheme s)

def startsSuffix (c : Char) : Bool := c == '?' || c == '#'

/-- The resource, named relative to the file `origin`, as the file `target`
has to name it; none where that changes nothing. A query or fragment is no
part of the path. -/
def relocate? (resource : String) (origin target : Path) : Option String :=
  let originDir := origin.directory
  let targetDir := target.directory.normalize
  if !isRelativeResource resource || originDir.normalize.same targetDir then .none
  else
    let file := resource.toList.takeWhile fun c => !startsSuffix c
    let suffix := resource.toList.dropWhile fun c => !startsSuffix c
    let wanted := (originDir.join ⟨String.ofList file⟩).normalize
    let parts := (relativeTo targetDir wanted).components.map Component.text
    let path := if parts.isEmpty then "." else "/".intercalate parts
    .some (path ++ String.ofList suffix)

end ThemeVars.Path
