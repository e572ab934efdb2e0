/-
The value of a declaration as text and references. `verbatim` writes it back
as it was read.
-/
import ThemeVars.Token.Pieces

namespace ThemeVars

/-- How a reference is spelled: `var(--name)`, or a sigil and a name. -/
inductive ReferenceKind where
  | var
  | sigil
deriving DecidableEq, Repr

/-- A reference to a variable. The name has its sigil, and is empty where
`var()` names nothing; `raw` is the text of the whole reference. -/
structure Reference where
  name : String
  raw : String
  kind : ReferenceKind
deriving DecidableEq, Repr

/-- Text, interpolations and references, in order; `guarded` is a reference
that has a fallback. -/
inductive Value where
  | done
  | text (s : String) (rest : Value)
  | interpolation (inner : Value) (rest : Value)
  | reference (r : Reference) (rest : Value)
  | guarded (r : Reference) (fallback : Value) (rest : Value)
deriving DecidableEq, Repr

namespace Value

/-- The value with text in front, as one piece with the text that is there. -/
def consText (s : String) (v : Value) : Value :=
  if s.isEmpty then v
  else
    match v with
    | .text t rest => .text (s ++ t) rest
    | _ => .text s v

/-- One value after the other, texts that meet being joined. -/
def append : Value → Value → Value
  | .done, w => w
  | .text s rest, w => consText s (rest.append w)
  | .interpolation inner rest, w => .interpolation inner (rest.append w)
  | .reference r rest, w => .reference r (rest.append w)
  | .guarded r fallback rest, w => .guarded r fallback (rest.append w)

/-- The text with the marks of an interpolation around it. -/
def interpolated (inner : String) : String := "#\x7b" ++ inner ++ "\x7d"

/-- The value with every reference as written. -/
def verbatim : Value → String
  | .done => ""
  | .text s rest => s ++ rest.verbatim
  | .interpolation inner rest => interpolated inner.verbatim ++ rest.verbatim
  | .reference r rest => r.raw ++ rest.verbatim
  | .guarded r _ rest => r.raw ++ rest.verbatim

/-- The value with every reference replaced, fallbacks left out. -/
def render (f : Reference → String) : Value → String
  | .done => ""
  | .text s rest => s ++ rest.render f
  | .interpolation inner rest => interpolated (inner.render f) ++ rest.render f
  | .reference r rest => f r ++ rest.render f
  | .guarded r _ rest => f r ++ rest.render f

/-- Every reference in the order of the text, a guarded one before those in
its fallback. -/
def references : Value → List Reference
  | .done => []
  | .text _ rest => rest.references
  | .interpolation inner rest => inner.references ++ rest.references
  | .reference r rest => r :: rest.references
  | .guarded r fallback rest => r :: fallback.references ++ rest.references

end Value

end ThemeVars
