/-
Writing a value with some of its references replaced. A reference that is kept
still has its fallback rewritten, and is written anew only if that changed it.
-/
import ThemeVars.Value.Basic
import ThemeVars.Text.Blank

namespace ThemeVars.Value

/-- The text of a reference with a fallback. -/
def varText (name fallback : String) : String := "var(" ++ name ++ ", " ++ fallback ++ ")"

/-- Writes the value; `f` is asked about each reference, and told whether it
stands in an interpolation. Where it answers none, the reference is kept, and
the references in its fallback are asked about. -/
def rewrite {m : Type → Type} [Monad m] (f : Reference → Bool → m (Option String)) :
    (inside : Bool) → Value → m String
  | _, .done => pure ""
  | inside, .text s rest => do
    let rest ← rewrite f inside rest
    return s ++ rest
  | inside, .interpolation inner rest => do
    let inner ← rewrite f true inner
    let rest ← rewrite f inside rest
    return interpolated inner ++ rest
  | inside, .reference r rest => do
    let new ← f r inside
    let rest ← rewrite f inside rest
    return new.getD r.raw ++ rest
  | inside, .guarded r fallback rest => do
    match ← f r inside with
    | .some new => do
      let rest ← rewrite f inside rest
      return new ++ rest
    | .none => do
      let inner ← rewrite f inside fallback
      let kept := if inner == fallback.verbatim then r.raw else varText r.name inner.trimmedEnd
      let rest ← rewrite f inside rest
      return kept ++ rest

end ThemeVars.Value
