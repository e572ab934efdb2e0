/-
The custom property that stands for a variable at run time. It is made of the
variable's name alone, so that it is the same in every file and every run.
-/
import ThemeVars.Digest

namespace ThemeVars

/-- Whether an ident shows the name that it stands for. -/
inductive IdentMode where
  | debug
  | production
deriving DecidableEq, Repr, Inhabited

/-- The name of a custom property. -/
structure Ident where
  text : String
deriving DecidableEq, Repr, Inhabited

instance : Ord Ident := ⟨fun a b => compare a.text b.text⟩

namespace Ident

def isSigil (c : Char) : Bool := c == '$' || c == '@' || c == '-'

/-- Allowed in an ident. -/
def isPlain (c : Char) : Bool := c.isAlphanum || c == '_' || c == '-'

/-- The name without sigils and hyphens at its front, and with a hyphen for
each character that an ident cannot hold. -/
def sanitize (name : String) : String :=
  String.ofList ((name.toList.dropWhile isSigil).map fun c => if isPlain c then c else '-')

/-- The name's readable part and a digest of the whole name. -/
def readable (name : String) : String := "--" ++ sanitize name ++ "-" ++ Digest.short name

/-- The text with a digit at its front made a letter from `g` on, which no
hexadecimal digest holds. -/
def withoutLeadingDigit : List Char → List Char
  | [] => []
  | c :: cs => if c.isDigit then Char.ofNat (c.toNat - 48 + 103) :: cs else c :: cs

/-- The part of the ident after its two hyphens. -/
def body (mode : IdentMode) (name : String) : List Char :=
  match mode with
  | .debug => (sanitize name).toList ++ '-' :: (Digest.short name).toList
  | .production => (Digest.short (readable name)).toList

/-- The ident of the variable with this name, sigil and all. -/
def ofName (mode : IdentMode) (name : String) : Ident :=
  ⟨String.ofList ('-' :: '-' :: withoutLeadingDigit (body mode name))⟩

end Ident

end ThemeVars
