/-
Escapes in names, strings and urls: a backslash and up to six hexadecimal
digits with one optional space after them, or a backslash and any other
character. `EscapeState` says where in an escape one stands; `spanEscaped`
finds how far a run of characters with escapes reaches, `unescape` what it
stands for. The run and what is left of it are together the text.
-/
import ThemeVars.Text.Blank

namespace ThemeVars

open Text

/-- Stands for a character that cannot be. -/
def replacement : Char := '\uFFFD'

def isHexDigit (c : Char) : Bool :=
  c.isDigit || ('a' ≤ c && c ≤ 'f') || ('A' ≤ c && c ≤ 'F')

def hexValue (c : Char) : Nat :=
  if c.isDigit then c.toNat - 48 else c.toLower.toNat - 87

/-- The character with this code point, or the replacement for zero, the
surrogates and numbers too large. -/
def charAt (n : Nat) : Char := if n.isValidChar && n != 0 then Char.ofNat n else replacement

/-- A NUL is read as the replacement. -/
def withoutNull (c : Char) : Char := if c == '\x00' then replacement else c

/-- Where one stands: outside an escape, after its backslash, after some of
its digits, or after a carriage return that a line feed may complete. -/
inductive EscapeState where
  | plain
  | slash
  | hex (digits value : Nat)
  | carriage
deriving DecidableEq, Repr

namespace EscapeState

/-- The character `c` is no part of the escape before it. -/
def isFresh : EscapeState → Char → Bool
  | .plain, _ => true
  | .slash, _ => false
  | .hex digits _, c => !((digits < 6 && isHexDigit c) || isSpace c)
  | .carriage, c => c != '\n'

/-- Where one stands after `c`. -/
def next (st : EscapeState) (c : Char) : EscapeState :=
  if st.isFresh c then (if c == '\\' then .slash else .plain)
  else
    match st with
    | .slash => if isHexDigit c then .hex 1 (hexValue c) else if c == '\r' then .carriage else .plain
    | .hex digits value =>
      if digits < 6 && isHexDigit c then .hex (digits + 1) (16 * value + hexValue c)
      else if c == '\r' then .carriage
      else .plain
    | _ => .plain

/-- What is known to be read once `c` is seen. -/
def reads (st : EscapeState) (c : Char) : List Char :=
  let escaped :=
    match st with
    | .slash => if isHexDigit c || isNewline c then [] else [withoutNull c]
    | .hex digits value => if digits < 6 && isHexDigit c then [] else [charAt value]
    | _ => []
  if st.isFresh c && c != '\\' then escaped ++ [withoutNull c] else escaped

/-- What is read when the text ends here. A backslash at the end stands for
the replacement, and in a string for nothing. -/
def readsAtEnd (inString : Bool) : EscapeState → List Char
  | .slash => if inString then [] else [replacement]
  | .hex _ value => [charAt value]
  | _ => []

end EscapeState

/-- A run of characters that `admits` allows and of escapes ends before `c`.
Only in a string may a backslash stand before a newline. -/
def endsRun (inString : Bool) (admits : Char → Bool) (st : EscapeState) (c : Char) (after : List Char) :
    Bool :=
  st.isFresh c && (if c == '\\' then !inString && after.head?.any isNewline else !admits c)

/-- The longest run of characters that `admits` allows and of escapes. -/
def spanEscaped (inString : Bool) (admits : Char → Bool) :
    EscapeState → List Char → List Char × List Char
  | _, [] => ([], [])
  | st, c :: cs =>
    if endsRun inString admits st c cs then ([], c :: cs)
    else
      let (run, rest) := spanEscaped inString admits (st.next c) cs
      (c :: run, rest)

/-- What a run of characters and escapes stands for. -/
def unescapeFrom (inString : Bool) : EscapeState → List Char → List Char
  | st, [] => st.readsAtEnd inString
  | st, c :: cs => st.reads c ++ unescapeFrom inString (st.next c) cs

def unescape (inString : Bool) (run : List Char) : String :=
  String.ofList (unescapeFrom inString .plain run)

/-- A run and the rest after it are the text. -/
theorem spanEscaped_append (inString : Bool) (admits : Char → Bool) (st : EscapeState) (s : List Char) :
    (spanEscaped inString admits st s).1 ++ (spanEscaped inString admits st s).2 = s := by
  induction s generalizing st with
  | nil => rfl
  | cons c cs ih =>
    simp only [spanEscaped]
    split
    · rfl
    · simpa using ih (st.next c)

/-- Starts a name by itself: a letter, an underscore, NUL, or any character
beyond ASCII. -/
def isNameStart (c : Char) : Bool := c.isAlpha || c == '_' || c == '\x00' || c.toNat ≥ 0x80

def isNameChar (c : Char) : Bool := isNameStart c || c.isDigit || c == '-'

/-- A name starts here. After a hyphen any backslash will do. -/
def startsName : List Char → Bool
  | [] => false
  | c :: rest =>
    if c == '-' then rest.head?.any fun d => isNameStart d || d == '-' || d == '\\'
    else if c == '\\' then !rest.head?.any isNewline
    else isNameStart c

/-- The name at the front of a text, as written. -/
def nameAt (s : List Char) : List Char := (spanEscaped false isNameChar .plain s).1

end ThemeVars
