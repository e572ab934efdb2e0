/-
The tags of YAML, which name the kind of a datum, and the directives before a
document. A tag is a handle, which stands for the beginning of the tag, and
the octets after it.
-/
import ThemeVars.Data.Yaml.Scalar

namespace ThemeVars.Yaml

def isNameChar (c : Char) : Bool := c.isAlphanum || c == '_' || c == '-'

def isTagSign (c : Char) : Bool :=
  [';', '/', '?', ':', '@', '&', '=', '+', '$', '.', '!', '~', '*', '\'', '(', ')'].contains c

/-- The octets that belong to a character of UTF-8 after `octet`; `trailing`
were to come before it. -/
def trailing? (trailing octet : Nat) : Option Nat :=
  if trailing != 0 then (if octet / 64 == 2 then .some (trailing - 1) else .none)
  else if octet < 128 then .some 0
  else if octet / 32 == 6 then .some 1
  else if octet / 16 == 14 then .some 2
  else if octet / 8 == 30 then .some 3
  else .none

/-- The octets of a tag and the number of characters that write them.
`skipped` characters are read already; `trailing` octets are to come that
belong to the last character. A tag in angle brackets (`wide`) has more signs. -/
def octetsFrom (wide : Bool) : (skipped trailing : Nat) → List Char → Option (List UInt8 × Nat)
  | _, trailing, [] => if trailing == 0 then .some ([], 0) else .none
  | skipped + 1, trailing, _ :: cs =>
    (octetsFrom wide skipped trailing cs).map fun (octets, n) => (octets, n + 1)
  | 0, trailing, c :: cs =>
    if c == '%' then
      match cs with
      | a :: b :: _ =>
        match hexDigit? a, hexDigit? b with
        | .some high, .some low =>
          let octet := 16 * high + low
          match trailing? trailing octet with
          | .some trailing =>
            (octetsFrom wide 2 trailing cs).map fun (octets, n) => (.ofNat octet :: octets, n + 1)
          | .none => .none
        | _, _ => .none
      | _ => .none
    else if trailing != 0 then .none
    else if isNameChar c || isTagSign c || (wide && [',', '[', ']'].contains c) then
      (octetsFrom wide 0 0 cs).map fun (octets, n) => (.ofNat c.toNat :: octets, n + 1)
    else .some ([], 0)

structure Tag where
  /-- Empty where the octets are the whole tag. -/
  handle : String
  octets : List UInt8
deriving DecidableEq, Repr

/-- The handle that begins at an exclamation mark: a name may follow, and
another exclamation mark. -/
def handleAt (s : List Char) : List Char :=
  let name := (s.drop 1).takeWhile isNameChar
  let closing := if (s.drop (name.length + 1)).head? == .some '!' then ['!'] else []
  '!' :: name ++ closing

/-- The handle is one between two exclamation marks. -/
def isClosed (handle : List Char) : Bool := decide (1 < handle.length) && handle.getLast? == .some '!'

/-- The tag that begins at an exclamation mark, and its length. -/
def tag? (s : List Char) : Option (Tag × Nat) :=
  if (s.drop 1).head? == .some '<' then
    match octetsFrom true 0 0 (s.drop 2) with
    | .some (octets, n) =>
      if octets.isEmpty || (s.drop (n + 2)).head? != .some '>' then .none else .some (⟨"", octets⟩, n + 3)
    | .none => .none
  else
    let handle := handleAt s
    match octetsFrom false 0 0 (s.drop handle.length) with
    | .some (octets, n) =>
      if isClosed handle then
        if octets.isEmpty then .none else .some (⟨.ofList handle, octets⟩, handle.length + n)
      else
        let octets := (handle.drop 1).map (.ofNat ·.toNat) ++ octets
        .some (if octets.isEmpty then ⟨"", [33]⟩ else ⟨"!", octets⟩, handle.length + n)
    | .none => .none

inductive Directive where
  /-- The version of the language, which is 1.1 or 1.2. -/
  | version
  /-- What a handle stands for. -/
  | handle (name : String) (octets : List UInt8)
deriving DecidableEq, Repr

/-- A number of at most nine digits, and its length. -/
def shortNumber? (s : List Char) : Option (Nat × Nat) :=
  let digits := s.takeWhile Char.isDigit
  if digits.isEmpty || decide (9 < digits.length) then .none
  else .some (digits.foldl (fun n d => 10 * n + (d.toNat - 48)) 0, digits.length)

/-- What stands after the name of a version directive, and its length. -/
def version? (s : List Char) : Option (Directive × Nat) := do
  let blanks := (s.takeWhile isBlank).length
  let (major, n) ← shortNumber? (s.drop blanks)
  if (s.drop (blanks + n)).head? != .some '.' then failure
  let (minor, m) ← shortNumber? (s.drop (blanks + n + 1))
  if major == 1 && (minor == 1 || minor == 2) then return (.version, blanks + n + 1 + m) else failure

/-- What stands after the name of a handle directive, and its length. -/
def handle? (s : List Char) : Option (Directive × Nat) := do
  let blanks := (s.takeWhile isBlank).length
  let s := s.drop blanks
  if s.head? != .some '!' then failure
  let handle := handleAt s
  if handle.length != 1 && !isClosed handle then failure
  let gap := ((s.drop handle.length).takeWhile isBlank).length
  let (octets, n) ← octetsFrom true 0 0 (s.drop (handle.length + gap))
  if gap == 0 || octets.isEmpty || !endsWord (s.drop (handle.length + gap + n)) then failure
  return (.handle (.ofList handle) octets, blanks + handle.length + gap + n)

/-- The directive after a percent sign, and the length of its line. -/
def directive? (s : List Char) : Option (Directive × Nat) := do
  let name := s.takeWhile isNameChar
  let after := s.drop name.length
  if !endsWord after then failure
  let (directive, n) ←
    if name == ['Y', 'A', 'M', 'L'] then version? after
    else if name == ['T', 'A', 'G'] then handle? after
    else .none
  let line ← restOfLine? (after.drop n)
  return (directive, name.length + n + line)

end ThemeVars.Yaml
