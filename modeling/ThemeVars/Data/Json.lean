/-
Data in JSON. Texts may hold half of a surrogate pair, where nothing looks at
them; otherwise the grammar is followed to the letter. `pretty` writes two
spaces for each level.
-/
import ThemeVars.Data.Basic

namespace ThemeVars.Json

def isBlank (c : Char) : Bool := c == ' ' || c == '\n' || c == '\t' || c == '\r'

def skip (s : List Char) : List Char := s.dropWhile isBlank

def hexDigit? (c : Char) : Option Nat :=
  if c.isDigit then .some (c.toNat - 48)
  else if 'a' ≤ c && c ≤ 'f' then .some (c.toNat - 87)
  else if 'A' ≤ c && c ≤ 'F' then .some (c.toNat - 55)
  else .none

/-- The number that four hexadecimal digits write. -/
def hexUnit? (a b c d : Char) : Option Nat := do
  let a ← hexDigit? a
  let b ← hexDigit? b
  let c ← hexDigit? c
  let d ← hexDigit? d
  return ((a * 16 + b) * 16 + c) * 16 + d

def isHighSurrogate (n : Nat) : Bool := 0xD800 ≤ n && n < 0xDC00

def isLowSurrogate (n : Nat) : Bool := 0xDC00 ≤ n && n < 0xE000

/-- The low surrogate that is written at the front, and what follows it. -/
def lowSurrogate? (s : List Char) : Option (Nat × List Char) :=
  match s with
  | x :: y :: a :: b :: c :: d :: rest => do
    let n ← hexUnit? a b c d
    if x == '\\' && y == 'u' && isLowSurrogate n then .some (n, rest) else .none
  | _ => .none

/-- What an escape of one letter stands for. -/
def escaped? (c : Char) : Option Char :=
  match c with
  | '"' => .some '"'
  | '\\' => .some '\\'
  | '/' => .some '/'
  | 'b' => .some '\x08'
  | 'f' => .some '\x0c'
  | 'n' => .some '\n'
  | 'r' => .some '\r'
  | 't' => .some '\t'
  | _ => .none

/-- A text read so far, and whether it can be used. -/
structure Reading where
  chars : List Char := []
  sound : Bool := true

def Reading.cons (c : Char) (r : Reading) : Reading := { r with chars := c :: r.chars }

/-- The rest of a text after its opening quote; `skipped` characters are read
already. -/
def textFrom : (skipped : Nat) → List Char → Option (Reading × List Char)
  | _, [] => .none
  | skipped + 1, _ :: cs => textFrom skipped cs
  | 0, c :: cs =>
    if c == '"' then .some ({}, cs)
    else if c.toNat < 0x20 then .none
    else if c != '\\' then (textFrom 0 cs).map fun (r, rest) => (r.cons c, rest)
    else
      match cs with
      | 'u' :: a :: b :: x :: y :: after =>
        match hexUnit? a b x y with
        | .none => .none
        | .some n =>
          if isHighSurrogate n then
            match lowSurrogate? after with
            | .some (low, _) =>
              let code := 0x10000 + (n - 0xD800) * 0x400 + (low - 0xDC00)
              (textFrom 11 cs).map fun (r, rest) => (r.cons (Char.ofNat code), rest)
            | .none => (textFrom 5 cs).map fun (r, rest) => ({ r with sound := false }, rest)
          else if isLowSurrogate n then
            (textFrom 5 cs).map fun (r, rest) => ({ r with sound := false }, rest)
          else (textFrom 5 cs).map fun (r, rest) => (r.cons (Char.ofNat n), rest)
      | e :: _ =>
        match escaped? e with
        | .some d => (textFrom 1 cs).map fun (r, rest) => (r.cons d, rest)
        | .none => .none
      | [] => .none

def Reading.datum (r : Reading) : Datum := if r.sound then .text (String.ofList r.chars) else .broken

/-- What follows one digit or more. -/
def afterDigits? (s : List Char) : Option (List Char) :=
  if s.head?.any Char.isDigit then .some (s.dropWhile Char.isDigit) else .none

/-- What follows a fraction, if one starts here. -/
def afterFraction? (s : List Char) : Option (List Char) :=
  match s with
  | '.' :: rest => afterDigits? rest
  | _ => .some s

/-- What follows an exponent, if one starts here. -/
def afterExponent? (s : List Char) : Option (List Char) :=
  match s with
  | c :: rest =>
    if c == 'e' || c == 'E' then
      match rest with
      | d :: ds => afterDigits? (if d == '+' || d == '-' then ds else rest)
      | [] => .none
    else .some s
  | [] => .some s

/-- What follows a number. A zero at the front stands alone. -/
def afterNumber? (s : List Char) : Option (List Char) := do
  let s := if s.head? == .some '-' then s.drop 1 else s
  let rest ← afterDigits? s
  if s.head? == .some '0' && decide (rest.length + 1 < s.length) then .none
  else do
    let rest ← afterFraction? rest
    afterExponent? rest

/-- The words that stand for a value. -/
def words : List (String × Datum) := [("true", .bool true), ("false", .bool false), ("null", .null)]

def word? (s : List Char) : Option (Datum × List Char) :=
  (words.find? fun w => w.1.toList.isPrefixOf s).map fun w => (w.2, s.drop w.1.length)

mutual

/-- A value and what follows it, in at most `fuel` steps. -/
def value? : (fuel : Nat) → List Char → Option (Datum × List Char)
  | 0, _ => .none
  | fuel + 1, s =>
    match skip s with
    | [] => .none
    | c :: rest =>
      if c == '"' then (textFrom 0 rest).map fun (r, rest) => (r.datum, rest)
      else if c == '[' then
        match skip rest with
        | ']' :: rest => .some (.list [], rest)
        | rest => (items? fuel rest).map fun (items, rest) => (.list items, rest)
      else if c == '\x7b' then
        match skip rest with
        | '\x7d' :: rest => .some (.map [], rest)
        | rest => (entries? fuel rest).map fun (entries, rest) => (.map entries, rest)
      else if c == '-' || c.isDigit then (afterNumber? (c :: rest)).map fun rest => (.number, rest)
      else word? (c :: rest)

/-- The items of a list up to its end. -/
def items? : (fuel : Nat) → List Char → Option (List Datum × List Char)
  | 0, _ => .none
  | fuel + 1, s => do
    let (item, rest) ← value? fuel s
    match skip rest with
    | ',' :: rest =>
      let (items, rest) ← items? fuel rest
      return (item :: items, rest)
    | ']' :: rest => return ([item], rest)
    | _ => .none

/-- The entries of a map up to its end. -/
def entries? : (fuel : Nat) → List Char → Option (List (Datum × Datum) × List Char)
  | 0, _ => .none
  | fuel + 1, s =>
    match skip s with
    | '"' :: rest => do
      let (key, rest) ← textFrom 0 rest
      match skip rest with
      | ':' :: rest =>
        let (item, rest) ← value? fuel rest
        match skip rest with
        | ',' :: rest =>
          let (entries, rest) ← entries? fuel rest
          return ((key.datum, item) :: entries, rest)
        | '\x7d' :: rest => return ([(key.datum, item)], rest)
        | _ => .none
      | _ => .none
    | _ => .none

end

/-- Reads a text that holds one value and nothing else. Each step takes a
character, so that twice as many as there are suffice. -/
def read? (text : String) : Option Datum :=
  match value? (2 * text.length + 2) text.toList with
  | .some (d, rest) => if (skip rest).isEmpty then .some d else .none
  | .none => .none

/-- One character of a written text. -/
def writeChar (c : Char) : List Char :=
  if c == '"' then ['\\', '"']
  else if c == '\\' then ['\\', '\\']
  else if c == '\n' then ['\\', 'n']
  else if c == '\r' then ['\\', 'r']
  else if c == '\t' then ['\\', 't']
  else if c == '\x08' then ['\\', 'b']
  else if c == '\x0c' then ['\\', 'f']
  else if c.toNat < 0x20 then
    ['\\', 'u', '0', '0', if c.toNat < 16 then '0' else '1', (Nat.toDigits 16 (c.toNat % 16)).headD '0']
  else [c]

def writeText (s : String) : String := String.ofList (['"'] ++ s.toList.flatMap writeChar ++ ['"'])

/-- A new line at this level. -/
def newLine (level : Nat) : String := String.ofList ('\n' :: List.replicate (2 * level) ' ')

mutual

/-- The datum on lines of their own, from the given level on. -/
def pretty (level : Nat) : Datum → String
  | .null => "null"
  | .bool b => if b then "true" else "false"
  | .number => "0"
  | .text s => writeText s
  | .plain s => writeText s
  | .broken => "null"
  | .tagged _ d => pretty level d
  | .list [] => "[]"
  | .list (item :: items) =>
    "[" ++ newLine (level + 1) ++ pretty (level + 1) item ++ prettyItems (level + 1) items ++ newLine level ++ "]"
  | .map [] => "\x7b\x7d"
  | .map ((key, item) :: entries) =>
    "\x7b" ++ newLine (level + 1) ++ pretty (level + 1) key ++ ": " ++ pretty (level + 1) item ++
      prettyEntries (level + 1) entries ++ newLine level ++ "\x7d"

/-- The items after the first. -/
def prettyItems (level : Nat) : List Datum → String
  | [] => ""
  | item :: items => "," ++ newLine level ++ pretty level item ++ prettyItems level items

/-- The entries after the first. -/
def prettyEntries (level : Nat) : List (Datum × Datum) → String
  | [] => ""
  | (key, item) :: entries =>
    "," ++ newLine level ++ pretty level key ++ ": " ++ pretty level item ++ prettyEntries level entries

end

end ThemeVars.Json
