/-
The tokens of YAML, among them those that no character writes: the beginnings
and ends of collections that are told by indentation, and the keys that only
the colon after them shows to be keys.
-/
import ThemeVars.Data.Yaml.Tag

namespace ThemeVars.Yaml

inductive ScalarStyle where
  | plain
  | quoted
  | literal
  | folded
deriving DecidableEq, Repr

inductive Token where
  | directive (d : Directive)
  | documentStart
  | documentEnd
  | blockSequence
  | blockMapping
  | blockEnd
  | openSequence
  | closeSequence
  | openMapping
  | closeMapping
  | comma
  | item
  | key
  | value
  | alias (name : String)
  | anchor (name : String)
  | tag (t : Tag)
  | scalar (style : ScalarStyle) (text : String)
deriving DecidableEq, Repr

/-- The place of what becomes a key if a colon follows it. -/
structure KeyPlace where
  /-- Nothing but a key may stand here. -/
  required : Bool
  /-- The number of tokens before it. -/
  before : Nat
  passed : Nat
  line : Nat
  column : Nat
deriving Repr

/-- A key stands on one line and has 1024 characters at most. -/
def KeyPlace.isPast (k : KeyPlace) (p : Place) : Bool :=
  decide (k.line < p.line) || decide (k.passed + 1024 < p.passed)

structure Scanner where
  /-- The tokens so far, the last of them first. -/
  tokens : List Token
  /-- The columns of the collections by indentation, the innermost first. -/
  columns : List Nat
  /-- The possible key in the innermost brackets. -/
  possibleKey : Option KeyPlace
  /-- The possible keys around these brackets, and around those around them. -/
  outerKeys : List (Option KeyPlace)
  /-- A key may begin here. -/
  keyAllowed : Bool
deriving Repr

namespace Scanner

def start : Scanner := ⟨[], [], .none, [], true⟩

/-- The scanner stands in brackets, where indentation does not count. -/
def inBrackets (s : Scanner) : Bool := !s.outerKeys.isEmpty

def put (s : Scanner) (t : Token) : Scanner := { s with tokens := t :: s.tokens }

/-- Adds a token after the first `before` tokens. -/
def insert (s : Scanner) (before : Nat) (t : Token) : Scanner :=
  let count := s.tokens.length - before
  { s with tokens := s.tokens.take count ++ t :: s.tokens.drop count }

/-- Gives up the possible key. -/
def dropKey (s : Scanner) : Option Scanner :=
  if s.possibleKey.any (·.required) then .none else .some { s with possibleKey := .none }

/-- Gives up the keys that a colon here would come too late for. -/
def dropPastKeys (s : Scanner) (p : Place) : Option Scanner :=
  let isLost (k : KeyPlace) : Bool := k.isPast p && k.required
  let stillPossible (k : Option KeyPlace) : Option KeyPlace := k.filter (!·.isPast p)
  if (s.possibleKey :: s.outerKeys).any (·.any isLost) then .none
  else .some { s with
    possibleKey := stillPossible s.possibleKey, outerKeys := s.outerKeys.map stillPossible }

/-- A possible key begins here, if any may. -/
def saveKey (s : Scanner) (p : Place) : Option Scanner :=
  if !s.keyAllowed then .some s
  else
    let required := !s.inBrackets && s.columns.head? == .some p.column
    s.dropKey.map fun s =>
      { s with possibleKey := .some ⟨required, s.tokens.length, p.passed, p.line, p.column⟩ }

/-- Ends the collections by indentation whose columns are `past`. -/
def closeBlocks (s : Scanner) (past : Nat → Bool) : Scanner :=
  if s.inBrackets then s
  else
    let closed := s.columns.takeWhile past
    { s with
      tokens := List.replicate closed.length .blockEnd ++ s.tokens
      columns := s.columns.drop closed.length }

/-- Begins a collection at the column, unless one has begun there; its token
comes after the first `before` tokens. -/
def openBlock (s : Scanner) (column before : Nat) (t : Token) : Scanner :=
  if s.inBrackets || s.columns.head?.any (column ≤ ·) then s
  else { s.insert before t with columns := column :: s.columns }

/-- An item of a sequence or a key that a sign announces. -/
def announce (s : Scanner) (p : Place) (collection sign : Token) (thenAllowed : Bool) :
    Option (Scanner × Place) :=
  if !s.inBrackets && !s.keyAllowed then .none
  else
    (s.openBlock p.column s.tokens.length collection).dropKey.map fun s =>
      ({ s with keyAllowed := thenAllowed }.put sign, p.skip 1)

/-- A colon: what stands before it is a key, if it can be one. -/
def colon (s : Scanner) (p : Place) : Option (Scanner × Place) :=
  match s.possibleKey with
  | .some k =>
    let s := (s.insert k.before .key).openBlock k.column k.before .blockMapping
    .some ({ s with possibleKey := .none, keyAllowed := false }.put .value, p.skip 1)
  | .none =>
    if !s.inBrackets && !s.keyAllowed then .none
    else
      let s := s.openBlock p.column s.tokens.length .blockMapping
      .some ({ s with keyAllowed := !s.inBrackets }.put .value, p.skip 1)

def opening (s : Scanner) (p : Place) (t : Token) : Option (Scanner × Place) :=
  (s.saveKey p).map fun s =>
    ({ s with possibleKey := .none, outerKeys := s.possibleKey :: s.outerKeys, keyAllowed := true }.put t,
      p.skip 1)

def closing (s : Scanner) (p : Place) (t : Token) : Option (Scanner × Place) :=
  s.dropKey.map fun s =>
    let s := match s.outerKeys with
      | [] => s
      | k :: ks => { s with possibleKey := k, outerKeys := ks }
    ({ s with keyAllowed := false }.put t, p.skip 1)

/-- A token that may be a key or begin one. -/
def word (s : Scanner) (p : Place) (t : Token) (length : Nat) (thenAllowed : Bool) :
    Option (Scanner × Place) :=
  (s.saveKey p).map fun s => ({ s with keyAllowed := thenAllowed }.put t, p.skip length)

/-- A directive or the mark of a document, before which all collections end. -/
def line (s : Scanner) (p : Place) (t : Token) (length : Nat) : Option (Scanner × Place) :=
  (s.closeBlocks fun _ => true).dropKey.map fun s => ({ s with keyAllowed := false }.put t, p.skip length)

/-- The name of an anchor or an alias. -/
def anchorName? (s : List Char) : Option (List Char) :=
  let name := s.takeWhile isNameChar
  let after := s.drop name.length
  let ends := endsWord after || after.head?.any ['?', ':', ',', ']', '\x7d', '%', '@', '\x60'].contains
  if name.isEmpty || !ends then .none else .some name

/-- The token at `c`, with `cs` after it. -/
def step (s : Scanner) (p : Place) (c : Char) (cs : List Char) : Option (Scanner × Place) :=
  if c == '%' && p.column == 0 then
    (directive? cs).bind fun (d, n) => s.line p (.directive d) (n + 1)
  else if marksDocument p.column (c :: cs) then
    s.line p (if c == '-' then .documentStart else .documentEnd) 3
  else if c == '[' then s.opening p .openSequence
  else if c == '\x7b' then s.opening p .openMapping
  else if c == ']' then s.closing p .closeSequence
  else if c == '\x7d' then s.closing p .closeMapping
  else if c == ',' then s.dropKey.map fun s => ({ s with keyAllowed := true }.put .comma, p.skip 1)
  else if c == '-' && endsWord cs then s.announce p .blockSequence .item true
  else if c == '?' && (s.inBrackets || endsWord cs) then s.announce p .blockMapping .key (!s.inBrackets)
  else if c == ':' && (s.inBrackets || endsWord cs) then s.colon p
  else if c == '*' || c == '&' then
    (anchorName? cs).bind fun name =>
      let t := if c == '*' then Token.alias (.ofList name) else .anchor (.ofList name)
      s.word p t (name.length + 1) false
  else if c == '!' then
    (tag? (c :: cs)).bind fun (t, n) =>
      let after := (c :: cs).drop n
      if endsWord after || (s.inBrackets && after.head? == .some ',') then s.word p (.tag t) n false else .none
  else if (c == '|' || c == '>') && !s.inBrackets then
    let literal := c == '|'
    (block? literal s.columns.head? cs).bind fun r =>
      s.dropKey.map fun s =>
        let t := Token.scalar (if literal then .literal else .folded) (.ofList r.text)
        ({ s with keyAllowed := true }.put t, p.skip (r.taken + 1))
  else if c == '"' || c == '\'' then
    (quotedFrom c 0 (p.column + 1) [] false cs).bind fun r =>
      s.word p (.scalar .quoted (.ofList r.text)) (r.taken + 1) false
  else if startsPlain s.inBrackets (c :: cs) then
    let indent := match s.columns.head? with
      | .some column => column + 1
      | .none => 0
    (plainFrom s.inBrackets indent p.column [] (c :: cs)).bind fun r =>
      s.word p (.scalar .plain (.ofList r.text)) r.taken r.newLine
  else .none

end Scanner

/-- The length of the space and the comments ahead, and whether a key may
begin after them. Outside of brackets, a key may begin on every new line, and
no tab stands where one may. -/
def spaceFrom (inBrackets : Bool) : (comment keyAllowed : Bool) → List Char → Nat × Bool
  | _, keyAllowed, [] => (0, keyAllowed)
  | comment, keyAllowed, c :: cs =>
    let further (comment keyAllowed : Bool) : Nat × Bool :=
      let (n, allowed) := spaceFrom inBrackets comment keyAllowed cs
      (n + 1, allowed)
    if isBreak c then further false (keyAllowed || !inBrackets)
    else if comment || c == '#' then further true keyAllowed
    else if c == ' ' || (c == '\t' && (inBrackets || !keyAllowed)) then further false keyAllowed
    else (0, keyAllowed)

/-- The place after space and comments; a byte order mark may stand at the
very beginning. -/
def Place.afterSpace (p : Place) (s : Scanner) : Place × Bool :=
  let p := if p.passed == 0 && p.rest.head? == .some '\ufeff' then p.next else p
  let (n, keyAllowed) := spaceFrom s.inBrackets false s.keyAllowed p.rest
  (p.skip n, keyAllowed)

namespace Token

/-- The tokens of what is ahead, after those that the scanner has read. -/
def scanFrom (s : Scanner) (p : Place) : Option (List Token) :=
  let (q, keyAllowed) := p.afterSpace s
  match { s with keyAllowed }.dropPastKeys q with
  | .none => .none
  | .some s =>
    let s := s.closeBlocks (q.column < ·)
    match q.rest with
    | [] => (s.closeBlocks fun _ => true).dropKey.map (·.tokens.reverse)
    | c :: cs =>
      match s.step q c cs with
      | .none => .none
      | .some (s, after) =>
        -- every token has a character, so that the text grows shorter
        if _h : after.rest.length < p.rest.length then scanFrom s after else .none
termination_by p.rest.length

def scan? (text : List Char) : Option (List Token) := scanFrom .start (.start text)

end Token

end ThemeVars.Yaml
