/-
What the tokens of a document say. An alias stands for the datum that was
given its name last; inside that datum itself nothing can be read from it.
-/
import ThemeVars.Data.Basic
import ThemeVars.Data.Yaml.Token

namespace ThemeVars.Yaml

/-- A datum that is not written. -/
def nothing : Datum := .plain ""

structure Reading where
  rest : List Token
  /-- What the handles of tags stand for. -/
  handles : List (String × List UInt8)
  /-- The data with names, the last of them first; `.none` while one is read. -/
  anchors : List (String × Option Datum)

abbrev Parsing := StateT Reading Option

namespace Parsing

def peek : Parsing (Option Token) := return (← get).rest.head?

def advance : Parsing Unit := modify fun r => { r with rest := r.rest.tail }

/-- Passes over the token if it comes next. -/
def accept (t : Token) : Parsing Bool := do
  if (← peek) == .some t then
    advance
    return true
  else return false

def expect (t : Token) : Parsing Unit := do
  if !(← accept t) then failure

def nextIn (ts : List Token) : Parsing Bool := return (← peek).any ts.contains

/-- Nothing, if one of the tokens comes next. -/
def unlessNext (ts : List Token) (read : Parsing Datum) : Parsing Datum := do
  if ← nextIn ts then return nothing else read

/-- Reads what follows the token, or nothing if the token does not come next. -/
def ifAccepted (t : Token) (read : Parsing Datum) : Parsing Datum := do
  if ← accept t then read else return nothing

def anchor? : Parsing (Option String) := do
  match ← peek with
  | .some (.anchor name) =>
    advance
    return .some name
  | _ => return .none

/-- The octets of a tag as a text. Octets that are no text are no tag of the
document's own. -/
def textOf (octets : List UInt8) : String := (String.fromUTF8? ⟨octets.toArray⟩).getD "\ufffd"

def tag? : Parsing (Option String) := do
  match ← peek with
  | .some (.tag t) =>
    advance
    if t.handle.isEmpty then return .some (textOf t.octets)
    else
      match (← get).handles.lookup t.handle with
      | .some start => return .some (textOf (start ++ t.octets))
      | .none => failure
  | _ => return .none

/-- An anchor and a tag, in either order. -/
def properties : Parsing (Option String × Option String) := do
  let anchor ← anchor?
  let tag ← tag?
  let anchor ← if anchor.isNone then anchor? else pure anchor
  return (anchor, tag)

/-- Reads what the name, if there is one, is given to. -/
def named (name : Option String) (read : Parsing Datum) : Parsing Datum := do
  match name with
  | .none => read
  | .some name =>
    let before := (← get).anchors.length
    modify fun r => { r with anchors := (name, .none) :: r.anchors }
    let d ← read
    modify fun r => { r with anchors := r.anchors.set (r.anchors.length - 1 - before) (name, .some d) }
    return d

def aliased (name : String) : Parsing Datum := do
  match (← get).anchors.lookup name with
  | .some d => return d.getD .broken
  | .none => failure

def withTag (tag : Option String) (d : Datum) : Datum :=
  match tag with
  | .some t => .tagged t d
  | .none => d

/-- The tag of a truth value. -/
def boolTag : String := "tag:yaml.org,2002:bool"

/-- A scalar without quotes is a word, and so is a literal block that is
tagged as a truth value; all others are texts. -/
def scalarDatum (tag : Option String) (style : ScalarStyle) (text : String) : Datum :=
  let isWord := style == .plain || (style == .literal && tag == .some boolTag && !text.isEmpty)
  withTag (tag.filter (· != "!")) (if isWord then .plain text else .text text)

mutual

/-- A datum with its anchor and tag. It may be a collection by indentation
(`block`), and a sequence as far indented as the mapping that it stands in
(`indentless`). -/
def node : (fuel : Nat) → (block indentless : Bool) → Parsing Datum
  | 0, _, _ => failure
  | fuel + 1, block, indentless => do
    match ← peek with
    | .some (.alias name) =>
      advance
      aliased name
    | _ =>
      let (anchor, tag) ← properties
      named anchor do
        match ← content fuel block indentless tag with
        | .some d => return d
        | .none => if anchor.isSome || tag.isSome then return withTag tag nothing else failure

/-- The datum itself, if there is one. -/
def content : (fuel : Nat) → (block indentless : Bool) → (tag : Option String) → Parsing (Option Datum)
  | 0, _, _, _ => failure
  | fuel + 1, block, indentless, tag => do
    match ← peek with
    | .some (.scalar style text) =>
      advance
      return .some (scalarDatum tag style text)
    | .some .openSequence =>
      advance
      return .some (withTag tag (.list (← bracketItems fuel true)))
    | .some .openMapping =>
      advance
      return .some (withTag tag (.map (← bracketEntries fuel true)))
    | .some .blockSequence =>
      if !block then return .none
      advance
      return .some (withTag tag (.list (← blockItems fuel)))
    | .some .blockMapping =>
      if !block then return .none
      advance
      return .some (withTag tag (.map (← blockEntries fuel)))
    | .some .item =>
      if !indentless then return .none
      return .some (withTag tag (.list (← plainItems fuel)))
    | _ => return .none

/-- The items of a sequence by indentation. -/
def blockItems : (fuel : Nat) → Parsing (List Datum)
  | 0 => failure
  | fuel + 1 => do
    if ← accept .blockEnd then return []
    expect .item
    let d ← unlessNext [.item, .blockEnd] (node fuel true false)
    return d :: (← blockItems fuel)

/-- The items of a sequence without indentation of its own. -/
def plainItems : (fuel : Nat) → Parsing (List Datum)
  | 0 => failure
  | fuel + 1 => do
    if !(← accept .item) then return []
    let d ← unlessNext [.item, .key, .value, .blockEnd] (node fuel true false)
    return d :: (← plainItems fuel)

/-- The entries of a mapping by indentation. -/
def blockEntries : (fuel : Nat) → Parsing (List (Datum × Datum))
  | 0 => failure
  | fuel + 1 => do
    if ← accept .blockEnd then return []
    expect .key
    let key ← unlessNext [.key, .value, .blockEnd] (node fuel true true)
    let d ← ifAccepted .value <| unlessNext [.key, .value, .blockEnd] (node fuel true true)
    return (key, d) :: (← blockEntries fuel)

/-- The items of a sequence in brackets. An item may be a single entry. -/
def bracketItems : (fuel : Nat) → (first : Bool) → Parsing (List Datum)
  | 0, _ => failure
  | fuel + 1, first => do
    if ← accept .closeSequence then return []
    if !first then expect .comma
    if ← accept .closeSequence then return []
    let d ← if ← accept .key then bracketPair fuel else node fuel false false
    return d :: (← bracketItems fuel false)

/-- A single entry in a sequence. Where its key is missing, the token that
shows this counts as read. -/
def bracketPair : (fuel : Nat) → Parsing Datum
  | 0 => failure
  | fuel + 1 => do
    let key ←
      if ← nextIn [.value, .comma, .closeSequence] then
        advance
        pure nothing
      else node fuel false false
    let d ← ifAccepted .value <| unlessNext [.comma, .closeSequence] (node fuel false false)
    return .map [(key, d)]

/-- The entries of a mapping in brackets. A key may stand alone. -/
def bracketEntries : (fuel : Nat) → (first : Bool) → Parsing (List (Datum × Datum))
  | 0, _ => failure
  | fuel + 1, first => do
    if ← accept .closeMapping then return []
    if !first then expect .comma
    if ← accept .closeMapping then return []
    let entry ←
      if ← accept .key then
        let key ← unlessNext [.value, .comma, .closeMapping] (node fuel false false)
        let d ← ifAccepted .value <| unlessNext [.comma, .closeMapping] (node fuel false false)
        pure (key, d)
      else
        let key ← node fuel false false
        pure (key, nothing)
    return entry :: (← bracketEntries fuel false)

end

end Parsing

/-- The handles that directives declare, in front of the two that need no
declaration, and the tokens after the directives. -/
def readDirectives : (version : Bool) → (handles : List (String × List UInt8)) → List Token →
    Option (List (String × List UInt8) × List Token)
  | version, handles, .directive .version :: rest =>
    if version then .none else readDirectives true handles rest
  | version, handles, .directive (.handle name octets) :: rest =>
    if handles.any (·.1 == name) then .none else readDirectives version ((name, octets) :: handles) rest
  | _, handles, rest => .some (handles ++ [("!", [33]), ("!!", "tag:yaml.org,2002:".toUTF8.toList)], rest)

/-- A document that has begun is without content here. -/
def endsContent : List Token → Bool
  | [] | .documentStart :: _ | .documentEnd :: _ | .directive _ :: _ => true
  | _ => false

/-- The datum of a text that holds one document, or nothing at all. After
directives, the beginning of the document has to be marked. -/
def document? (tokens : List Token) : Option Datum := do
  let (handles, rest) ← readDirectives false [] tokens
  -- at most four steps for each token, and one more for what is missing at the end
  let content (rest : List Token) : Option (Datum × List Token) :=
    (Parsing.node (4 * rest.length + 4) true false ⟨rest, handles, []⟩).map fun (d, r) => (d, r.rest)
  let (d, after) ←
    match rest with
    | .documentStart :: rest => if endsContent rest then .some (nothing, rest) else content rest
    | _ =>
      if tokens.isEmpty then .some (nothing, [])
      else if rest.length == tokens.length then content rest
      else .none
  if after.all (· == .documentEnd) then return d else failure

end ThemeVars.Yaml
