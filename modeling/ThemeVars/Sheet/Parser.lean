/-
Reading a style sheet as a tree. Statements end at a semicolon, at a curly
block or with the block that they stand in; values and selectors are kept as
text. Strings and comments have to be closed, and so have the blocks of rules
and at-rules. Everything between the parts of a node is kept beside it.
-/
import ThemeVars.Sheet.Basic
import ThemeVars.Sheet.Masking
import ThemeVars.Token.Pieces
import ThemeVars.Text.Position

namespace ThemeVars

/-- What is wrong with a sheet. -/
inductive SheetFault where
  | unclosedString
  | unclosedComment
  | unclosedBlock
  | unexpectedCloser
deriving DecidableEq, Repr

def SheetFault.message : SheetFault → String
  | .unclosedString => "unclosed string"
  | .unclosedComment => "unclosed comment"
  | .unclosedBlock => "unclosed block"
  | .unexpectedCloser => "unexpected '\x7d'"

/-- A fault and the number of characters before its place. -/
structure SheetError where
  fault : SheetFault
  start : Nat
deriving DecidableEq, Repr

namespace Sheet

/-- The text ends with the quote that it begins with. -/
def isClosedString (text : List Char) : Bool :=
  decide (2 ≤ text.length) && text.getLast? == text.head?

/-- The text has an opening mark, and a closing mark apart from it. -/
def isClosedComment (text : List Char) : Bool :=
  decide (4 ≤ text.length) && ['*', '/'].isSuffixOf text

/-- A string or comment that is not closed. -/
def lexemeFault? (l : Lexeme) : Option SheetError :=
  match l.token with
  | .string _ => if isClosedString l.text then .none else .some ⟨.unclosedString, l.start⟩
  | .badString _ => if isClosedString l.text then .none else .some ⟨.unclosedString, l.start⟩
  | .comment => if isClosedComment l.text then .none else .some ⟨.unclosedComment, l.start⟩
  | _ => .none

/-- The first string or comment that is not closed, at any depth. -/
def firstFault? : Pieces → Option SheetError
  | .done => .none
  | .leaf l rest => (lexemeFault? l).or (firstFault? rest)
  | .block _ _ inner _ rest => (firstFault? inner).or (firstFault? rest)

/-- A node that is under way: a statement before its colon, a statement after
it, or an at-rule. `gap` is the space after what has been read, and empty
before the first word. In `valued`, `link` reaches from the end of the
property over the colon to the value. -/
inductive Draft where
  | plain (head gap : List Char)
  | valued (property link value gap : List Char)
  | atRule (name afterName params gap : List Char)
deriving Repr

namespace Draft

/-- The draft with space after it. -/
def addSpace (text : List Char) : Draft → Draft
  | .plain head gap => .plain head (gap ++ text)
  | .valued property link value gap => .valued property link value (gap ++ text)
  | .atRule name afterName params gap => .atRule name afterName params (gap ++ text)

/-- The draft with a word after it. The first colon ends the property. -/
def addWord (isColon : Bool) (text : List Char) : Draft → Draft
  | .plain head gap => if isColon then .valued head (gap ++ text) [] [] else .plain (head ++ gap ++ text) []
  | .valued property link value gap =>
    if value.isEmpty then .valued property (link ++ gap) text []
    else .valued property link (value ++ gap ++ text) []
  | .atRule name afterName params gap =>
    if params.isEmpty then .atRule name gap text [] else .atRule name afterName (params ++ gap ++ text) []

/-- The node that ends without a block. -/
def finish (before : List Char) (semicolon : Bool) (d : Draft) : Node :=
  let before := String.ofList before
  match d with
  | .plain head gap => .declaration (.ofList head) "" ⟨before, "", .ofList gap⟩ semicolon
  | .valued property link value gap =>
    if value.isEmpty then .declaration (.ofList property) "" ⟨before, .ofList (link ++ gap), ""⟩ semicolon
    else .declaration (.ofList property) (.ofList value) ⟨before, .ofList link, .ofList gap⟩ semicolon
  | .atRule name afterName params gap =>
    if params.isEmpty then .statement (.ofList name) "" before (.ofList gap) "" semicolon
    else .statement (.ofList name) (.ofList params) before (.ofList afterName) (.ofList gap) semicolon

/-- The node that has a block. -/
def withBlock (before : List Char) (children : List Node) (after : List Char) (d : Draft) : Node :=
  let spacing (gap : List Char) : Spacing := ⟨.ofList before, .ofList gap, .ofList after⟩
  match d with
  | .plain head gap => .rule (.ofList head) children (spacing gap)
  | .valued property link value gap => .rule (.ofList (property ++ link ++ value)) children (spacing gap)
  | .atRule name afterName params gap =>
    if params.isEmpty then .group (.ofList name) "" children (spacing []) (.ofList gap)
    else .group (.ofList name) (.ofList params) children (spacing gap) (.ofList afterName)

end Draft

/-- What has been read since the last node: the text before the next, or a
draft of it. `sigil` says that a sign came last that makes a curly block an
interpolation. -/
inductive Pending where
  | gap (before : List Char)
  | draft (before : List Char) (d : Draft) (sigil : Bool)
deriving Repr

namespace Pending

/-- The draft under way, or a new one, with the text before it and its sign. -/
def opened : Pending → List Char × Draft × Bool
  | .gap before => (before, .plain [] [], false)
  | .draft before d sigil => (before, d, sigil)

end Pending

/-- In Less, an at-keyword before a colon is a variable, save for pages. -/
def isVariableHead (dialect : Dialect) (name : String) (rest : Pieces) : Bool :=
  dialect == .less && name.lowered != "page" &&
    match rest.afterFiller with
    | .leaf l _ => l.token == .colon
    | _ => false

/-- Makes curly blocks that follow at once interpolations. -/
def isInterpolationSign (t : Token) : Bool := t == .delim '#' || t == .delim '@'

/-- Reads a lexeme outside blocks: the node that it ends, and what is pending
then. `rest` is what follows it. -/
def step (dialect : Dialect) (rest : Pieces) (l : Lexeme) (pending : Pending) :
    Except SheetError (Option Node × Pending) :=
  let word : Except SheetError (Option Node × Pending) :=
    match lexemeFault? l with
    | .some e => .error e
    | .none =>
      let (before, d, _) := pending.opened
      .ok (.none, .draft before (d.addWord (l.token == .colon) l.text) (isInterpolationSign l.token))
  match pending with
  | .gap before =>
    match l.token with
    | .space => .ok (.none, .gap (before ++ l.text))
    | .lineComment => .ok (.some (.comment (.ofList (l.text.drop 2)) (.ofList before) true), .gap [])
    | .comment =>
      match lexemeFault? l with
      | .some e => .error e
      | .none =>
        let text := ((l.text.drop 2).dropLast).dropLast
        .ok (.some (.comment (.ofList text) (.ofList before) false), .gap [])
    | .semicolon => .ok (.none, .gap (before ++ l.text))
    | .closing .curly => .error ⟨.unexpectedCloser, l.start⟩
    | .atKeyword name =>
      if isVariableHead dialect name rest then word
      else .ok (.none, .draft before (.atRule (l.text.drop 1) [] [] []) false)
    | _ => word
  | .draft before d _ =>
    match l.token with
    | .space => .ok (.none, .draft before (d.addSpace l.text) false)
    | .lineComment => .ok (.none, .draft before (d.addSpace l.text) false)
    | .semicolon => .ok (.some (d.finish before true), .gap [])
    | .closing .curly => .error ⟨.unexpectedCloser, l.start⟩
    | _ => word

/-- The nodes of a sequence of pieces and the text after the last. -/
def nodesOf (dialect : Dialect) : Pending → Pieces → Except SheetError (List Node × List Char)
  | .gap before, .done => .ok ([], before)
  | .draft before d _, .done => .ok ([d.finish before false], [])
  | pending, .leaf l rest => do
    let (node, pending) ← step dialect rest l pending
    let (nodes, after) ← nodesOf dialect pending rest
    return (node.toList ++ nodes, after)
  | pending, .block opener bracket inner closer rest => do
    let (before, d, sigil) := pending.opened
    if bracket == .curly && !sigil then
      let (children, after) ← nodesOf dialect (.gap []) inner
      if closer.isNone then
        throw ⟨.unclosedBlock, opener.start + (Pieces.blockText opener inner closer).length⟩
      let (nodes, last) ← nodesOf dialect (.gap []) rest
      return (d.withBlock before children after :: nodes, last)
    else
      if let .some e := firstFault? inner then throw e
      let d := d.addWord false (Pieces.blockText opener inner closer)
      nodesOf dialect (.draft before d false) rest

/-- Reads a sheet; `source` is the file that it comes from. -/
def read (dialect : Dialect) (source : Option Path) (text : String) : Except SheetError Sheet :=
  (nodesOf dialect (.gap []) (.ofLexemes (Masking.sheetLexemes dialect text.toList))).map
    fun (nodes, after) => ⟨nodes, .ofList after, source⟩

end Sheet

end ThemeVars
