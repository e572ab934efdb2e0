/-
The tokens of style sheets and of their values. A lexeme is a token together
with the text it was read from and the place of that text.
-/
import ThemeVars.Token.Numeral
import ThemeVars.Text.Quoted
import ThemeVars.Decimal.Layout

namespace ThemeVars

/-- The three kinds of bracket. -/
inductive Bracket where
  | round
  | square
  | curly
deriving DecidableEq, Repr

inductive Token where
  | space
  | comment
  /-- A comment to the end of the line, in the dialects that have them. -/
  | lineComment
  | ident (name : String)
  | function (name : String)
  | atKeyword (name : String)
  | hash (name : String)
  | idHash (name : String)
  | string (value : String)
  | badString (value : String)
  | url (path : String)
  | badUrl (text : String)
  | number (n : Numeral)
  | percentage (n : Numeral)
  | dimension (n : Numeral) (unit : String)
  | colon
  | semicolon
  | comma
  | includeMatch
  | dashMatch
  | prefixMatch
  | suffixMatch
  | substringMatch
  | commentOpen
  | commentClose
  | opening (bracket : Bracket)
  | closing (bracket : Bracket)
  | delim (c : Char)
deriving DecidableEq, Repr

namespace Token

/-- The bracket that the token opens. -/
def opens? : Token → Option Bracket
  | .function _ => .some .round
  | .opening b => .some b
  | _ => .none

def isClosing (b : Bracket) (t : Token) : Bool := t == .closing b

/-- Space or a comment: what may stand between any two tokens. -/
def isFiller : Token → Bool
  | .space => true
  | .comment => true
  | .lineComment => true
  | _ => false

def showBool (b : Bool) : String := if b then "true" else "false"

def showInteger : Option Int → String
  | .none => "None"
  | .some n => "Some(" ++ toString n ++ ")"

/-- The fields of a number, its value under the given label. -/
def showNumeral (label : String) (n : Numeral) (value : Float) : String :=
  "has_sign: " ++ showBool n.hasSign ++ ", " ++ label ++ ": " ++
    Decimal.plain.render (.ofWord value.toFloat32.toBits) ++ ", int_value: " ++ showInteger n.integer?

/-- The token as an error message names it. -/
def describe : Token → String
  | .space => "WhiteSpace"
  | .comment => "Comment"
  | .lineComment => "Comment"
  | .ident name => "Ident(" ++ Text.quoted name ++ ")"
  | .function name => "Function(" ++ Text.quoted name ++ ")"
  | .atKeyword name => "AtKeyword(" ++ Text.quoted name ++ ")"
  | .hash name => "Hash(" ++ Text.quoted name ++ ")"
  | .idHash name => "IDHash(" ++ Text.quoted name ++ ")"
  | .string value => "QuotedString(" ++ Text.quoted value ++ ")"
  | .badString value => "BadString(" ++ Text.quoted value ++ ")"
  | .url path => "UnquotedUrl(" ++ Text.quoted path ++ ")"
  | .badUrl text => "BadUrl(" ++ Text.quoted text ++ ")"
  | .number n => "Number \x7b " ++ showNumeral "value" n n.value ++ " \x7d"
  | .percentage n => "Percentage \x7b " ++ showNumeral "unit_value" n (n.value / 100) ++ " \x7d"
  | .dimension n unit =>
    "Dimension \x7b " ++ showNumeral "value" n n.value ++ ", unit: " ++ Text.quoted unit ++ " \x7d"
  | .colon => "Colon"
  | .semicolon => "Semicolon"
  | .comma => "Comma"
  | .includeMatch => "IncludeMatch"
  | .dashMatch => "DashMatch"
  | .prefixMatch => "PrefixMatch"
  | .suffixMatch => "SuffixMatch"
  | .substringMatch => "SubstringMatch"
  | .commentOpen => "CDO"
  | .commentClose => "CDC"
  | .opening .round => "ParenthesisBlock"
  | .opening .square => "SquareBracketBlock"
  | .opening .curly => "CurlyBracketBlock"
  | .closing .round => "CloseParenthesis"
  | .closing .square => "CloseSquareBracket"
  | .closing .curly => "CloseCurlyBracket"
  | .delim c => "Delim(" ++ Text.quotedOne c ++ ")"

end Token

/-- A token, the text it was read from, and the number of characters before
that text. -/
structure Lexeme where
  token : Token
  text : List Char
  start : Nat
deriving DecidableEq, Repr

/-- The number of characters up to the end of the lexeme. -/
def Lexeme.stop (l : Lexeme) : Nat := l.start + l.text.length

end ThemeVars
