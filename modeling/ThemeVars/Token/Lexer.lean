/-
Reading a text as a sequence of tokens. Every text can be read: what fits no
other token is a delimiter of one character. `lexemes_text` says that the
lexemes are the text, cut into pieces.
-/
import ThemeVars.Token.Basic
import ThemeVars.Token.Escape
import ThemeVars.Text.Case

namespace ThemeVars

open Text

/-- The part of a comment after its opening mark: up to and with the closing
mark, or to the end. -/
def commentBody : List Char → List Char
  | [] => []
  | c :: cs =>
    if c == '*' && cs.head? == .some '/' then ['*', '/'] else c :: commentBody cs

/-- Allowed in a url without quotes. -/
def isUrlChar (c : Char) : Bool :=
  !(isSpace c || c == ')' || c == '(' || c == '"' || c == '\'' || c == '\x7f' || c == '\x0b' ||
    (1 ≤ c.toNat && c.toNat ≤ 8) || (0x0E ≤ c.toNat && c.toNat ≤ 0x1F))

/-- The rest of a url that went wrong, up to the closing parenthesis. A
backslash takes a parenthesis or backslash after it along; `taken` says that
the first character is taken so. -/
def badUrlBody : (taken : Bool) → List Char → List Char
  | _, [] => []
  | taken, c :: cs =>
    if taken then c :: badUrlBody false cs
    else if c == ')' then []
    else c :: badUrlBody (c == '\\' && cs.head?.any fun d => d == ')' || d == '\\') cs

/-- The url without quotes after an opening parenthesis, and the number of
characters it takes; none if a quote comes first. -/
def urlAt (s : List Char) : Option (Token × Nat) :=
  let lead := s.takeWhile isSpace
  let s := s.dropWhile isSpace
  if s.head?.any fun c => c == '"' || c == '\'' then .none
  else
    let (path, rest) := spanEscaped false isUrlChar .plain s
    let tail := rest.takeWhile isSpace
    let length := lead.length + path.length + tail.length
    match rest.dropWhile isSpace with
    | [] => .some (.url (unescape false path), length)
    | c :: cs =>
      if c == ')' then .some (.url (unescape false path), length + 1)
      else
        let junk := badUrlBody false cs
        let closer := if (cs.drop junk.length).isEmpty then 0 else 1
        .some (.badUrl (String.ofList (path ++ tail ++ c :: junk)), length + 1 + junk.length + closer)

/-- The string whose opening quote stands before `s`, and the number of
characters of `s` it takes. A newline ends it badly, the end of the text
does not. -/
def stringAt (quote : Char) (s : List Char) : Token × Nat :=
  let (run, rest) := spanEscaped true (fun c => c != quote && !isNewline c) .plain s
  let value := unescape true run
  match rest with
  | [] => (.string value, run.length)
  | c :: _ => if c == quote then (.string value, run.length + 1) else (.badString value, run.length)

/-- The token that starts with a name, and the number of characters it takes. -/
def nameTokenAt (s : List Char) : Token × Nat :=
  let written := nameAt s
  let name := unescape false written
  match s.drop written.length with
  | '(' :: rest =>
    match (if name.lowered == "url" then urlAt rest else .none) with
    | .some (token, length) => (token, written.length + 1 + length)
    | .none => (.function name, written.length + 1)
  | _ => (.ident name, written.length)

/-- The token that starts with a number, and the number of characters it takes. -/
def numberAt (s : List Char) : Token × Nat :=
  let n := Numeral.read s
  let length := n.text.length
  let rest := s.drop length
  if rest.head? == .some '%' then (.percentage n, length + 1)
  else if startsName rest then
    let unit := nameAt rest
    (.dimension n (unescape false unit), length + unit.length)
  else (.number n, length)

/-- The token at the front of `c :: cs` and the number of characters of the
text that it takes. -/
def tokenAt (c : Char) (cs : List Char) : Token × Nat :=
  let matching (token : Token) : Token × Nat :=
    if cs.head? == .some '=' then (token, 2) else (.delim c, 1)
  if isSpace c then (.space, 1 + (cs.takeWhile isSpace).length)
  else if c == '"' || c == '\'' then
    let (token, length) := stringAt c cs
    (token, 1 + length)
  else if Numeral.startsAt (c :: cs) then numberAt (c :: cs)
  else if c == '-' && cs.take 2 == ['-', '>'] then (.commentClose, 3)
  else if startsName (c :: cs) then nameTokenAt (c :: cs)
  else if c == '#' then
    if startsName cs then
      let name := nameAt cs
      (.idHash (unescape false name), 1 + name.length)
    else if cs.head?.any fun d => d.isDigit || d == '-' then
      let name := nameAt cs
      (.hash (unescape false name), 1 + name.length)
    else (.delim '#', 1)
  else if c == '@' then
    if startsName cs then
      let name := nameAt cs
      (.atKeyword (unescape false name), 1 + name.length)
    else (.delim '@', 1)
  else if c == '/' then
    if cs.head? == .some '*' then (.comment, 2 + (commentBody cs.tail).length) else (.delim '/', 1)
  else if c == '<' then
    if cs.take 3 == ['!', '-', '-'] then (.commentOpen, 4) else (.delim '<', 1)
  else if c == '(' then (.opening .round, 1)
  else if c == '[' then (.opening .square, 1)
  else if c == '\x7b' then (.opening .curly, 1)
  else if c == ')' then (.closing .round, 1)
  else if c == ']' then (.closing .square, 1)
  else if c == '\x7d' then (.closing .curly, 1)
  else if c == ':' then (.colon, 1)
  else if c == ';' then (.semicolon, 1)
  else if c == ',' then (.comma, 1)
  else if c == '~' then matching .includeMatch
  else if c == '|' then matching .dashMatch
  else if c == '^' then matching .prefixMatch
  else if c == '$' then matching .suffixMatch
  else if c == '*' then matching .substringMatch
  else (.delim c, 1)

/-- The lexemes of a text of which `start` characters stand before, the first
`skip` of them passed over as read already. -/
def lexemesFrom (start : Nat) : Nat → List Char → List Lexeme
  | _, [] => []
  | skip + 1, _ :: cs => lexemesFrom (start + 1) skip cs
  | 0, c :: cs =>
    let (token, length) := tokenAt c cs
    ⟨token, c :: cs.take (length - 1), start⟩ :: lexemesFrom (start + 1) (length - 1) cs

/-- The lexemes of a text. -/
def lexemes (s : List Char) : List Lexeme := lexemesFrom 0 0 s

theorem lexemesFrom_text (start skip : Nat) (s : List Char) :
    (lexemesFrom start skip s).flatMap (·.text) = s.drop skip := by
  induction s generalizing start skip with
  | nil => simp [lexemesFrom]
  | cons c cs ih =>
    cases skip with
    | zero => simp [lexemesFrom, ih]
    | succ skip => simp [lexemesFrom, ih]

/-- The lexemes of a text are the text, cut into pieces. -/
theorem lexemes_text (s : List Char) : (lexemes s).flatMap (·.text) = s :=
  lexemesFrom_text 0 0 s

end ThemeVars
