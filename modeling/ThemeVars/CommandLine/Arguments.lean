/-
The command line: options, a command, the command's own options, and the one
word that it takes. Options that belong to every command may stand before or
after its name; after it they count first. A word that begins with a hyphen is
never the value of an option before it.
-/
import ThemeVars.Emission

namespace ThemeVars.CommandLine

/-- Why no command is run. -/
inductive Ending where
  | misuse
  | version
  | help
deriving DecidableEq, Repr

inductive Flag where
  | config
  | dialect
  | production
  | messages
  | verbose
  | version
  | help
  | themeFile
  | output
  | theme
deriving DecidableEq, Repr

namespace Flag

def long : Flag → String
  | .config => "config"
  | .dialect => "dialect"
  | .production => "production"
  | .messages => "messages"
  | .verbose => "verbose"
  | .version => "version"
  | .help => "help"
  | .themeFile => "theme-file"
  | .output => "output"
  | .theme => "theme"

/-- The letter that stands for the flag. -/
def letter? : Flag → Option Char
  | .config => .some 'c'
  | .verbose => .some 'v'
  | .version => .some 'V'
  | .help => .some 'h'
  | .output => .some 'o'
  | .theme => .some 't'
  | _ => .none

def takesValue : Flag → Bool
  | .config | .dialect | .messages | .themeFile | .output | .theme => true
  | _ => false

/-- May be given more than once. -/
def repeats : Flag → Bool
  | .verbose | .themeFile => true
  | _ => false

/-- A path is not empty, and a dialect has a name that is known. -/
def accepts (flag : Flag) (value : String) : Bool :=
  match flag with
  | .config | .messages | .themeFile | .output => !value.isEmpty
  | .dialect => (Dialect.ofName? value).isSome
  | _ => true

/-- The flags of every command. -/
def shared : List Flag := [.config, .dialect, .production, .messages, .verbose, .help]

end Flag

inductive CommandName where
  | extract
  | inline
  | scope
  | ident
deriving DecidableEq, Repr

namespace CommandName

def text : CommandName → String
  | .extract => "extract"
  | .inline => "inline"
  | .scope => "scope"
  | .ident => "ident"

def ofText? (text : String) : Option CommandName :=
  [extract, inline, scope, ident].find? (·.text == text)

def flags : CommandName → List Flag
  | .extract | .inline => Flag.shared ++ [.themeFile, .output]
  | .scope => Flag.shared ++ [.theme, .output]
  | .ident => Flag.shared

/-- The word that the command takes is a path. -/
def takesPath (name : CommandName) : Bool := name != .ident

end CommandName

/-- The flags that were given, in their order, each with its value. -/
structure Given where
  values : List (Flag × String) := []

namespace Given

def has (g : Given) (flag : Flag) : Bool := g.values.any (·.1 == flag)

def all (g : Given) (flag : Flag) : List String := (g.values.filter (·.1 == flag)).map (·.2)

def get? (g : Given) (flag : Flag) : Option String := (g.all flag).head?

/-- One flag more. -/
def put (g : Given) (flag : Flag) (value : String) : Except Ending Given :=
  if flag == .version then .error .version
  else if flag == .help then .error .help
  else if (g.has flag && !flag.repeats) || !flag.accepts value then .error .misuse
  else .ok ⟨g.values ++ [(flag, value)]⟩

/-- A flag written out, with what follows its equals sign. A flag that lacks
its value is pending. -/
def long (flags : List Flag) (g : Given) (name : List Char) (value : Option (List Char)) :
    Except Ending (Given × Option Flag) :=
  match flags.find? fun flag => flag.long.toList == name, value with
  | .none, _ => .error .misuse
  | .some flag, .some value =>
    if flag.takesValue then (g.put flag (String.ofList value)).map fun g => (g, .none) else .error .misuse
  | .some flag, .none =>
    if flag.takesValue then .ok (g, .some flag) else (g.put flag "").map fun g => (g, .none)

/-- Flags as letters in one word. The first that takes a value takes the rest
of the word, without an equals sign at the front; if nothing is left it is
pending. -/
def letters (flags : List Flag) (g : Given) : List Char → Except Ending (Given × Option Flag)
  | [] => .ok (g, .none)
  | c :: rest =>
    match flags.find? fun flag => flag.letter? == .some c with
    | .none => .error .misuse
    | .some flag =>
      if !flag.takesValue then
        match g.put flag "" with
        | .ok g => letters flags g rest
        | .error e => .error e
      else if rest.isEmpty then .ok (g, .some flag)
      else
        let value := if rest.head? == .some '=' then rest.drop 1 else rest
        (g.put flag (String.ofList value)).map fun g => (g, .none)

/-- A word that gives flags; none if it is a pair of hyphens or no flag. -/
def word? (flags : List Flag) (g : Given) (word : List Char) : Option (Except Ending (Given × Option Flag)) :=
  match word with
  | ['-', '-'] => .none
  | '-' :: '-' :: rest =>
    let value := rest.dropWhile (· != '=')
    .some (g.long flags (rest.takeWhile (· != '=')) (if value.isEmpty then .none else .some (value.drop 1)))
  | '-' :: c :: rest => .some (g.letters flags (c :: rest))
  | _ => .none

end Given

/-- Begins with a hyphen, and is more than that. -/
def isHyphened (word : List Char) : Bool := word.head? == .some '-' && decide (1 < word.length)

/-- Reads flags up to the first word that is none, or to a pair of hyphens;
`pending` is a flag that waits for its value. -/
def readFlags (flags : List Flag) (g : Given) : (pending : Option Flag) → List String →
    Except Ending (Given × List String)
  | .none, [] => .ok (g, [])
  | .some _, [] => .error .misuse
  | .some flag, word :: rest =>
    if isHyphened word.toList then .error .misuse
    else
      match g.put flag word with
      | .ok g => readFlags flags g .none rest
      | .error e => .error e
  | .none, word :: rest =>
    match g.word? flags word.toList with
    | .none => .ok (g, word :: rest)
    | .some (.ok (g, pending)) => readFlags flags g pending rest
    | .some (.error e) => .error e

/-- The flags of a command and the one word that it takes. After a pair of
hyphens no flag follows. -/
def readCommand (name : CommandName) (words : List String) : Except Ending (Given × String) := do
  let checked (word : String) : Except Ending Unit :=
    if name.takesPath && word.isEmpty then .error .misuse else .ok ()
  let (g, rest) ← readFlags name.flags {} .none words
  match rest with
  | [] => .error .misuse
  | word :: rest =>
    if word == "--" then
      match rest with
      | [word] =>
        checked word
        return (g, word)
      | _ => .error .misuse
    else
      checked word
      let (g, rest) ← readFlags name.flags g .none rest
      if rest.isEmpty || rest == ["--"] then return (g, word) else .error .misuse

/-- The way in which a command was asked to run. -/
structure Options where
  config : Option Path
  dialect : Option Dialect
  production : Bool
  messages : Option Path
deriving DecidableEq, Repr

inductive Command where
  /-- Rewrites a file for the theme, given more theme files. -/
  | process (mode : EmitMode) (file : Path) (themeFiles : List Path) (output : Option Path)
  /-- Restricts a file to a theme. -/
  | scope (file : Path) (theme : String) (output : Option Path)
  /-- Tells the name that a variable gets. -/
  | ident (name : String)
deriving DecidableEq, Repr

def optionsOf (before after : Given) : Options where
  config := ((after.get? .config).or (before.get? .config)).map Path.mk
  dialect := ((after.get? .dialect).or (before.get? .dialect)).bind Dialect.ofName?
  production := before.has .production || after.has .production
  messages := ((after.get? .messages).or (before.get? .messages)).map Path.mk

def commandOf (name : CommandName) (g : Given) (word : String) : Except Ending Command :=
  let output := (g.get? .output).map Path.mk
  match name with
  | .extract => .ok (.process .standalone ⟨word⟩ ((g.all .themeFile).map Path.mk) output)
  | .inline => .ok (.process .inPlace ⟨word⟩ ((g.all .themeFile).map Path.mk) output)
  | .scope =>
    match g.get? .theme with
    | .some theme => .ok (.scope ⟨word⟩ theme output)
    | .none => .error .misuse
  | .ident => .ok (.ident word)

/-- What follows the word that asks for help: a command at most. -/
def helpOn (words : List String) : Ending :=
  match words with
  | [] => .help
  | [word] => if word == "help" || (CommandName.ofText? word).isSome then .help else .misuse
  | _ => .misuse

/-- Reads a command line. -/
def parse (words : List String) : Except Ending (Options × Command) := do
  let (before, rest) ← readFlags (.version :: Flag.shared) {} .none words
  match rest with
  | [] => .error .misuse
  | word :: rest =>
    match CommandName.ofText? word with
    | .none => .error (if word == "help" then helpOn rest else .misuse)
    | .some name =>
      let (after, word) ← readCommand name rest
      let command ← commandOf name after word
      return (optionsOf before after, command)

end ThemeVars.CommandLine
