/-
Running a command on a host, which holds the files. What was printed before a
failure stays printed.
-/
import ThemeVars.CommandLine.Arguments
import ThemeVars.CommandLine.FileTree
import ThemeVars.Message.Json
import ThemeVars.Session
import ThemeVars.Settings.Reader

namespace ThemeVars.CommandLine

/-- Where commands run: a working directory, and files. A file that cannot be
read or written has a reason. -/
structure Host (m : Type → Type) where
  directory : Path
  isFile : Path → m Bool
  read : Path → m (Except String String)
  write : Path → String → m (Except String Unit)

/-- What a run leaves behind, apart from files. -/
structure Outcome where
  code : Nat := 0
  stdout : String := ""
  stderr : String := ""
deriving DecidableEq, Repr

/-- What a command fails at. -/
inductive Failure where
  | reading (file : Path) (reason : String)
  | writing (file : Path) (reason : String)
  | configuration (file : Path) (e : Error)
  | processing (file : Path) (e : Error)
  | annotating (e : Error)
deriving DecidableEq, Repr

/-- The error and what lies behind it: for an unreadable file the reason again. -/
def errorText (e : Error) : String :=
  match e with
  | .unreadable _ reason => e.message ++ ": " ++ reason
  | _ => e.message

def Failure.message : Failure → String
  | .reading file reason => "reading " ++ file.text ++ ": " ++ reason
  | .writing file reason => "writing " ++ file.text ++ ": " ++ reason
  | .configuration file e => "loading configuration " ++ file.text ++ ": " ++ errorText e
  | .processing file e => "processing " ++ file.text ++ ": " ++ errorText e
  | .annotating e => errorText e

/-- A command on its way, with what it has printed. -/
abbrev Running (m : Type → Type) := ExceptT Failure (StateT String m)

variable {m : Type → Type} [Monad m]

def print (text : String) : Running m Unit := modify (· ++ text)

/-- What the host did, or the failure to do it. -/
def doing {ε α : Type} (failure : ε → Failure) (action : m (Except ε α)) : Running m α := do
  match ← (action : m (Except ε α)) with
  | .ok a => return a
  | .error e => throw (failure e)

namespace Host

def sources (host : Host m) : Sources m where
  holds := host.isFile
  load path := do return (← host.read path).mapError (.unreadable path)

def readFile (host : Host m) (file : Path) : Running m String := doing (.reading file) (host.read file)

/-- Writes to a file, or prints if there is none. -/
def writeTo (host : Host m) (output : Option Path) (text : String) : Running m Unit :=
  match output with
  | .some file => doing (.writing file) (host.write file text)
  | .none => print text

/-- The settings of the configuration file, if there is one, and of the
options. -/
def settings (host : Host m) (options : Options) : Running m Settings := do
  let s : Settings ←
    match options.config with
    | .none => pure {}
    | .some file => doing (.configuration file) do
        return ((← host.read file).mapError (.unreadable file)).bind (Settings.ofFile file)
  return { s with
    dialect := options.dialect.getD s.dialect
    identMode := if options.production then .production else s.identMode }

/-- Rewrites a file. All paths are taken from the working directory. -/
def process (host : Host m) (settings : Settings) (mode : EmitMode) (file : Path)
    (themeFiles : List Path) (output messages : Option Path) : Running m Unit := do
  let session := Session.new
    { settings with themeFiles := (settings.themeFiles ++ themeFiles).map host.directory.join } host.sources
  let file := host.directory.join file
  let text ← host.readFile file
  let result ← doing (.processing file) (session.processText text file mode).run
  host.writeTo output result.sheet.print
  match messages with
  | .some listing => host.writeTo (.some listing) result.log.toJson
  | .none => return

/-- Restricts a file to a theme. -/
def scope (host : Host m) (settings : Settings) (file : Path) (theme : String) (output : Option Path) :
    Running m Unit := do
  let session := Session.new settings host.sources
  let text ← host.readFile file
  let sheet ← doing .annotating (pure (Sheet.parse (settings.dialectOf file) (.some file) text))
  host.writeTo output (session.annotate theme sheet).print

def command (host : Host m) (options : Options) (command : Command) : Running m Unit := do
  let settings ← host.settings options
  match command with
  | .process mode file themeFiles output =>
    host.process settings mode file themeFiles output options.messages
  | .scope file theme output => host.scope settings file theme output
  | .ident name => print ((Ident.ofName settings.identMode name).text ++ "\n")

/-- Runs a command line. -/
def run (host : Host m) (words : List String) : m Outcome := do
  match parse words with
  | .error .misuse => return { code := 2 }
  | .error .help => return {}
  | .error .version => return { stdout := "themeshift 0.4.0\n" }
  | .ok (options, command) =>
    match ← ((host.command options command).run).run "" with
    | (.ok _, stdout) => return { stdout }
    | (.error e, stdout) => return { code := 1, stdout, stderr := "error: " ++ e.message ++ "\n" }

/-- The files of a tree, which changes as files are written. -/
def inMemory (directory : Path) : Host (StateM FileTree) where
  directory
  isFile path := do return (← get).isFile path
  read path := do return ((← get).read path).mapError (·.message)
  write path text := do
    match (← get).write path text with
    | .ok tree =>
      set tree
      return .ok ()
    | .error fault => return .error fault.message

end Host

end ThemeVars.CommandLine
