/-
Everything that can go wrong, by its cause. A reference to a variable that is
missing or that leads back to itself is no error.
-/
import ThemeVars.Sheet.Parser
import ThemeVars.Value.Reader

namespace ThemeVars

/-- What is wrong with a configuration. -/
inductive SettingsFault where
  | unknownDialect (name : String)
  | unreadableText
deriving DecidableEq, Repr

/-- The dialect with this name. -/
def Dialect.named (name : String) : Except SettingsFault Dialect :=
  match Dialect.ofName? name with
  | .some d => .ok d
  | .none => .error (.unknownDialect name.lowered)

inductive Error where
  /-- A sheet that cannot be read as a tree. -/
  | sheet (file : Option Path) (position : Text.Position) (fault : SheetFault)
  /-- A value with a token that it cannot hold. -/
  | value (text : String) (e : ValueError)
  /-- An import that names no file. -/
  | unresolved (specifier : String) (base : Path)
  /-- A file that cannot be read. -/
  | unreadable (file : Path) (reason : String)
  | settings (fault : SettingsFault)
deriving DecidableEq, Repr

namespace Error

def message : Error → String
  | .sheet file position fault =>
    let name :=
      match file with
      | .none => "<inline>"
      | .some path => path.text
    "failed to parse " ++ name ++ ":" ++ toString position.line ++ ":" ++ toString position.column ++ ": " ++
      fault.message
  | .value text e => "malformed value '" ++ text ++ "': " ++ e.message text
  | .unresolved specifier base =>
    "cannot resolve import '" ++ specifier ++ "' from " ++ base.text ++ ": no matching source"
  | .unreadable file reason => "failed to read " ++ file.text ++ ": " ++ reason
  | .settings (.unknownDialect name) => "invalid configuration: unknown dialect '" ++ name ++ "'"
  | .settings .unreadableText => "invalid configuration:"

end Error

/-- Reads a sheet; a fault is reported with its place. -/
def Sheet.parse (dialect : Dialect) (file : Option Path) (text : String) : Except Error Sheet :=
  (Sheet.read dialect file text).mapError fun e =>
    .sheet file (Text.sheetPosition (text.toList.take e.start)) e.fault

/-- Reads a value; a fault is reported with the value. -/
def Value.parse (sigil : Option Char) (value : String) : Except Error Value :=
  (Value.read sigil value).mapError (.value value)

end ThemeVars
