/-
What a pass tells about variables. A log has one message for each variable,
kind and engine: a later one takes the place of an earlier.
-/
import ThemeVars.Keyed
import ThemeVars.Variable.Table

namespace ThemeVars

inductive MessageKind where
  | themeVariable
  | rootScopedThemeVariable
  | localContextVariable
  | urlDependencyVariable
  | inlinePropertyVariable
deriving DecidableEq, Repr

def MessageKind.name : MessageKind → String
  | .themeVariable => "theme-variable"
  | .rootScopedThemeVariable => "root-scoped-theme-variable"
  | .localContextVariable => "local-context-variable"
  | .urlDependencyVariable => "url-dependency-variable"
  | .inlinePropertyVariable => "inline-property-variable"

/-- A variable, what is told of it, and its value as it was written out. -/
structure Message where
  ident : Ident
  kind : MessageKind
  engine : String
  name : String
  value : String
  source : Option Path
  urls : Option RelativeUrls
deriving DecidableEq, Repr

/-- What messages are told apart by. -/
abbrev MessageKey := Ident × MessageKind × String

namespace Message

def ofVariable (v : Variable) (kind : MessageKind) (engine value : String) : Message :=
  ⟨v.ident, kind, engine, v.name, value, v.source, v.urls⟩

def key (m : Message) : MessageKey := (m.ident, m.kind, m.engine)

end Message

/-- Messages in the order in which their keys came first. -/
structure Log extends Keyed Message.key
deriving DecidableEq, Repr

namespace Log

instance : EmptyCollection Log := ⟨⟨{}⟩⟩

instance : Inhabited Log := ⟨{}⟩

def push (log : Log) (m : Message) : Log := ⟨log.toKeyed.push m⟩

/-- Pushes the messages of another log, in their order. -/
def extend (log other : Log) : Log := other.entries.foldl push log

def ofList (ms : List Message) : Log := ms.foldl push {}

def ofKind (log : Log) (kind : MessageKind) : List Message := log.entries.filter (·.kind == kind)

end Log

end ThemeVars
