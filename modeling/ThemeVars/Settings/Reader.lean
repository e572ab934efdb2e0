/-
Settings from data. Unknown keys are passed over; a setting may be given only
once. In JSON, a list may give the settings in their order.
-/
import ThemeVars.Settings.Basic
import ThemeVars.Data.Json
import ThemeVars.Data.Yaml
import ThemeVars.Error

namespace ThemeVars.Settings

def dialectOf? (word : String) : Option Dialect :=
  [Dialect.css, .scss, .less, .stylus].find? (·.name == word)

def identModeOf? (word : String) : Option IdentMode :=
  if word == "debug" then .some .debug else if word == "production" then .some .production else .none

/-- A setting: its key, and the settings with it. -/
structure Field where
  key : String
  put? : Settings → Datum → Option Settings

/-- All settings in their order. -/
def fields : List Field :=
  [⟨"dialect", fun s d => (d.asWord?.bind dialectOf?).map fun dialect => { s with dialect }⟩,
   ⟨"identMode", fun s d => (d.asWord?.bind identModeOf?).map fun identMode => { s with identMode }⟩,
   ⟨"onlyColor", fun s d => d.asBool?.map fun onlyColor => { s with onlyColor }⟩,
   ⟨"themeFiles", fun s d => do
      let items ← d.asList?
      let files ← items.mapM Datum.asText?
      return { s with themeFiles := files.map Path.mk }⟩,
   ⟨"themeAttribute", fun s d => d.asText?.map fun themeAttribute => { s with themeAttribute }⟩,
   ⟨"rootSelector", fun s d => d.asText?.map fun rootSelector => { s with rootSelector }⟩,
   ⟨"documentTheme", fun s d => d.asBool?.map fun documentTheme => { s with documentTheme }⟩,
   ⟨"engineIdentity", fun s d => d.asText?.map fun engineIdentity => { s with engineIdentity }⟩]

/-- The settings with the entries of a map; `seen` are the keys given so far. -/
def ofEntries? (s : Settings) (seen : List String) : List (Datum × Datum) → Option Settings
  | [] => .some s
  | (key, d) :: rest => do
    let key ← key.asText?
    match fields.find? (·.key == key) with
    | .none => ofEntries? s seen rest
    | .some field =>
      if seen.contains key then .none
      else
        let s ← field.put? s d
        ofEntries? s (key :: seen) rest

/-- The settings with the items of a list, one for each field. -/
def ofItems? (s : Settings) : List Field → List Datum → Option Settings
  | _, [] => .some s
  | [], _ :: _ => .none
  | field :: fields, d :: rest => do
    let s ← field.put? s d
    ofItems? s fields rest

/-- Settings from a map, or from nothing at all. -/
def ofDatum? : Datum → Option Settings
  | .map entries => ofEntries? {} [] entries
  | .plain s => if s.isEmpty then .some {} else .none
  | .tagged _ d => ofDatum? d
  | _ => .none

def orFault (x : Option Settings) : Except Error Settings :=
  match x with
  | .some s => .ok s
  | .none => .error (.settings .unreadableText)

/-- Settings from JSON, where a list is read as well. -/
def ofJson (text : String) : Except Error Settings :=
  orFault <| (Json.read? text).bind fun
    | .list items => ofItems? {} fields items
    | d => ofDatum? d

/-- Settings from YAML, where a list is refused. -/
def ofYaml (text : String) : Except Error Settings := orFault ((Yaml.read? text).bind ofDatum?)

/-- Settings from the text of a file, which is JSON if its name says so. -/
def ofFile (file : Path) (text : String) : Except Error Settings :=
  if file.extension?.any (·.lowered == "json") then ofJson text else ofYaml text

end ThemeVars.Settings
