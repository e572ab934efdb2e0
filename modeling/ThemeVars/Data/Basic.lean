/-
Data as configuration files write it: scalars, lists and maps, the entries of
a map in the order of the text.
-/

namespace ThemeVars

inductive Datum where
  | null
  | bool (b : Bool)
  | number
  | text (s : String)
  /-- A scalar without quotes, whose kind depends on what is asked for. -/
  | plain (s : String)
  /-- What nothing can be read from, such as a text with half of a surrogate pair. -/
  | broken
  /-- A datum whose kind the text names. -/
  | tagged (tag : String) (d : Datum)
  | list (items : List Datum)
  | map (entries : List (Datum × Datum))
deriving Repr, Inhabited

namespace Datum

/-- A text, or any scalar without quotes. -/
def asText? : Datum → Option String
  | .text s => .some s
  | .plain s => .some s
  | .tagged _ d => d.asText?
  | _ => .none

def asBool? : Datum → Option Bool
  | .bool b => .some b
  | .plain s =>
    if ["true", "True", "TRUE"].contains s then .some true
    else if ["false", "False", "FALSE"].contains s then .some false
    else .none
  | .tagged _ d => d.asBool?
  | _ => .none

/-- A list; where nothing is written it is empty. -/
def asList? : Datum → Option (List Datum)
  | .list items => .some items
  | .plain s => if s.isEmpty then .some [] else .none
  | .tagged _ d => d.asList?
  | _ => .none

/-- The scalar stands for nothing. -/
def isNothing : Datum → Bool
  | .plain s => ["", "~", "null", "Null", "NULL"].contains s
  | _ => false

/-- A word of a fixed vocabulary: a text, a map from it to null, or a tag with
nothing after it. A tag of this kind begins with an exclamation mark. -/
def asWord? : Datum → Option String
  | .map [(.text s, .null)] => .some s
  | .tagged tag d =>
    match tag.toList with
    | '!' :: word => if d.isNothing then .some (.ofList word) else .none
    | _ => d.asText?
  | d => d.asText?

end Datum

end ThemeVars
