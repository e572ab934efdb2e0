/-
Messages as data. A message without resources does not mention them.
-/
import ThemeVars.Message
import ThemeVars.Data.Json

namespace ThemeVars

namespace Message

def urlsDatum (urls : RelativeUrls) : Datum :=
  .map [(.text "originFile", .text urls.origin.text),
    (.text "relativePaths", .list (urls.paths.map Datum.text))]

def datum (m : Message) : Datum :=
  .map ([(.text "ident", .text m.ident.text), (.text "kind", .text m.kind.name), (.text "engine", .text m.engine),
      (.text "originalName", .text m.name), (.text "value", .text m.value),
      (.text "sourceFile", match m.source with | .some path => .text path.text | .none => .null)] ++
    m.urls.toList.map fun urls => (.text "urls", urlsDatum urls))

end Message

/-- The messages as a JSON text. -/
def Log.toJson (log : Log) : String := Json.pretty 0 (.list (log.entries.map Message.datum))

end ThemeVars
