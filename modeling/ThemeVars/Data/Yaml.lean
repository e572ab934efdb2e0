/-
Data in YAML. A text holds one document at most, and nothing else.
-/
import ThemeVars.Data.Yaml.Document

namespace ThemeVars.Yaml

/-- May stand in a text: what can be printed, tabs and line ends. -/
def isAllowed (c : Char) : Bool :=
  let n := c.toNat
  c == '\t' || c == '\n' || c == '\r' || (0x20 ≤ n && n ≤ 0x7e) || n == 0x85 ||
    (0xa0 ≤ n && n ≤ 0xfffd) || 0x10000 ≤ n

/-- Reads a text that holds one document. Nothing at all is an empty scalar. -/
def read? (text : String) : Option Datum :=
  let s := text.toList
  if s.all isAllowed then (Token.scan? (withLineFeeds false s)).bind document? else .none

end ThemeVars.Yaml
