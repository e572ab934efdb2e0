/-
A text or a character between quotes, as error messages show it: what has no
shape of its own is written by its code point.
-/
import ThemeVars.Text.Printable

namespace ThemeVars.Text

/-- The code point in hexadecimal digits, without leading zeros. -/
def hexDigits (n : Nat) : List Char := Nat.toDigits 16 n

/-- One character of a text between quotes `quote`. -/
def quotedChar (quote c : Char) : List Char :=
  if c == '\x00' then ['\\', '0']
  else if c == '\t' then ['\\', 't']
  else if c == '\r' then ['\\', 'r']
  else if c == '\n' then ['\\', 'n']
  else if c == '\\' || c == quote then ['\\', c]
  else if isPrintable c then [c]
  else ['\\', 'u', '\x7b'] ++ hexDigits c.toNat ++ ['\x7d']

/-- The text between double quotes. -/
def quoted (s : String) : String :=
  String.ofList (['"'] ++ s.toList.flatMap (quotedChar '"') ++ ['"'])

/-- The character between single quotes. -/
def quotedOne (c : Char) : String := String.ofList (['\''] ++ quotedChar '\'' c ++ ['\''])

end ThemeVars.Text
