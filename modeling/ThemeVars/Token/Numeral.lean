/-
A number as it is written: sign, digits, fraction and exponent. Its value is
computed only where it is shown, in double precision digit by digit, so that
the last places are those that this sum of tenths gives.
-/

namespace ThemeVars

/-- The parts of a written number; `exponent` holds its mark and sign too. -/
structure Numeral where
  sign : List Char
  whole : List Char
  fraction : List Char
  exponent : List Char
deriving DecidableEq, Repr, Inhabited

namespace Numeral

/-- The number as written. -/
def text (n : Numeral) : List Char :=
  n.sign ++ n.whole ++ (if n.fraction.isEmpty then [] else '.' :: n.fraction) ++ n.exponent

/-- Digits after a point, if a digit follows it. -/
def fractionOf : List Char → List Char
  | '.' :: rest => rest.takeWhile Char.isDigit
  | _ => []

/-- The exponent that starts here, if a digit follows its mark and sign. -/
def exponentOf : List Char → List Char
  | e :: rest =>
    if e == 'e' || e == 'E' then
      match rest with
      | d :: ds =>
        if d.isDigit then e :: (d :: ds).takeWhile Char.isDigit
        else if (d == '+' || d == '-') && ds.head?.any Char.isDigit then
          e :: d :: ds.takeWhile Char.isDigit
        else []
      | [] => []
    else []
  | [] => []

def signOf : List Char → List Char
  | c :: _ => if c == '+' || c == '-' then [c] else []
  | [] => []

/-- The longest number at the front of a text. -/
def read (s : List Char) : Numeral :=
  let sign := signOf s
  let s := s.drop sign.length
  let whole := s.takeWhile Char.isDigit
  let s := s.dropWhile Char.isDigit
  let fraction := fractionOf s
  let s := if fraction.isEmpty then s else s.drop (fraction.length + 1)
  ⟨sign, whole, fraction, exponentOf s⟩

/-- A number starts here: a digit, or a point before a digit, after an
optional sign. -/
def startsAt (s : List Char) : Bool :=
  match s.drop (signOf s).length with
  | c :: rest => c.isDigit || (c == '.' && rest.head?.any Char.isDigit)
  | [] => false

def digitValue (c : Char) : Nat := c.toNat - 48

/-- The number that decimal digits write. -/
def natOf (digits : List Char) : Nat := digits.foldl (fun n c => 10 * n + digitValue c) 0

def hasSign (n : Numeral) : Bool := !n.sign.isEmpty

def isNegative (n : Numeral) : Bool := n.sign == ['-']

/-- The value as an integer of 32 bits, the nearest if there is none, where
the number has neither fraction nor exponent. -/
def integer? (n : Numeral) : Option Int :=
  if n.fraction.isEmpty && n.exponent.isEmpty then
    let value := Int.ofNat (natOf n.whole)
    let value := if n.isNegative then -value else value
    .some (max (-2147483648) (min 2147483647 value))
  else .none

/-- The digits as a whole number in double precision. -/
def floatOf (digits : List Char) : Float :=
  digits.foldl (fun x c => x * 10 + Float.ofNat (digitValue c)) 0

/-- The digits as a sum of tenths, hundredths and so on. -/
def tenths (digits : List Char) : Float :=
  (digits.foldl (fun (s : Float × Float) c => (s.1 + Float.ofNat (digitValue c) * s.2, s.2 * 0.1)) (0, 0.1)).1

/-- The value in double precision. -/
def value (n : Numeral) : Float :=
  let one : Float := if n.isNegative then -1 else 1
  let x := one * (floatOf n.whole + tenths n.fraction)
  match n.exponent with
  | [] => x
  | _ :: rest =>
    let sign := signOf rest
    let power := floatOf (rest.drop sign.length)
    x * Float.pow 10 (if sign == ['-'] then -power else power)

end Numeral

end ThemeVars
