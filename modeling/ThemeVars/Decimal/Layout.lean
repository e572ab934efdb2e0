/-
How a number is written: which powers of ten are written out in places, and
what surrounds the digits.
-/
import ThemeVars.Decimal.Shortest

namespace ThemeVars.Decimal

/-- The choices that fix the text of a number. -/
structure Layout where
  /-- The least power of ten of the first digit that is written in places. -/
  lowest : Int
  /-- The least power of ten above it that is written with an exponent. -/
  limit : Int
  /-- The mark between digits and exponent. -/
  mark : String
  notANumber : String
  infinite : String

/-- Numbers from a ten-thousandth to below ten to the sixteenth are written in
places, with one place at least after the point. -/
def plain : Layout := ⟨-4, 16, "e", "NaN", "inf"⟩

/-- The digits in places, at least one of them after the point: `point` is the
number of digits before the point. -/
def inPlaces (digits : List Char) (point : Int) : List Char :=
  if point ≤ 0 then ['0', '.'] ++ List.replicate (-point).toNat '0' ++ digits
  else
    let count := point.toNat
    let whole := digits.take count ++ List.replicate (count - digits.length) '0'
    let fraction := digits.drop count
    whole ++ ['.'] ++ (if fraction.isEmpty then ['0'] else fraction)

/-- The digits with an exponent: one digit before the point, and no point when
there is none after it. -/
def withExponent (layout : Layout) (digits : List Char) (power : Int) : List Char :=
  let tail := layout.mark.toList ++ (toString power).toList
  match digits with
  | [] => tail
  | [d] => d :: tail
  | d :: ds => d :: '.' :: ds ++ tail

def Layout.positive (layout : Layout) (x : Decimal) : String :=
  let digits := Nat.toDigits 10 x.digits
  let power := x.exponent + digits.length - 1
  String.ofList <|
    if layout.lowest ≤ power && power < layout.limit then inPlaces digits (power + 1)
    else withExponent layout digits power

/-- The text of a number of 32 bits. -/
def Layout.render (layout : Layout) (bits : Bits) : String :=
  let signed (negative : Bool) (s : String) : String := if negative then "-" ++ s else s
  match bits with
  | .notANumber => layout.notANumber
  | .infinite negative => signed negative layout.infinite
  | .zero negative => signed negative "0.0"
  | .finite negative x => signed negative (layout.positive x.shortest)

end ThemeVars.Decimal
