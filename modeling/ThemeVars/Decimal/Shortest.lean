/-
The shortest decimal that reads back as a given binary fraction, in exact
arithmetic: of the grids of decimal places, from coarse to fine, the first
that has a point within half a unit in the last place, and of two such points
the nearer.
-/

namespace ThemeVars

/-- The number `digits * 10 ^ exponent`. -/
structure Decimal where
  digits : Nat
  exponent : Int
deriving DecidableEq, Repr

namespace Decimal

/-- The positive number `mantissa * 2 ^ exponent` of a format with that step;
where it is `narrow`, the next number below is only half a step away. -/
structure Binary where
  mantissa : Nat
  exponent : Int
  narrow : Bool
deriving DecidableEq, Repr

/-- The point of the grid of multiples of `10 ^ place` that is nearest to `x`,
of two equally near the larger, if a number read from it is rounded to `x`. -/
def Binary.onGrid? (x : Binary) (place : Int) : Option Nat :=
  -- everything in quarters of the last place, over a common denominator
  let scale := Nat.pow 2 (x.exponent - 2).toNat * Nat.pow 10 (-place).toNat
  let grid := Nat.pow 2 (2 - x.exponent).toNat * Nat.pow 10 place.toNat
  let value := 4 * x.mantissa * scale
  let low := (4 * x.mantissa - (if x.narrow then 1 else 2)) * scale
  let high := (4 * x.mantissa + 2) * scale
  let inside (point : Nat) : Bool :=
    if x.mantissa % 2 == 0 then low ≤ point * grid && point * grid ≤ high
    else low < point * grid && point * grid < high
  let below := value / grid
  let above := below + 1
  if inside below then
    if inside above && decide (above * grid - value ≤ value - below * grid) then .some above
    else .some below
  else if inside above then .some above
  else .none

/-- Searches the grids from `place` down, `count` of them. -/
def Binary.shortestFrom (x : Binary) (place : Int) : Nat → Decimal
  | 0 => ⟨0, 0⟩
  | count + 1 =>
    match x.onGrid? place with
    | .some digits => ⟨digits, place⟩
    | .none => x.shortestFrom (place - 1) count

/-- The shortest decimal that is read back as `x`. Ninety grids reach from
above the largest number of 32 bits to below half the smallest. -/
def Binary.shortest (x : Binary) : Decimal := x.shortestFrom 40 90

/-- What the bits of a number of 32 bits stand for. -/
inductive Bits where
  | notANumber
  | infinite (negative : Bool)
  | zero (negative : Bool)
  | finite (negative : Bool) (x : Binary)
deriving DecidableEq, Repr

def Bits.ofWord (word : UInt32) : Bits :=
  let n := word.toNat
  let implicit := Nat.pow 2 23
  let negative := n / Nat.pow 2 31 == 1
  let power := n / implicit % 256
  let fraction := n % implicit
  if power == 255 then (if fraction == 0 then .infinite negative else .notANumber)
  else if power == 0 then
    (if fraction == 0 then .zero negative else .finite negative ⟨fraction, -149, false⟩)
  else .finite negative ⟨implicit + fraction, Int.ofNat power - 150, fraction == 0 && power != 1⟩

end Decimal

end ThemeVars
