import Lox.Number.Binary

/-! The fewest decimal digits that read back as a given double. The reals that round to a double
form an interval around it, whose ends belong to it exactly when the mantissa is even. On the grid
of decimals with a given number of digits only the two neighbours of the value need a look: if any
point of the grid lies in the interval, one of these does. The first grid with a hit wins, and of
two hits the nearer one, the upper one if they are equally near. -/

namespace Lox.Number

/-- A decimal magnitude `digits * 10 ^ exponent`. -/
structure Decimal where
  /-- The digits as one natural. -/
  digits : Nat
  /-- The power of ten that scales them. -/
  exponent : Int
  deriving DecidableEq, Repr

/-- The numbers that read as a given double, over a common unit: all of them are fractions with
denominator `unit`. -/
structure Interval where
  /-- The least number that may still round to the double. -/
  low : Nat
  /-- The double itself. -/
  middle : Nat
  /-- The greatest number that may still round to the double. -/
  high : Nat
  /-- The denominator of the three. -/
  unit : Nat
  /-- Whether the two ends round to the double. -/
  closed : Bool
  deriving Repr

/-- The interval of a magnitude. Quarter steps make both half gaps integral; below a power of two
the gap is only half as wide, unless the power is the least normal one. -/
def Interval.of (m : Magnitude) : Interval :=
  let gap := if m.mantissa = hiddenBit ∧ m.exponent ≠ leastExponent then 1 else 2
  let exponent := m.exponent - 2
  let factor := if exponent < 0 then 1 else Nat.pow 2 exponent.natAbs
  { low := (4 * m.mantissa - gap) * factor
    middle := 4 * m.mantissa * factor
    high := (4 * m.mantissa + 2) * factor
    unit := if exponent < 0 then Nat.pow 2 exponent.natAbs else 1
    closed := m.mantissa % 2 == 0 }

/-- The interval with all its numbers divided by `10 ^ exponent`. -/
def Interval.scaleDown (r : Interval) (exponent : Int) : Interval :=
  let power := Nat.pow 10 exponent.natAbs
  if exponent < 0 then
    { r with low := r.low * power, middle := r.middle * power, high := r.high * power }
  else { r with unit := r.unit * power }

/-- Whether the natural `n` lies in the interval. -/
def Interval.contains (r : Interval) (n : Nat) : Bool :=
  let point := n * r.unit
  if r.closed then r.low ≤ point && point ≤ r.high else r.low < point && point < r.high

/-- The natural in the interval that is nearest to its middle among the two neighbours of the
middle, if one of these is in it. -/
def Interval.neighbour? (r : Interval) : Option Nat :=
  let below := r.middle / r.unit
  let twice := 2 * (r.middle % r.unit)
  match r.contains below, r.contains (below + 1) with
  | true, true => some (if twice < r.unit then below else below + 1)
  | true, false => some below
  | false, true => some (below + 1)
  | false, false => none

/-- The position of the leading digit of `middle / unit`, so that the number lies between
`10 ^ position` and `10 ^ (position + 1)`: the count of digits of the integer part if there is one,
and otherwise the first power of ten that brings one about. -/
def Interval.leading (r : Interval) : Int :=
  let whole := r.middle / r.unit
  if whole = 0 then
    let guess := (r.unit.log2 - r.middle.log2) * 30103 / 100000
    if Nat.pow 10 guess * r.middle < r.unit then -(guess + 1 : Nat) else -guess
  else (Nat.toDigits 10 whole).length - 1

/-- Looks for a decimal in the interval on ever finer grids, `places` of them, starting with the
grid `10 ^ exponent`. -/
def Interval.shortest (r : Interval) : Nat → Int → Option Decimal
  | 0, _ => none
  | places + 1, exponent =>
    match (r.scaleDown exponent).neighbour? with
    | some digits => some ⟨digits, exponent⟩
    | none => r.shortest places (exponent - 1)

/-- Seventeen significant digits tell any two doubles apart. One more grid lies above the leading
digit, where a value just below a power of ten meets that power. -/
def gridCount : Nat := 18

/-- The shortest decimal that reads back as the magnitude. -/
def shortest (m : Magnitude) : Decimal :=
  if m.mantissa = 0 then ⟨0, 0⟩
  else
    let r := Interval.of m
    (r.shortest gridCount (r.leading + 1)).getD ⟨m.mantissa, 0⟩

end Lox.Number
