/-! Double-precision numbers as exact integers. A finite double is a sign and a magnitude
`mantissa * 2 ^ exponent` with natural mantissa, and every positive fraction has a nearest double.
Both directions are integer arithmetic on the bit pattern, so nothing rounds by accident. -/

namespace Lox.Number

/-- The number of bits that hold the fraction of a double. -/
def fractionBits : Nat := 52

/-- The leading bit of a normal double's mantissa, which its bit pattern leaves out. -/
def hiddenBit : Nat := Nat.pow 2 fractionBits

/-- The exponent of the least place of a subnormal double. -/
def leastExponent : Int := -1074

/-- A magnitude `mantissa * 2 ^ exponent`. -/
structure Magnitude where
  /-- The integer that is scaled. -/
  mantissa : Nat
  /-- The power of two that scales it. -/
  exponent : Int
  deriving DecidableEq, Repr

/-- The sign bit, set for negative numbers and for the negative zero. -/
def isNegative (x : Float) : Bool := x.toBits.toNat / Nat.pow 2 63 == 1

/-- The magnitude of a finite double. A subnormal number has no hidden bit and the least exponent;
any other has the hidden bit in its mantissa. -/
def magnitude (x : Float) : Magnitude :=
  let bits := x.toBits.toNat
  let field := bits / hiddenBit % Nat.pow 2 11
  let fraction := bits % hiddenBit
  if field = 0 then ⟨fraction, leastExponent⟩
  else ⟨hiddenBit + fraction, leastExponent + (field - 1 : Nat)⟩

/-- The quotient of two naturals rounded to the nearest natural, a half going to the even one. -/
def divideToEven (numerator denominator : Nat) : Nat :=
  let quotient := numerator / denominator
  let twice := 2 * (numerator % denominator)
  if denominator < twice || (denominator == twice && quotient % 2 == 1) then quotient + 1
  else quotient

/-- The fraction `numerator / denominator` scaled by `2 ^ (-exponent)`, as a pair. -/
def scaleDown (numerator denominator : Nat) (exponent : Int) : Nat × Nat :=
  if exponent < 0 then (numerator * Nat.pow 2 exponent.natAbs, denominator)
  else (numerator, denominator * Nat.pow 2 exponent.natAbs)

/-- The exponent at which `numerator / denominator` has a 53-bit integer part, or the least
exponent if that one would be smaller. The difference of the bit lengths is right up to one. -/
def exponentOf (numerator denominator : Nat) : Int :=
  let guess : Int := numerator.log2 - denominator.log2 - fractionBits
  let (scaled, unit) := scaleDown numerator denominator guess
  let exact := if scaled / unit < hiddenBit then guess - 1 else guess
  max exact leastExponent

/-- The bit pattern of the double nearest to `numerator / denominator`, a half going to the even
neighbour. A carry out of the mantissa moves into the exponent field by itself, and what is past
the largest double becomes infinity. -/
def nearestBits (numerator denominator : Nat) : Nat :=
  if numerator = 0 then 0
  else
    let exponent := exponentOf numerator denominator
    let (scaled, unit) := scaleDown numerator denominator exponent
    let rounded := divideToEven scaled unit
    let bits :=
      if rounded < hiddenBit then rounded
      else (exponent - leastExponent).toNat * hiddenBit + rounded
    min bits (2047 * hiddenBit)

/-- The double nearest to `numerator / denominator`. -/
def nearest (numerator denominator : Nat) : Float :=
  Float.ofBits (nearestBits numerator denominator).toUInt64

end Lox.Number
