import Lox.Number.Shortest

/-! How numbers are written and read. A number is written in positional notation without an
exponent, with the fewest digits that read back; an integral number shows no point. A literal is a
run of digits, possibly with a point and a second run, and denotes the nearest double. -/

namespace Lox.Number

/-- The decimal digits of a natural. -/
def digitsOf (n : Nat) : List Char := Nat.toDigits 10 n

/-- A decimal in positional notation: zeros are filled in up to the point on either side. -/
def positional (d : Decimal) : String :=
  let digits := digitsOf d.digits
  if 0 ≤ d.exponent then String.ofList (digits ++ List.replicate d.exponent.natAbs '0')
  else
    let places := d.exponent.natAbs
    let padded := List.replicate (places + 1 - digits.length) '0' ++ digits
    let whole := padded.length - places
    String.ofList (padded.take whole ++ '.' :: padded.drop whole)

/-- The text of a number. Zero keeps its sign. -/
def toText (x : Float) : String :=
  if x.isNaN then "nan"
  else
    let sign := if isNegative x then "-" else ""
    if x.isInf then sign ++ "inf" else sign ++ positional (shortest (magnitude x))

/-- Whether a character is one of the ten digits that numbers are written with. -/
def isDigit (c : Char) : Bool := '0' ≤ c && c ≤ '9'

/-- The value of a run of digits, continuing from `value`. -/
def digitsValue (value : Nat) (digits : List Char) : Nat :=
  digits.foldl (fun n c => 10 * n + (c.toNat - '0'.toNat)) value

/-- The number that a literal denotes: the nearest double to digits, or to digits, a point and
digits; `none` for any other text. -/
def ofLiteral? (literal : List Char) : Option Float :=
  let (whole, rest) := literal.span isDigit
  match whole, rest with
  | [], _ => none
  | whole, [] => some (nearest (digitsValue 0 whole) 1)
  | whole, '.' :: places =>
    if places.isEmpty || !places.all isDigit then none
    else some (nearest (digitsValue (digitsValue 0 whole) places) (Nat.pow 10 places.length))
  | _, _ => none

end Lox.Number
