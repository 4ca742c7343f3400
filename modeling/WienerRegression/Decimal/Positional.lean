import WienerRegression.Decimal.Shortest

/-!
# Positional notation

A floating-point number is written with its shortest decimal digits in positional notation, however
large or small it is. A `NumberFormat` fixes the rest: the texts of the special values, and which of
two equally near decimals is written.
-/

namespace WienerRegression.Decimal

/-- The choices that positional notation leaves open. -/
structure NumberFormat where
  /-- The text of every value that is not a number. -/
  notANumber : String
  /-- The text of infinity, after its sign. -/
  infinite : String
  /-- The sign of negative numbers, zero included. -/
  minus : String
  /-- The mark before the fraction. -/
  point : String
  /-- Whether the larger of two equally near decimals is written. -/
  tieUp : Bool

/-- Text made of a repeated zero. -/
def zeros (count : Nat) : String :=
  String.ofList (List.replicate count '0')

/-- Drop the zeros at the end of the digits of a fraction. -/
def dropZeros (digits : List Char) : List Char :=
  (digits.reverse.dropWhile (· == '0')).reverse

/-- A decimal in positional notation. A fraction has no zeros at its end, and a whole number has no
point. -/
def positional (format : NumberFormat) (decimal : Decimal) : String :=
  if 0 ≤ decimal.exponent then
    toString decimal.digits ++ zeros decimal.exponent.toNat
  else
    let places := (-decimal.exponent).toNat
    let digits := (toString decimal.digits).toList
    let padded := List.replicate (places + 1 - digits.length) '0' ++ digits
    let whole := String.ofList (padded.take (padded.length - places))
    let fraction := dropZeros (padded.drop (padded.length - places))
    if fraction.isEmpty then whole else whole ++ format.point ++ String.ofList fraction

/-- A 64-bit floating-point number in positional notation. Of its bits, the first is the sign, the
next eleven are the exponent, and the rest are the mantissa. -/
def text (format : NumberFormat) (number : Float) : String :=
  let bits := number.toBits.toNat
  let fraction := bits % 4503599627370496
  let exponent := bits / 4503599627370496 % 2048
  let sign := if bits < 9223372036854775808 then "" else format.minus
  if exponent = 2047 then
    if fraction = 0 then sign ++ format.infinite else format.notANumber
  else if exponent = 0 ∧ fraction = 0 then
    sign ++ "0"
  else
    let interval :=
      if exponent = 0 then RoundingInterval.ofBinary fraction (-1074) false
      else RoundingInterval.ofBinary (4503599627370496 + fraction) ((exponent : Int) - 1075)
        (fraction == 0 && 1 < exponent)
    match interval.shortest? format.tieUp with
    | some decimal => sign ++ positional format decimal
    | none => format.notANumber

end WienerRegression.Decimal
