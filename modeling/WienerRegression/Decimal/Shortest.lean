/-!
# Shortest decimals

Every real in an interval around a binary floating-point number rounds to that number. The
shortest decimal of the number is a decimal in the interval with as few digits as possible, and
of those the nearest to the number. All arithmetic is exact: the interval is given by the
numerators of its ends and of the number over one denominator.
-/

namespace WienerRegression

/-- The number `digits * 10 ^ exponent`. -/
structure Decimal where
  digits : Nat
  exponent : Int
  deriving DecidableEq

namespace Decimal

/-- A positive number and the ends of the interval of reals that round to it, as numerators over
one denominator. -/
structure RoundingInterval where
  low : Nat
  value : Nat
  high : Nat
  denominator : Nat
  /-- Whether the ends round to the number too. -/
  closed : Bool

namespace RoundingInterval

/-- The interval of the number `mantissa * 2 ^ exponent`. The gap below the number is half as wide
as the one above it where the exponent changes. -/
def ofBinary (mantissa : Nat) (exponent : Int) (narrowBelow : Bool) : RoundingInterval :=
  let up := 1 <<< (exponent - 2).toNat
  { low := (4 * mantissa - if narrowBelow then 1 else 2) * up
    value := 4 * mantissa * up
    high := (4 * mantissa + 2) * up
    denominator := 1 <<< (2 - exponent).toNat
    closed := mantissa % 2 == 0 }

/-- The interval in units of `10 ^ exponent`. -/
def inUnits (interval : RoundingInterval) (exponent : Int) : RoundingInterval :=
  let shrink := Nat.pow 10 exponent.toNat
  let grow := Nat.pow 10 (-exponent).toNat
  { interval with
    low := interval.low * grow
    value := interval.value * grow
    high := interval.high * grow
    denominator := interval.denominator * shrink }

/-- Whether a whole number lies in the interval. -/
def holds (interval : RoundingInterval) (number : Nat) : Bool :=
  let scaled := number * interval.denominator
  if interval.closed then interval.low ≤ scaled && scaled ≤ interval.high
  else interval.low < scaled && scaled < interval.high

/-- The whole number in the interval that is nearest to its value, if there is one. Of two at the
same distance, `tieUp` says which. -/
def nearest? (interval : RoundingInterval) (tieUp : Bool) : Option Nat :=
  let below := interval.value / interval.denominator
  let rest := interval.value % interval.denominator
  let above := below + 1
  match interval.holds below, interval.holds above with
  | false, false => none
  | true, false => some below
  | false, true => some above
  | true, true =>
      if 2 * rest < interval.denominator then some below
      else if interval.denominator < 2 * rest then some above
      else some (if tieUp then above else below)

/-- The number of digits before the point, or minus the number of zeros after it. -/
def order (interval : RoundingInterval) : Int :=
  if interval.denominator ≤ interval.value then
    ((Nat.toDigits 10 (interval.value / interval.denominator)).length : Int)
  else
    1 - ((Nat.toDigits 10 (interval.denominator / interval.value)).length : Int)

/-- The first decimal in the interval among those with `used + 1` digits, `used + 2` digits and so
on, for at most `tries` lengths. -/
def search? (interval : RoundingInterval) (tieUp : Bool) : Nat → Nat → Option Decimal
  | 0, _ => none
  | tries + 1, used =>
      let exponent := interval.order - (used + 1)
      match (interval.inUnits exponent).nearest? tieUp with
      | some digits => some ⟨digits, exponent⟩
      | none => search? interval tieUp tries (used + 1)

/-- The shortest decimal in the interval. Seventeen digits tell any two 64-bit floating-point
numbers apart. -/
def shortest? (interval : RoundingInterval) (tieUp : Bool) : Option Decimal :=
  interval.search? tieUp 17 0

end RoundingInterval

end Decimal

end WienerRegression
