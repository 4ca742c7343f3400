import WienerRegression.BitDepth

/-!
# The range of the statistics

No entry of the statistics of a unit exceeds the number of its pixels times the square of the
largest sample value, divided like the statistics. The number of pixels is an unsigned 64-bit word
that the computation of the bound reads as a signed one, and the comparison reads the bound back as
an unsigned one.
-/

namespace WienerRegression.BitDepth

/-- The largest magnitude of an entry of the statistics of a unit with so many pixels. -/
def magnitudeBound (depth : BitDepth) (pixelCount : Nat) : Int :=
  ((Int64.ofNat pixelCount).toInt * depth.maxValue * depth.maxValue).tdiv depth.divisor

/-- Whether the magnitudes of all values are within the bound. -/
def withinMagnitudeBound (depth : BitDepth) (pixelCount : Nat) (values : List Int) : Bool :=
  let bound := (Int64.ofInt (depth.magnitudeBound pixelCount)).toUInt64.toNat
  values.all fun value ↦ value.natAbs ≤ bound

end WienerRegression.BitDepth
