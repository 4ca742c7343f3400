import WienerRegression.BitDepth
import WienerRegression.Entries
import WienerRegression.Observation
import WienerRegression.Statistics

/-!
# The specialized method

The specialized method adds up raw sample products, two pixels at a time, in the row accumulator.
The sums of a row are weighted and folded into running totals. The totals are centred once at the
end, which is right because the weights of the rows add up to the height of the unit:

* `M t = (raw M t + n * avg ^ 2 - avg * (sum of X + sum of Y t)) / div`
* `H s t = (raw H s t + n * avg ^ 2 - avg * (sum of Y s + sum of Y t)) / div`
-/

namespace WienerRegression

/-- The raw sums over some pixels: of the source samples, of the samples at each tap, and of the
products that the statistics are made of. -/
structure StagedSums (window : Window) where
  source : Int
  taps : Vector Int window.taps
  cross : Vector Int window.taps
  auto : Vector Int (window.taps * window.taps)

namespace StagedSums

variable {width : SampleWidth} {window : Window}

/-- The sums over no pixels. -/
def zero (window : Window) : StagedSums window where
  source := 0
  taps := Vector.replicate _ 0
  cross := Vector.replicate _ 0
  auto := Vector.replicate _ 0

/-- Add a term to a total in the row accumulator. -/
@[inline] def stage (width : SampleWidth) (total : Int) (term : Nat) : Int :=
  width.stage (total + width.stage term)

/-- Add the products of one tap with every tap to the staged sums. -/
@[inline] def stageTapPairs (addUp : (Observation width window → Nat) → Nat)
    (first : Fin window.taps) (auto : Vector Int (window.taps * window.taps)) :
    Vector Int (window.taps * window.taps) :=
  Fin.foldl window.taps (fun auto second ↦
    Entries.update auto (RowMajor.index first second) (stage width ·
      (addUp fun pixel ↦ Sample.product (pixel.tap first) (pixel.tap second)))) auto

/-- Add the terms of one step along a row to the staged sums of the row. A step takes one pixel or
two, and `addUp` adds up a quantity over the pixels of the step. -/
@[inline] def stageStep (addUp : (Observation width window → Nat) → Nat) :
    StagedSums window → StagedSums window
  | ⟨source, taps, cross, auto⟩ =>
      Fin.foldl window.taps (fun ⟨source, taps, cross, auto⟩ tap ↦
        { source := source
          taps := Entries.update taps tap (stage width ·
            (addUp fun pixel ↦ (pixel.tap tap).val))
          cross := Entries.update cross tap (stage width ·
            (addUp fun pixel ↦ Sample.product (pixel.tap tap) pixel.source))
          auto := stageTapPairs addUp tap auto })
        ⟨stage width source (addUp fun pixel ↦ pixel.source.val), taps, cross, auto⟩

/-- Add the terms of the pixels of a row to its staged sums, two pixels at a time, then those of a
last pixel that has no partner. -/
def stagePixels : List (Observation width window) → StagedSums window → StagedSums window
  | first :: second :: rest, staged =>
      stagePixels rest (stageStep (fun quantity ↦ quantity first + quantity second) staged)
  | [last], staged => stageStep (fun quantity ↦ quantity last) staged
  | [], staged => staged

/-- The sums over the pixels of one row. -/
def ofRow (pixels : List (Observation width window)) : StagedSums window :=
  stagePixels pixels (zero window)

/-- Fold the sums of a row into the totals, each times the weight of the row. -/
def addWeighted (totals row : StagedSums window) (weight : Int) : StagedSums window where
  source := totals.source + row.source * weight
  taps := totals.taps.zipWith (fun total staged ↦ total + staged * weight) row.taps
  cross := totals.cross.zipWith (fun total staged ↦ total + staged * weight) row.cross
  auto := totals.auto.zipWith (fun total staged ↦ total + staged * weight) row.auto

/-- The weighted sums over all rows. -/
def ofRows (rows : List (WeightedRow width window)) : StagedSums window :=
  rows.foldl (fun totals row ↦ totals.addWeighted (ofRow row.pixels) row.weight) (zero window)

/-- Centre a sum of products around an average. The sums of the two factors are given. -/
def centre (average pixelCount products firstSum secondSum : Int) : Int :=
  products + average * average * pixelCount - average * (firstSum + secondSum)

/-- The statistics that the totals of a unit of `pixelCount` pixels give around an average. -/
def statistics (totals : StagedSums window) (depth : BitDepth) (average pixelCount : Int) :
    Statistics window where
  cross := Vector.ofFn fun tap ↦
    (centre average pixelCount (totals.cross.get tap) totals.source
      (totals.taps.get tap)).tdiv depth.divisor
  auto := Vector.ofFn fun entry : Fin (window.taps * window.taps) ↦
    (centre average pixelCount (totals.auto.get entry) (totals.taps.get (RowMajor.row entry))
      (totals.taps.get (RowMajor.column entry))).tdiv depth.divisor

end StagedSums

end WienerRegression
