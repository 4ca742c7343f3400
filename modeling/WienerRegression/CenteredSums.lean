import WienerRegression.BitDepth
import WienerRegression.Entries
import WienerRegression.Observation
import WienerRegression.Statistics

/-!
# The reference method

The reference method accumulates in the caller's storage. It clears the entries of the window and
adds up weighted products of centred samples, pixel by pixel, for every tap and for every pair of
taps whose first tap is not after its second. Then it copies the sums above the diagonal to the
transposed positions below it. The sums are divided at the end, rounding toward zero.
-/

namespace WienerRegression.CenteredSums

variable {width : SampleWidth} {window : Window}

/-- The difference between a sample and the average. -/
@[inline] def deviation (average : Int) (sample : Sample width) : Int :=
  (sample.val : Int) - average

/-- The statistics with every entry zero. -/
def clear (totals : Statistics window) : Statistics window where
  cross := totals.cross.map fun _ ↦ 0
  auto := totals.auto.map fun _ ↦ 0

/-- Add the products of one tap with itself and with each tap after it. The deviations are those of
the taps of a pixel, and `weighted` is the deviation of the one tap times the weight of the row. -/
@[inline] def addTapPairs (deviations : Vector Int window.taps) (weighted : Int)
    (first : Fin window.taps) (auto : Vector Int (window.taps * window.taps)) :
    Vector Int (window.taps * window.taps) :=
  Fin.foldl (window.taps - first.val) (fun auto offset ↦
    let second : Fin window.taps := ⟨first.val + offset.val, by omega⟩
    Entries.add auto (RowMajor.index first second) (weighted * deviations.get second)) auto

/-- Add the products of one pixel. -/
def addPixel (average weight : Int) (totals : Statistics window)
    (pixel : Observation width window) : Statistics window :=
  let source := deviation average pixel.source
  let deviations := pixel.taps.map (deviation average)
  Fin.foldl window.taps (fun ⟨cross, auto⟩ tap ↦
    let weighted := weight * deviations.get tap
    { cross := Entries.add cross tap (weighted * source)
      auto := addTapPairs deviations weighted tap auto }) totals

/-- Add the products of the pixels of one row. -/
def addRow (average : Int) (totals : Statistics window) (row : WeightedRow width window) :
    Statistics window :=
  row.pixels.foldl (addPixel average row.weight) totals

/-- Copy the entries left of the diagonal of a row from the column above the diagonal. -/
def reflectRow (auto : Vector Int (window.taps * window.taps)) (row : Fin window.taps) :
    Vector Int (window.taps * window.taps) :=
  Fin.foldl row.val (fun auto column ↦
    let column : Fin window.taps := ⟨column.val, by omega⟩
    auto.set (RowMajor.index row column) (auto.get (RowMajor.index column row))) auto

/-- Copy each entry above the diagonal to the transposed position below it. -/
def reflect (auto : Vector Int (window.taps * window.taps)) :
    Vector Int (window.taps * window.taps) :=
  Fin.foldl window.taps reflectRow auto

/-- Bring the sums to the scale of 8-bit content. -/
def scale (depth : BitDepth) (totals : Statistics window) : Statistics window :=
  if 1 < depth.divisor then
    { cross := totals.cross.map (·.tdiv depth.divisor)
      auto := totals.auto.map (·.tdiv depth.divisor) }
  else
    totals

/-- Replace what the storage holds by the statistics of the observed rows around an average. -/
def accumulate (depth : BitDepth) (average : Int) (rows : List (WeightedRow width window))
    (storage : Statistics window) : Statistics window :=
  let totals := rows.foldl (addRow average) (clear storage)
  scale depth { totals with auto := reflect totals.auto }

end WienerRegression.CenteredSums
