import WienerRegression.Outcome
import WienerRegression.Patch
import WienerRegression.Rect
import WienerRegression.StatsError

/-!
# The average sample of a unit

The statistics are taken around the average of the degraded samples of the unit: the sum of the
samples divided by their number, rounded down. All rows count, also when the scan is sparse. The
average that the methods take is `wordAverage?`, whose indices, sum and number of pixels are words.
-/

namespace WienerRegression.Patch

variable {width : SampleWidth}

/-- The sum of the samples of a row. -/
def rowSum (samples : Array (Sample width)) : Nat :=
  samples.foldl (fun total sample ↦ total + sample.val) 0

/-- The sum of the samples of some rows of a unit, unless one of the rows cannot be read. -/
def sumRows? (rect : Rect) (row? : Nat → Option (Array (Sample width))) : Option Nat :=
  (List.range' rect.top rect.height).foldlM
    (fun total y ↦ (row? y).map fun samples ↦ total + rowSum samples) 0

/-- The sum of the samples of a unit, unless one of its rows is not in the buffer. -/
def sum? (patch : Patch width) (rect : Rect) : Option Nat :=
  sumRows? rect fun y ↦ patch.row? rect.left y rect.width

/-- The average sample of a unit, unless one of its rows is not in the buffer. -/
def average? (patch : Patch width) (rect : Rect) : Option (Sample width) :=
  (patch.sum? rect).map fun sum ↦ Sample.truncate width (sum / rect.area)

/-- The average sample of a unit that arithmetic on words finds. There is none if one of the rows is
not in the buffer at its index, or if the number of pixels wraps around to zero. -/
def wordAverage? (patch : Patch width) (rect : Rect) : Option (Sample width) := do
  let sum ← sumRows? rect fun y ↦ patch.wordRow? rect.left y rect.width
  if toWord rect.area = 0 then none
  else some (Sample.truncate width (toWord sum / toWord rect.area))

/-- The largest buffer index of a pixel of the unit. -/
def lastIndex (patch : Patch width) (rect : Rect) : Nat :=
  patch.index (rect.right - 1) (rect.bottom - 1)

/-- The average sample of a unit whose last pixel is in the buffer; any other unit is refused. -/
def average (patch : Patch width) (rect : Rect) : Outcome StatsError (Sample width) :=
  if patch.buffer.size ≤ patch.lastIndex rect then
    .refused (.rectOutside (patch.lastIndex rect) patch.buffer.size)
  else
    match patch.average? rect with
    | some sample => .done sample
    | none => .outside

/-- The average sample that arithmetic on words finds for a unit whose last pixel has an index in
the buffer; any other unit is refused. -/
def wordAverage (patch : Patch width) (rect : Rect) : Outcome StatsError (Sample width) :=
  let last := patch.wordIndex (rect.right - 1) (rect.bottom - 1)
  if patch.buffer.size ≤ last then
    .refused (.rectOutside last patch.buffer.size)
  else
    match patch.wordAverage? rect with
    | some sample => .done sample
    | none => .outside

end WienerRegression.Patch
