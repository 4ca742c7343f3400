import WienerRegression.BitDepth
import WienerRegression.RowMajor
import WienerRegression.Window
import WienerRegression.Words

/-!
# Statistics of a window

The statistics of a unit are the coefficients of the normal equations of the filter: a vector with
one entry per tap and a matrix with one entry per pair of taps, stored row by row.
-/

namespace WienerRegression

/-- The coefficients of the normal equations for the taps of a window. -/
structure Statistics (window : Window) where
  /-- The correlation of each tap with the source. -/
  cross : Vector Int window.taps
  /-- The correlation of each tap with each tap, row by row. -/
  auto : Vector Int (window.taps * window.taps)

/-- The statistics whose totals are held in signed words, divided to the scale of 8-bit content. -/
def Statistics.ofTotals {window : Window} (depth : BitDepth) (totals : Statistics window) :
    Statistics window where
  cross := totals.cross.map fun total ↦ (toSignedWord total).tdiv depth.divisor
  auto := totals.auto.map fun total ↦ (toSignedWord total).tdiv depth.divisor

/-- The caller's storage for the statistics. It may be longer than the window needs. -/
structure Outputs where
  cross : Array Int
  auto : Array Int
  deriving DecidableEq

/-- The first entries of an array, unless there are too few. -/
def first? (count : Nat) (entries : Array Int) : Option (Vector Int count) :=
  if h : count ≤ entries.size then
    some ⟨entries.extract 0 count, by simp [Nat.min_eq_left h]⟩
  else
    none

/-- Replace the first entries of an array by the given values, unless there are too few entries. -/
def overwrite? (values entries : Array Int) : Option (Array Int) :=
  if values.size ≤ entries.size then some (values ++ entries.extract values.size) else none

namespace Outputs

/-- What the outputs hold for the taps of a window, unless an output has too few entries. -/
def read? (outputs : Outputs) (window : Window) : Option (Statistics window) :=
  match first? window.taps outputs.cross, first? (window.taps * window.taps) outputs.auto with
  | some cross, some auto => some ⟨cross, auto⟩
  | _, _ => none

/-- Write statistics to the first entries of the outputs, unless an output has too few. -/
def write? {window : Window} (outputs : Outputs) (statistics : Statistics window) :
    Option Outputs :=
  match overwrite? statistics.cross.toArray outputs.cross,
    overwrite? statistics.auto.toArray outputs.auto with
  | some cross, some auto => some ⟨cross, auto⟩
  | _, _ => none

end Outputs

end WienerRegression
