import WienerRegression.Rect

/-!
# Scanned rows

A full scan visits every row of a unit. A sparse scan visits every fourth row, which then stands
for itself and the rows it skips; the last row of a sparse scan stands for the rows that are left.
Each visited row comes with the number of rows it stands for, its weight. The lemmas `toList_of_lt`
and `toList_of_le` unfold the list of all visits.
-/

namespace WienerRegression

/-- How many rows a visited row of a sparse scan stands for. -/
def sparseStep : Nat := 4

/-- A scan that has reached row `next` on its way to row `stop`. -/
structure RowScan where
  next : Nat
  stop : Nat
  step : Nat
  step_pos : 0 < step

namespace RowScan

/-- The scan of the rows from `start` up to `stop`. -/
def ofRows (start stop : Nat) (sparse : Bool) : RowScan :=
  match sparse with
  | true => ⟨start, stop, sparseStep, by decide⟩
  | false => ⟨start, stop, 1, by decide⟩

/-- The scan of the rows of a unit. -/
def ofRect (rect : Rect) (sparse : Bool) : RowScan :=
  ofRows rect.top rect.bottom sparse

/-- The next row with its weight and the scan after it, unless the scan is at its end. -/
def next? (scan : RowScan) : Option ((Nat × Nat) × RowScan) :=
  if scan.next < scan.stop then
    some ((scan.next, min scan.step (scan.stop - scan.next)),
      { scan with next := scan.next + scan.step })
  else
    none

/-- The number of rows still to be visited. -/
def remaining (scan : RowScan) : Nat :=
  (scan.stop - scan.next + (scan.step - 1)) / scan.step

/-- The least and the greatest number of rows that may still be visited. Both are known exactly. -/
def sizeBounds (scan : RowScan) : Nat × Option Nat :=
  (scan.remaining, some scan.remaining)

/-- At most `count` of the rows still to be visited, with their weights. -/
def take : Nat → RowScan → List (Nat × Nat)
  | 0, _ => []
  | count + 1, scan =>
      match scan.next? with
      | none => []
      | some (visit, rest) => visit :: take count rest

/-- The rows still to be visited, with their weights. -/
def toList (scan : RowScan) : List (Nat × Nat) :=
  take scan.remaining scan

/-- A scan before its end has one more row to visit than the scan after its next row. -/
theorem remaining_of_lt {scan : RowScan} (h : scan.next < scan.stop) :
    scan.remaining = { scan with next := scan.next + scan.step }.remaining + 1 := by
  have hstep := scan.step_pos
  unfold remaining
  dsimp only
  by_cases hlast : scan.next + scan.step < scan.stop
  · have hsplit : scan.stop - scan.next + (scan.step - 1)
        = scan.stop - (scan.next + scan.step) + (scan.step - 1) + scan.step := by
      omega
    rw [hsplit, Nat.add_div_right _ hstep]
  · have hnone : scan.stop - (scan.next + scan.step) = 0 := by omega
    rw [hnone, Nat.div_eq_of_lt (by omega : 0 + (scan.step - 1) < scan.step)]
    exact Nat.div_eq_of_lt_le (by omega) (by omega)

/-- A scan before its end visits its next row and then the rows after it. -/
theorem toList_of_lt {scan : RowScan} (h : scan.next < scan.stop) :
    scan.toList = (scan.next, min scan.step (scan.stop - scan.next))
      :: { scan with next := scan.next + scan.step }.toList := by
  simp only [toList, remaining_of_lt h, take, next?, if_pos h]

/-- A scan at its end visits nothing. -/
theorem toList_of_le {scan : RowScan} (h : scan.stop ≤ scan.next) : scan.toList = [] := by
  have hend : ¬ scan.next < scan.stop := by omega
  unfold toList
  cases scan.remaining with
  | zero => rfl
  | succ count => simp only [take, next?, if_neg hend]

end RowScan

end WienerRegression
