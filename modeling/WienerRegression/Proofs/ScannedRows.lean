import Mathlib.Algebra.BigOperators.Intervals
import Mathlib.Algebra.BigOperators.Ring.Finset
import Mathlib.Algebra.Ring.Int.Defs
import Mathlib.Algebra.Ring.Nat
import Mathlib.Tactic.Common
import WienerRegression.RowScan

/-!
# The rows that a scan stands for

The visits of a scan stand for the rows still to be scanned, each row once: the first visit stands
for the rows from `next` on, each further visit begins where the one before it ends, and the last
one ends at `stop` (`tiles_toList`). Therefore the visited rows lie in the unit and the weights add
up to its height. What has one value in all rows of each visit adds up, weighted, to its sum over
all rows (`Tiles.sum_weighted`).
-/

namespace WienerRegression.RowScan

/-- A list of visits stands for the rows from `start` up to `stop`, each visit for the `weight` rows
from its own row on. A list that begins at or after `stop` is empty. -/
def Tiles : List (Nat × Nat) → Nat → Nat → Prop
  | [], start, stop => stop ≤ start
  | (row, weight) :: rest, start, stop =>
      row = start ∧ 0 < weight ∧ row + weight ≤ stop ∧ Tiles rest (row + weight) stop

/-- The visits of a scan stand for the rows from `next` up to `stop`. -/
theorem tiles_toList (scan : RowScan) : Tiles scan.toList scan.next scan.stop := by
  have hstep := scan.step_pos
  by_cases h : scan.next < scan.stop
  · rw [toList_of_lt h]
    refine ⟨rfl, by omega, by omega, ?_⟩
    have hrest := tiles_toList { scan with next := scan.next + scan.step }
    dsimp only at hrest
    by_cases hlast : scan.next + scan.step ≤ scan.stop
    · rw [show min scan.step (scan.stop - scan.next) = scan.step by omega]
      exact hrest
    -- the scan steps past its end, and its last visit stands for the rows that are left
    · rw [toList_of_le (by dsimp only; omega)]
      show scan.stop ≤ scan.next + min scan.step (scan.stop - scan.next)
      omega
  · rw [toList_of_le (by omega)]
    show scan.stop ≤ scan.next
    omega
termination_by scan.stop - scan.next

/-- The visited rows lie between the ends of the rows that the visits stand for. -/
theorem Tiles.row_mem {visits : List (Nat × Nat)} {start stop : Nat}
    (h : Tiles visits start stop) {visit : Nat × Nat} (hvisit : visit ∈ visits) :
    start ≤ visit.1 ∧ visit.1 < stop := by
  induction visits generalizing start with
  | nil => cases hvisit
  | cons head rest ih =>
      obtain ⟨rfl, hweight, hle, hrest⟩ := h
      rcases List.mem_cons.mp hvisit with rfl | hvisit
      · omega
      · have := ih hrest hvisit
        omega

/-- The rows that a visit stands for end before the rows of all visits do. -/
theorem Tiles.group_le {visits : List (Nat × Nat)} {start stop : Nat}
    (h : Tiles visits start stop) {visit : Nat × Nat} (hvisit : visit ∈ visits) :
    visit.1 + visit.2 ≤ stop := by
  induction visits generalizing start with
  | nil => cases hvisit
  | cons head rest ih =>
      obtain ⟨rfl, hweight, hle, hrest⟩ := h
      rcases List.mem_cons.mp hvisit with rfl | hvisit
      · exact hle
      · exact ih hrest hvisit

/-- Every visit stands for at least its own row. -/
theorem Tiles.weight_pos {visits : List (Nat × Nat)} {start stop : Nat}
    (h : Tiles visits start stop) {visit : Nat × Nat} (hvisit : visit ∈ visits) :
    0 < visit.2 := by
  induction visits generalizing start with
  | nil => cases hvisit
  | cons head rest ih =>
      obtain ⟨rfl, hweight, hle, hrest⟩ := h
      rcases List.mem_cons.mp hvisit with rfl | hvisit
      · exact hweight
      · exact ih hrest hvisit

/-- The weights add up to the number of rows that the visits stand for. -/
theorem Tiles.sum_weights {visits : List (Nat × Nat)} {start stop : Nat}
    (h : Tiles visits start stop) : (visits.map Prod.snd).sum = stop - start := by
  induction visits generalizing start with
  | nil =>
      have hend : stop ≤ start := h
      simp only [List.map_nil, List.sum_nil]
      omega
  | cons head rest ih =>
      obtain ⟨rfl, hweight, hle, hrest⟩ := h
      rw [List.map_cons, List.sum_cons, ih hrest]
      omega

/-- Values of visited rows, each counted as often as its visit says, add up to the sum over all rows
that the visits stand for, if the rows of a visit all have the value of the visited one. -/
theorem Tiles.sum_weighted {visits : List (Nat × Nat)} {start stop : Nat}
    (h : Tiles visits start stop) {value : Nat → Int}
    (halike : ∀ visit ∈ visits, ∀ y, visit.1 ≤ y → y < visit.1 + visit.2 →
      value y = value visit.1) :
    (visits.map fun visit ↦ (visit.2 : Int) * value visit.1).sum =
      ∑ y ∈ Finset.Ico start stop, value y := by
  induction visits generalizing start with
  | nil =>
      have hend : stop ≤ start := h
      rw [Finset.Ico_eq_empty_of_le hend]
      rfl
  | cons head rest ih =>
      obtain ⟨rfl, hweight, hle, hrest⟩ := h
      obtain ⟨hhead, htail⟩ := List.forall_mem_cons.mp halike
      have hgroup : ∑ y ∈ Finset.Ico head.1 (head.1 + head.2), value y =
          head.2 * value head.1 := by
        have hconst : ∀ y ∈ Finset.Ico head.1 (head.1 + head.2), value y = value head.1 := by
          intro y hy
          obtain ⟨hrow, hgroup⟩ := Finset.mem_Ico.mp hy
          exact hhead y hrow hgroup
        rw [Finset.sum_congr rfl hconst, Finset.sum_const, Nat.card_Ico, Nat.add_sub_cancel_left,
          nsmul_eq_mul]
      rw [List.map_cons, List.sum_cons, ih hrest htail, ← hgroup]
      exact Finset.sum_Ico_consecutive value (Nat.le_add_right _ _) hle

/-- A visit stands for no more rows than a scan steps over. -/
theorem weight_le_step (scan : RowScan) {visit : Nat × Nat} (hvisit : visit ∈ scan.toList) :
    visit.2 ≤ scan.step := by
  have hstep := scan.step_pos
  by_cases h : scan.next < scan.stop
  · rw [toList_of_lt h] at hvisit
    rcases List.mem_cons.mp hvisit with rfl | hvisit
    · exact Nat.min_le_left _ _
    · exact weight_le_step { scan with next := scan.next + scan.step } hvisit
  · rw [toList_of_le (Nat.not_lt.mp h)] at hvisit
    cases hvisit
termination_by scan.stop - scan.next

/-- The scan of a unit begins at its top, whichever rows it skips. -/
@[simp] theorem ofRect_next (rect : Rect) (sparse : Bool) :
    (ofRect rect sparse).next = rect.top := by
  cases sparse <;> rfl

/-- The scan of a unit ends at its bottom, whichever rows it skips. -/
@[simp] theorem ofRect_stop (rect : Rect) (sparse : Bool) :
    (ofRect rect sparse).stop = rect.bottom := by
  cases sparse <;> rfl

/-- The visits of the scan of a unit stand for the rows of the unit. -/
theorem tiles_ofRect (rect : Rect) (sparse : Bool) :
    Tiles (ofRect rect sparse).toList rect.top rect.bottom := by
  simpa using tiles_toList (ofRect rect sparse)

/-- A scan of a unit visits rows of the unit only. -/
theorem row_mem_ofRect {rect : Rect} {sparse : Bool} {visit : Nat × Nat}
    (hvisit : visit ∈ (ofRect rect sparse).toList) :
    rect.top ≤ visit.1 ∧ visit.1 < rect.bottom :=
  (tiles_ofRect rect sparse).row_mem hvisit

/-- The weights of the rows that a scan visits add up to the height of the unit. -/
theorem sum_weights_ofRect (rect : Rect) (sparse : Bool) :
    ((ofRect rect sparse).toList.map Prod.snd).sum = rect.height :=
  (tiles_ofRect rect sparse).sum_weights

/-- Every row that a visit of a full scan stands for is the visited row. -/
theorem eq_row_of_mem_full {rect : Rect} {visit : Nat × Nat}
    (hvisit : visit ∈ (ofRect rect false).toList) {y : Nat} (hrow : visit.1 ≤ y)
    (hgroup : y < visit.1 + visit.2) : y = visit.1 := by
  have hweight : visit.2 ≤ 1 := weight_le_step _ hvisit
  omega

end WienerRegression.RowScan
