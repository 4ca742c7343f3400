import Mathlib.Algebra.BigOperators.Group.List.Basic
import Mathlib.Algebra.Order.BigOperators.Group.List
import Mathlib.Algebra.Order.Ring.Abs
import Mathlib.Algebra.Order.Ring.Int
import Mathlib.Tactic.Ring
import WienerRegression.Observation

/-!
# Weighted totals

Both methods find the statistics as weighted totals over the observed rows. `total_centred` is the
identity that lets raw products be centred after they have been added up. A quantity that is bounded
at every pixel has a total within as many bounds as the rows stand for pixels (`abs_total_le`).
-/

namespace WienerRegression.WeightedRow

variable {width : SampleWidth} {window : Window}

/-- The sum of a quantity over the pixels of some rows, each pixel counted as often as its row. -/
def total (rows : List (WeightedRow width window)) (quantity : Observation width window → Int) :
    Int :=
  (rows.map fun row ↦ (row.weight : Int) * (row.pixels.map quantity).sum).sum

/-- There is nothing to add up over no rows. -/
@[simp] theorem total_nil (quantity : Observation width window → Int) : total [] quantity = 0 := rfl

/-- The total over some rows is that of the first row and that of the rows after it. -/
@[simp] theorem total_cons (row : WeightedRow width window) (rows : List (WeightedRow width window))
    (quantity : Observation width window → Int) :
    total (row :: rows) quantity =
      row.weight * (row.pixels.map quantity).sum + total rows quantity := rfl

/-- The total over two groups of rows is the sum of their totals. -/
theorem total_append (first second : List (WeightedRow width window))
    (quantity : Observation width window → Int) :
    total (first ++ second) quantity = total first quantity + total second quantity := by
  simp [total]

/-- One more row adds its sum as often as the row counts. -/
theorem total_append_singleton (rows : List (WeightedRow width window))
    (row : WeightedRow width window) (quantity : Observation width window → Int) :
    total (rows ++ [row]) quantity =
      total rows quantity + row.weight * (row.pixels.map quantity).sum := by
  rw [total_append, total_cons, total_nil, Int.add_zero]

/-- The products of the deviations of two quantities along a row, from the raw sums. -/
theorem sum_centred (pixels : List (Observation width window))
    (left right : Observation width window → Int) (average : Int) :
    (pixels.map fun pixel ↦ (left pixel - average) * (right pixel - average)).sum =
      (pixels.map fun pixel ↦ left pixel * right pixel).sum + average * average * pixels.length -
        average * ((pixels.map left).sum + (pixels.map right).sum) := by
  induction pixels with
  | nil => simp
  | cons pixel rest ih =>
      simp only [List.map_cons, List.sum_cons, List.length_cons, ih]
      push_cast
      ring

/-- The total of the products of the deviations of two quantities follows from the total of their
products, the totals of the two, and the number of pixels that the rows stand for. -/
theorem total_centred (rows : List (WeightedRow width window))
    (left right : Observation width window → Int) (average : Int) :
    total rows (fun pixel ↦ (left pixel - average) * (right pixel - average)) =
      total rows (fun pixel ↦ left pixel * right pixel) +
        average * average * total rows (fun _ ↦ 1) -
        average * (total rows left + total rows right) := by
  induction rows with
  | nil => simp
  | cons row rest ih =>
      have hcount : (row.pixels.map fun _ ↦ (1 : Int)).sum = row.pixels.length := by
        simp
      simp only [total_cons, ih, sum_centred, hcount]
      ring

/-! ## Bounds -/

/-- A constant adds up to as many of itself as the rows stand for pixels. -/
theorem total_const (rows : List (WeightedRow width window)) (value : Int) :
    total rows (fun _ ↦ value) = total rows (fun _ ↦ 1) * value := by
  induction rows with
  | nil => simp
  | cons row rest ih =>
      rw [total_cons, total_cons, ih]
      simp only [List.map_const', List.sum_replicate, nsmul_eq_mul]
      ring

/-- A quantity that is nowhere larger has no larger total. -/
theorem total_le_total {rows : List (WeightedRow width window)}
    {left right : Observation width window → Int}
    (h : ∀ row ∈ rows, ∀ pixel ∈ row.pixels, left pixel ≤ right pixel) :
    total rows left ≤ total rows right := by
  refine List.sum_le_sum ?_
  intro row hrow
  exact Int.mul_le_mul_of_nonneg_left (List.sum_le_sum (h row hrow)) (Int.natCast_nonneg _)

/-- A quantity that is nowhere negative has no negative total. -/
theorem total_nonneg {rows : List (WeightedRow width window)}
    {quantity : Observation width window → Int}
    (h : ∀ row ∈ rows, ∀ pixel ∈ row.pixels, 0 ≤ quantity pixel) : 0 ≤ total rows quantity := by
  have hzero := total_le_total h
  rwa [total_const, Int.mul_zero] at hzero

/-- A row contributes no more than the total, if no row contributes a negative sum. -/
theorem weighted_sum_le_total {rows : List (WeightedRow width window)}
    {quantity : Observation width window → Int} (h : ∀ pixel, 0 ≤ quantity pixel)
    {row : WeightedRow width window} (hrow : row ∈ rows) :
    row.weight * (row.pixels.map quantity).sum ≤ total rows quantity := by
  refine List.single_le_sum ?_ _ (List.mem_map.mpr ⟨row, hrow, rfl⟩)
  intro contribution hcontribution
  obtain ⟨other, -, rfl⟩ := List.mem_map.mp hcontribution
  refine Int.mul_nonneg (Int.natCast_nonneg _) (List.sum_nonneg ?_)
  intro value hvalue
  obtain ⟨pixel, -, rfl⟩ := List.mem_map.mp hvalue
  exact h pixel

/-- The first rows have no larger total than all rows, if no pixel contributes a negative value. -/
theorem total_take_le {rows : List (WeightedRow width window)}
    {quantity : Observation width window → Int} (h : ∀ pixel, 0 ≤ quantity pixel) (count : Nat) :
    total (rows.take count) quantity ≤ total rows quantity := by
  have hsplit : total rows quantity =
      total (rows.take count) quantity + total (rows.drop count) quantity := by
    rw [← total_append, List.take_append_drop]
  have hrest : 0 ≤ total (rows.drop count) quantity := total_nonneg fun _ _ pixel _ ↦ h pixel
  omega

/-- A quantity that is bounded at every pixel has a total within as many bounds as the rows stand
for pixels. -/
theorem abs_total_le {rows : List (WeightedRow width window)}
    {quantity : Observation width window → Int} {bound : Int}
    (h : ∀ row ∈ rows, ∀ pixel ∈ row.pixels, |quantity pixel| ≤ bound) :
    |total rows quantity| ≤ total rows (fun _ ↦ 1) * bound := by
  rw [abs_le]
  constructor
  · rw [← Int.mul_neg, ← total_const]
    exact total_le_total fun row hrow pixel hpixel ↦ (abs_le.mp (h row hrow pixel hpixel)).1
  · rw [← total_const]
    exact total_le_total fun row hrow pixel hpixel ↦ (abs_le.mp (h row hrow pixel hpixel)).2

end WienerRegression.WeightedRow
