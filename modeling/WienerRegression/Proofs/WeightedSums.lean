import Mathlib.Algebra.BigOperators.Fin
import Mathlib.Algebra.Order.BigOperators.Ring.Finset
import WienerRegression.Proofs.NormalEquations

/-!
# Weighted sums and quadratic forms

A weighted sum over the scanned pixels is a sum with weights that are not negative
(`weightedSum_eq_sum`). Hence it is linear in the summed quantity, and the sums of products form a
Gram matrix: their quadratic form is a sum of squares (`weightedSum_sq_combination`). Division of
the entries by the divisor of the depth moves a quadratic or a linear form by no more than the
remainders can make up (`abs_quadratic_le`, `abs_linear_le`).
-/

namespace WienerRegression.Call

variable {width : SampleWidth}

/-- The pixels of the scanned rows, each with the number of its visit. -/
def scannedPixels (call : Call width) :
    Finset (Fin (RowScan.ofRect call.rect call.options.sparse).toList.length × Nat) :=
  Finset.univ ×ˢ Finset.Ico call.rect.left call.rect.right

/-- The visit of the row of a scanned pixel. -/
def visitAt (call : Call width)
    (pixel : Fin (RowScan.ofRect call.rect call.options.sparse).toList.length × Nat) : Nat × Nat :=
  (RowScan.ofRect call.rect call.options.sparse).toList[pixel.1]

/-- A weighted sum is one sum over the scanned pixels. -/
theorem weightedSum_eq_sum (call : Call width) (quantity : Nat → Nat → Int) :
    call.weightedSum quantity =
      ∑ pixel ∈ call.scannedPixels,
        ((call.visitAt pixel).2 : Int) * quantity pixel.2 (call.visitAt pixel).1 := by
  unfold weightedSum scannedPixels
  rw [← Fin.sum_univ_fun_getElem, ← Finset.sum_product']
  rfl

/-- The weighted sum of a sum of quantities. -/
theorem weightedSum_sum (call : Call width) {ι : Type} (indices : Finset ι)
    (quantity : ι → Nat → Nat → Int) :
    (call.weightedSum fun x y ↦ ∑ i ∈ indices, quantity i x y) =
      ∑ i ∈ indices, call.weightedSum (quantity i) := by
  simp only [weightedSum_eq_sum, Finset.mul_sum]
  exact Finset.sum_comm

/-- The weighted sum of a multiple. -/
theorem weightedSum_mul_left (call : Call width) (factor : Int) (quantity : Nat → Nat → Int) :
    (call.weightedSum fun x y ↦ factor * quantity x y) = factor * call.weightedSum quantity := by
  simp only [weightedSum_eq_sum, Finset.mul_sum]
  refine Finset.sum_congr rfl ?_
  intro pixel _
  ring

/-- The weighted sum of a sum. -/
theorem weightedSum_add (call : Call width) (left right : Nat → Nat → Int) :
    (call.weightedSum fun x y ↦ left x y + right x y) =
      call.weightedSum left + call.weightedSum right := by
  simp only [weightedSum_eq_sum, mul_add, Finset.sum_add_distrib]

/-- The weighted sum of a difference. -/
theorem weightedSum_sub (call : Call width) (left right : Nat → Nat → Int) :
    (call.weightedSum fun x y ↦ left x y - right x y) =
      call.weightedSum left - call.weightedSum right := by
  simp only [weightedSum_eq_sum, mul_sub, Finset.sum_sub_distrib]

/-- A weighted sum of squares is not negative. -/
theorem weightedSum_sq_nonneg (call : Call width) (quantity : Nat → Nat → Int) :
    0 ≤ call.weightedSum fun x y ↦ quantity x y ^ 2 := by
  rw [weightedSum_eq_sum]
  refine Finset.sum_nonneg ?_
  intro pixel _
  exact mul_nonneg (Int.natCast_nonneg _) (sq_nonneg _)

/-- The square of a weighted sum of products is at most the product of the weighted sums of
squares. -/
theorem sq_weightedSum_mul_le (call : Call width) (left right : Nat → Nat → Int) :
    (call.weightedSum fun x y ↦ left x y * right x y) ^ 2 ≤
      (call.weightedSum fun x y ↦ left x y ^ 2) * call.weightedSum fun x y ↦ right x y ^ 2 := by
  simp only [weightedSum_eq_sum]
  refine Finset.sum_sq_le_sum_mul_sum_of_sq_le_mul _ ?_ ?_ ?_
  · intro pixel _
    exact mul_nonneg (Int.natCast_nonneg _) (sq_nonneg _)
  · intro pixel _
    exact mul_nonneg (Int.natCast_nonneg _) (sq_nonneg _)
  · intro pixel _
    exact le_of_eq (by ring)

/-- The weighted sum of the squares of a linear combination is the quadratic form of the weighted
sums of products. -/
theorem weightedSum_sq_combination (call : Call width) {n : Nat} (v : Fin n → Int)
    (quantity : Fin n → Nat → Nat → Int) :
    (call.weightedSum fun x y ↦ (∑ t, v t * quantity t x y) ^ 2) =
      ∑ s, ∑ t, v s * (call.weightedSum fun x y ↦ quantity s x y * quantity t x y) * v t := by
  have hpixel : ∀ x y, (∑ t, v t * quantity t x y) ^ 2 =
      ∑ s, ∑ t, v s * v t * (quantity s x y * quantity t x y) := by
    intro x y
    rw [sq, Finset.sum_mul_sum]
    refine Finset.sum_congr rfl fun s _ ↦ Finset.sum_congr rfl fun t _ ↦ ?_
    ring
  simp only [hpixel, weightedSum_sum, weightedSum_mul_left]
  refine Finset.sum_congr rfl fun s _ ↦ Finset.sum_congr rfl fun t _ ↦ ?_
  ring

/-- The weighted sum of the squared differences between a linear combination and a target is made
up of the quadratic form, a linear form, and the weighted sum of the squares of the target. -/
theorem weightedSum_sq_sub (call : Call width) {n : Nat} (v : Fin n → Int)
    (quantity : Fin n → Nat → Nat → Int) (target : Nat → Nat → Int) :
    (call.weightedSum fun x y ↦ (∑ t, v t * quantity t x y - target x y) ^ 2) =
      (∑ s, ∑ t, v s * (call.weightedSum fun x y ↦ quantity s x y * quantity t x y) * v t) -
        2 * (∑ t, v t * call.weightedSum fun x y ↦ quantity t x y * target x y) +
        call.weightedSum fun x y ↦ target x y ^ 2 := by
  have hpixel : ∀ x y, (∑ t, v t * quantity t x y - target x y) ^ 2 =
      (∑ t, v t * quantity t x y) ^ 2 - 2 * (∑ t, v t * (quantity t x y * target x y)) +
        target x y ^ 2 := by
    intro x y
    have hmixed : ∑ t, v t * (quantity t x y * target x y) =
        (∑ t, v t * quantity t x y) * target x y := by
      rw [Finset.sum_mul]
      refine Finset.sum_congr rfl fun t _ ↦ ?_
      ring
    rw [hmixed]
    ring
  simp only [hpixel, weightedSum_add, weightedSum_sub, weightedSum_mul_left, weightedSum_sum,
    weightedSum_sq_combination]

end WienerRegression.Call

namespace WienerRegression

/-- What division with rounding toward zero loses is a remainder. -/
theorem abs_mul_tdiv_sub_le (value : Int) {divisor : Nat} (h : 0 < divisor) :
    |divisor * value.tdiv divisor - value| ≤ (divisor : Int) - 1 := by
  have hsplit := Int.mul_tdiv_add_tmod value divisor
  have hupper := Int.tmod_lt_of_pos value (Int.natCast_pos.mpr h)
  have hlower := Int.lt_tmod_of_pos value (Int.natCast_pos.mpr h)
  rw [abs_le]
  omega

/-- A linear form with small coefficients is within the sum of the magnitudes of its arguments,
counted as often as the bound on the coefficients says. -/
theorem abs_linear_le {n : Nat} {bound : Int} {coefficient : Fin n → Int}
    (h : ∀ t, |coefficient t| ≤ bound) (v : Fin n → Int) :
    |∑ t, v t * coefficient t| ≤ bound * ∑ t, |v t| := by
  calc |∑ t, v t * coefficient t| ≤ ∑ t, |v t * coefficient t| := Finset.abs_sum_le_sum_abs _ _
    _ ≤ ∑ t, bound * |v t| := by
        refine Finset.sum_le_sum ?_
        intro t _
        rw [abs_mul, mul_comm]
        exact mul_le_mul_of_nonneg_right (h t) (abs_nonneg _)
    _ = bound * ∑ t, |v t| := (Finset.mul_sum _ _ _).symm

/-- A quadratic form with small coefficients is within the square of the sum of the magnitudes of
its arguments, counted as often as the bound on the coefficients says. -/
theorem abs_quadratic_le {n : Nat} {bound : Int} {coefficient : Fin n → Fin n → Int}
    (h : ∀ s t, |coefficient s t| ≤ bound) (v : Fin n → Int) :
    |∑ s, ∑ t, v s * coefficient s t * v t| ≤ bound * (∑ t, |v t|) ^ 2 := by
  have hinner : ∀ s, |∑ t, v t * coefficient s t| ≤ bound * ∑ t, |v t| :=
    fun s ↦ abs_linear_le (h s) v
  have hform : ∑ s, ∑ t, v s * coefficient s t * v t = ∑ s, v s * ∑ t, v t * coefficient s t := by
    refine Finset.sum_congr rfl fun s _ ↦ ?_
    rw [Finset.mul_sum]
    refine Finset.sum_congr rfl fun t _ ↦ ?_
    ring
  rw [hform, sq, ← mul_assoc]
  exact abs_linear_le hinner v

end WienerRegression
