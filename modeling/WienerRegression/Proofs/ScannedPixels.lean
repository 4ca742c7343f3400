import WienerRegression.Proofs.WeightedSums

/-!
# Scanned pixels

The statistics are sums over the pixels of the scanned rows (`Call.ScansPixel`). Quantities that
agree at these pixels have one weighted sum (`Call.weightedSum_congr`). Every scanned row counts at
least once, so a weighted sum of squares is zero only if the quantity is zero at every scanned pixel
(`Call.weightedSum_sq_eq_zero_iff`).
-/

namespace WienerRegression.Call

variable {width : SampleWidth} {call : Call width}

/-- The pixel `(x, y)` lies in a row of the unit that the scan visits. -/
structure ScansPixel (call : Call width) (x y : Nat) : Prop where
  row_mem : ∃ weight, (y, weight) ∈ (RowScan.ofRect call.rect call.options.sparse).toList
  left_le : call.rect.left ≤ x
  lt_right : x < call.rect.right

namespace ScansPixel

variable {x y : Nat}

/-- A scanned pixel is not above the unit. -/
theorem top_le (h : call.ScansPixel x y) : call.rect.top ≤ y := by
  obtain ⟨weight, hvisit⟩ := h.row_mem
  exact (RowScan.row_mem_ofRect hvisit).1

/-- A scanned pixel is not below the unit. -/
theorem lt_bottom (h : call.ScansPixel x y) : y < call.rect.bottom := by
  obtain ⟨weight, hvisit⟩ := h.row_mem
  exact (RowScan.row_mem_ofRect hvisit).2

end ScansPixel

/-- Quantities that agree at every scanned pixel have one weighted sum. -/
theorem weightedSum_congr {quantity other : Nat → Nat → Int}
    (h : ∀ x y, call.ScansPixel x y → quantity x y = other x y) :
    call.weightedSum quantity = call.weightedSum other := by
  unfold weightedSum
  refine congrArg List.sum (List.map_congr_left fun visit hvisit ↦ ?_)
  refine Finset.sum_congr rfl fun x hx ↦ ?_
  obtain ⟨hleft, hright⟩ := Finset.mem_Ico.mp hx
  rw [h x visit.1 ⟨⟨visit.2, hvisit⟩, hleft, hright⟩]

/-- A quantity that is zero at every scanned pixel has a weighted sum of zero. -/
theorem weightedSum_eq_zero {quantity : Nat → Nat → Int}
    (h : ∀ x y, call.ScansPixel x y → quantity x y = 0) : call.weightedSum quantity = 0 := by
  calc call.weightedSum quantity
      = call.weightedSum fun _ _ ↦ 0 := weightedSum_congr h
    _ = 0 := by simp [weightedSum]

/-- Every scanned pixel counts at least once. -/
theorem ScansPixel.exists_mem_scannedPixels {x y : Nat} (h : call.ScansPixel x y) :
    ∃ pixel ∈ call.scannedPixels, pixel.2 = x ∧ (call.visitAt pixel).1 = y ∧
      0 < (call.visitAt pixel).2 := by
  obtain ⟨⟨weight, hvisit⟩, hleft, hright⟩ := h
  obtain ⟨number, hnumber, hentry⟩ := List.getElem_of_mem hvisit
  have hvisitAt : call.visitAt (⟨number, hnumber⟩, x) = (y, weight) := hentry
  refine ⟨(⟨number, hnumber⟩, x), ?_, rfl, ?_, ?_⟩
  · exact Finset.mem_product.mpr ⟨Finset.mem_univ _, Finset.mem_Ico.mpr ⟨hleft, hright⟩⟩
  · rw [hvisitAt]
  · rw [hvisitAt]
    exact (RowScan.tiles_ofRect _ _).weight_pos hvisit

/-- A weighted sum of squares is zero exactly when the quantity is zero at every scanned pixel. -/
theorem weightedSum_sq_eq_zero_iff {quantity : Nat → Nat → Int} :
    (call.weightedSum fun x y ↦ quantity x y ^ 2) = 0 ↔
      ∀ x y, call.ScansPixel x y → quantity x y = 0 := by
  constructor
  · intro hsum x y hpixel
    have hterm : ∀ pixel ∈ call.scannedPixels, 0 ≤
        ((call.visitAt pixel).2 : Int) * quantity pixel.2 (call.visitAt pixel).1 ^ 2 :=
      fun pixel _ ↦ mul_nonneg (Int.natCast_nonneg _) (sq_nonneg _)
    rw [weightedSum_eq_sum, Finset.sum_eq_zero_iff_of_nonneg hterm] at hsum
    obtain ⟨pixel, hmem, rfl, rfl, hweight⟩ := hpixel.exists_mem_scannedPixels
    rcases mul_eq_zero.mp (hsum pixel hmem) with hzero | hsquare
    · exact absurd (Int.natCast_eq_zero.mp hzero) (Nat.pos_iff_ne_zero.mp hweight)
    · exact pow_eq_zero_iff two_ne_zero |>.mp hsquare
  · intro hzero
    refine weightedSum_eq_zero fun x y hpixel ↦ ?_
    rw [hzero x y hpixel, sq, mul_zero]

end WienerRegression.Call
