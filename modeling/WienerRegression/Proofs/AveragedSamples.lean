import Mathlib.Data.Finset.Max
import WienerRegression.Proofs.Verdicts

/-!
# Averaged samples

The average of a unit is refused for the one reason that a pixel of the unit is not in the buffer,
which the last pixel tells (`Patch.pixel_outside_iff`). Otherwise it is the sum of the samples of
all pixels divided by their number, rounded down. A sample that several pixels share, because the
stride is narrower than the unit, counts once for each of them. The average lies between the
smallest and the largest of the samples, so the sample type holds it.

An average that is taken with words is the same as long as words hold what it is made of
(`Patch.FitsWords.wordAverage_eq`). An index beyond the largest word wraps around, and then the
average is not refused (`Patch.wordAverage_wraps`).
-/

namespace WienerRegression.Patch

variable {width : SampleWidth} {patch : Patch width} {rect : Rect}

/-- A pixel of a unit is not in the buffer exactly when the last one is not. -/
theorem pixel_outside_iff (patch : Patch width) (rect : Rect) :
    (∃ index ∈ patch.pixelIndices rect, patch.buffer.size ≤ index) ↔
      patch.buffer.size ≤ patch.lastIndex rect := by
  obtain ⟨hlast, hgreatest⟩ := patch.isGreatest_pixelIndices rect
  constructor
  · rintro ⟨index, hindex, houtside⟩
    exact Nat.le_trans houtside (hgreatest hindex)
  · exact fun houtside ↦ ⟨_, hlast, houtside⟩

/-- The values of the samples at the pixels of a unit. -/
def unitValues (patch : Patch width) (rect : Rect) : Set Nat :=
  {value | ∃ x y sample, rect.left ≤ x ∧ x < rect.right ∧ rect.top ≤ y ∧ y < rect.bottom ∧
    patch.get? x y = some sample ∧ value = sample.val}

/-- The pixels of a unit. -/
def unitPixels (rect : Rect) : Finset (Nat × Nat) :=
  Finset.Ico rect.left rect.right ×ˢ Finset.Ico rect.top rect.bottom

/-- A unit has a pixel. -/
theorem unitPixels_nonempty (rect : Rect) : (unitPixels rect).Nonempty :=
  (Finset.nonempty_Ico.mpr rect.left_lt_right).product (Finset.nonempty_Ico.mpr rect.top_lt_bottom)

/-- The value at every pixel of a unit whose last pixel is in the buffer. -/
theorem val_mem_unitValues (h : patch.lastIndex rect < patch.buffer.size) {x y : Nat}
    (hleft : rect.left ≤ x) (hright : x < rect.right) (htop : rect.top ≤ y)
    (hbottom : y < rect.bottom) : (patch.sampleAt x y).val ∈ patch.unitValues rect :=
  ⟨x, y, _, hleft, hright, htop, hbottom, get?_eq h hright hbottom, rfl⟩

/-- The values of such a unit are those at its pixels and no others. -/
theorem unitValues_eq_image (h : patch.lastIndex rect < patch.buffer.size) :
    patch.unitValues rect =
      (unitPixels rect).image fun pixel ↦ (patch.sampleAt pixel.1 pixel.2).val := by
  ext value
  simp only [Finset.coe_image, Set.mem_image, Finset.mem_coe, unitPixels, Finset.mem_product,
    Finset.mem_Ico]
  constructor
  · rintro ⟨x, y, sample, hleft, hright, htop, hbottom, hread, rfl⟩
    rw [get?_eq h hright hbottom] at hread
    exact ⟨(x, y), ⟨⟨hleft, hright⟩, htop, hbottom⟩, congrArg Fin.val (Option.some.inj hread)⟩
  · rintro ⟨⟨x, y⟩, ⟨⟨hleft, hright⟩, htop, hbottom⟩, rfl⟩
    exact val_mem_unitValues h hleft hright htop hbottom

/-- A unit in the buffer has a smallest and a largest sample. -/
theorem exists_range_unitValues (h : patch.lastIndex rect < patch.buffer.size) :
    ∃ least greatest, IsLeast (patch.unitValues rect) least ∧
      IsGreatest (patch.unitValues rect) greatest := by
  have hnonempty := (unitPixels_nonempty rect).image fun pixel ↦
    (patch.sampleAt pixel.1 pixel.2).val
  rw [unitValues_eq_image h]
  exact ⟨_, _, Finset.isLeast_min' _ hnonempty, Finset.isGreatest_max' _ hnonempty⟩

/-- If every sample of a unit is at least a bound, then their sum is at least one bound for each
pixel. -/
theorem le_unitSum {bound : Nat}
    (h : ∀ x y, rect.left ≤ x → x < rect.right → rect.top ≤ y → y < rect.bottom →
      bound ≤ (patch.sampleAt x y).val) : rect.area * bound ≤ patch.unitSum rect := by
  calc rect.area * bound
      = ∑ _y ∈ Finset.Ico rect.top rect.bottom,
          ∑ _x ∈ Finset.Ico rect.left rect.right, bound := (rect.sum_const bound).symm
    _ ≤ patch.unitSum rect := by
        refine Finset.sum_le_sum fun y hy ↦ Finset.sum_le_sum fun x hx ↦ ?_
        obtain ⟨htop, hbottom⟩ := Finset.mem_Ico.mp hy
        obtain ⟨hleft, hright⟩ := Finset.mem_Ico.mp hx
        exact h x y hleft hright htop hbottom

/-- If every sample of a unit is at least a bound, then so is their average. -/
theorem le_mean {bound : Nat}
    (h : ∀ x y, rect.left ≤ x → x < rect.right → rect.top ≤ y → y < rect.bottom →
      bound ≤ (patch.sampleAt x y).val) : bound ≤ patch.mean rect := by
  rw [mean, Nat.le_div_iff_mul_le rect.area_pos, Nat.mul_comm]
  exact le_unitSum h

/-- The average of a unit in the buffer is at least its smallest sample. -/
theorem le_mean_of_isLeast (h : patch.lastIndex rect < patch.buffer.size) {least : Nat}
    (hleast : IsLeast (patch.unitValues rect) least) : least ≤ patch.mean rect := by
  refine le_mean ?_
  intro x y hleft hright htop hbottom
  exact hleast.2 (val_mem_unitValues h hleft hright htop hbottom)

/-- The sum of a unit in the buffer is at most its largest sample for each pixel. -/
theorem unitSum_le_of_isGreatest (h : patch.lastIndex rect < patch.buffer.size) {greatest : Nat}
    (hgreatest : IsGreatest (patch.unitValues rect) greatest) :
    patch.unitSum rect ≤ rect.area * greatest := by
  refine unitSum_le ?_
  intro x y hleft hright htop hbottom
  exact hgreatest.2 (val_mem_unitValues h hleft hright htop hbottom)

/-- The average is the number of times that the pixels of the unit go into the sum. -/
theorem mean_mul_area (patch : Patch width) (rect : Rect) :
    patch.mean rect * rect.area ≤ patch.unitSum rect ∧
      patch.unitSum rect < (patch.mean rect + 1) * rect.area := by
  have hlow := Nat.div_mul_le_self (patch.unitSum rect) rect.area
  have hhigh := Nat.lt_mul_div_succ (patch.unitSum rect) rect.area_pos
  rw [Nat.mul_comm] at hhigh
  exact ⟨hlow, hhigh⟩

/-! ## Averages on words -/

/-- Words hold what the average of a unit is made of: the index of its last pixel, the number of its
pixels, and the sum of their samples. -/
structure FitsWords (patch : Patch width) (rect : Rect) : Prop where
  lastIndex_lt : patch.lastIndex rect < UInt64.size
  area_lt : rect.area < UInt64.size
  sum_lt : patch.unitSum rect < UInt64.size

/-- A word that holds the number of pixels times the largest sample holds their number and the sum
of their samples. -/
theorem fitsWords_of_lt (hlast : patch.lastIndex rect < UInt64.size)
    (hsum : rect.area * (width.levels - 1) < UInt64.size) : patch.FitsWords rect where
  lastIndex_lt := hlast
  area_lt := by
    have hlevels : 0 < width.levels - 1 := by
      cases width <;> decide
    exact Nat.lt_of_le_of_lt (Nat.le_mul_of_pos_right _ hlevels) hsum
  sum_lt := by
    refine Nat.lt_of_le_of_lt (unitSum_le ?_) hsum
    intro x y _ _ _ _
    exact Nat.le_sub_one_of_lt (patch.sampleAt x y).isLt

/-- An index that a word holds is found with words. -/
theorem wordIndex_eq {x y : Nat} (h : patch.index x y < UInt64.size) :
    patch.wordIndex x y = patch.index x y :=
  toWord_of_lt h

/-- A row whose index a word holds is read with words. -/
theorem wordRow?_eq {x y : Nat} (h : patch.index x y < UInt64.size) (length : Nat) :
    patch.wordRow? x y length = patch.row? x y length := by
  unfold wordRow? row?
  rw [wordIndex_eq h]

/-- Words that hold the index of the last pixel of a unit hold those of all its pixels. -/
theorem FitsWords.index_lt (h : patch.FitsWords rect) {x y : Nat} (hright : x < rect.right)
    (hbottom : y < rect.bottom) : patch.index x y < UInt64.size :=
  Nat.lt_of_le_of_lt
    (patch.index_le_index (Nat.le_sub_one_of_lt hright) (Nat.le_sub_one_of_lt hbottom))
    h.lastIndex_lt

/-- Words find the average of a unit whose last pixel is in the buffer. -/
theorem FitsWords.wordAverage?_eq (h : patch.FitsWords rect)
    (hlast : patch.lastIndex rect < patch.buffer.size) :
    patch.wordAverage? rect = some ⟨patch.mean rect, patch.mean_lt_levels rect⟩ := by
  have hsum : sumRows? rect (fun y ↦ patch.wordRow? rect.left y rect.width) =
      some (patch.unitSum rect) :=
    sumRows?_eq hlast fun y hbottom ↦ wordRow?_eq (h.index_lt rect.left_lt_right hbottom) _
  have harea : rect.area ≠ 0 := Nat.ne_of_gt rect.area_pos
  unfold wordAverage?
  rw [hsum, toWord_of_lt h.area_lt]
  simp only [Option.bind_eq_bind, Option.bind_some, if_neg harea, toWord_of_lt h.sum_lt]
  exact congrArg some (Fin.ext (Nat.mod_eq_of_lt (patch.mean_lt_levels rect)))

/-- An average is the same with words if they hold what it is made of. -/
theorem FitsWords.wordAverage_eq (h : patch.FitsWords rect) :
    patch.wordAverage rect = patch.average rect := by
  have hlast : patch.wordIndex (rect.right - 1) (rect.bottom - 1) = patch.lastIndex rect :=
    wordIndex_eq h.lastIndex_lt
  rw [average_eq]
  unfold wordAverage
  simp only [hlast]
  split
  · rfl
  · next hinside => rw [h.wordAverage?_eq (Nat.not_le.mp hinside)]

/-- If words hold the index of the last pixel of a unit, the number of its pixels and the sum of
their samples, then the average is refused, with the largest index of the unit, exactly when a pixel
of the unit is not in the buffer. Otherwise every pixel is read, and the average is their sum
divided by their number and rounded down. It is not below the smallest and not above the largest of
the samples, and narrowing it to the sample type keeps it. -/
theorem wordAverage_refused_or_between (patch : Patch width) (rect : Rect)
    (h : patch.FitsWords rect) :
    IsGreatest (patch.pixelIndices rect) (patch.lastIndex rect) ∧
    (patch.wordAverage rect = .refused (.rectOutside (patch.lastIndex rect) patch.buffer.size) ↔
      ∃ index ∈ patch.pixelIndices rect, patch.buffer.size ≤ index) ∧
    ((∀ index ∈ patch.pixelIndices rect, index < patch.buffer.size) →
      (∀ x y, rect.left ≤ x → x < rect.right → rect.top ≤ y → y < rect.bottom →
        patch.get? x y = some (patch.sampleAt x y)) ∧
      ∃ average, patch.wordAverage rect = .done average ∧
        average.val * rect.area ≤ patch.unitSum rect ∧
        patch.unitSum rect < (average.val + 1) * rect.area ∧
        average = Sample.truncate width (patch.unitSum rect / rect.area) ∧
        average.val = patch.unitSum rect / rect.area ∧
        ∃ least greatest, IsLeast (patch.unitValues rect) least ∧
          IsGreatest (patch.unitValues rect) greatest ∧
          least ≤ average.val ∧ average.val ≤ greatest ∧
          patch.unitSum rect ≤ rect.area * greatest) := by
  rw [h.wordAverage_eq]
  refine ⟨patch.isGreatest_pixelIndices rect, ?_, ?_⟩
  · rw [pixel_outside_iff, average_eq]
    split
    · next houtside => exact iff_of_true rfl houtside
    · next hinside => exact iff_of_false nofun hinside
  · intro hinside
    have hlast := (patch.pixels_inside_iff rect).mp hinside
    have hlt : patch.lastIndex rect < patch.buffer.size := Nat.not_le.mp hlast
    obtain ⟨least, greatest, hleast, hgreatest⟩ := exists_range_unitValues hlt
    obtain ⟨hlow, hhigh⟩ := patch.mean_mul_area rect
    have hsum := unitSum_le_of_isGreatest hlt hgreatest
    refine ⟨fun x y _ hright _ hbottom ↦ get?_eq hlt hright hbottom,
      ⟨patch.mean rect, patch.mean_lt_levels rect⟩, ?_, hlow, hhigh, ?_, rfl,
      least, greatest, hleast, hgreatest, le_mean_of_isLeast hlt hleast,
      Nat.div_le_of_le_mul hsum, hsum⟩
    · rw [average_eq, if_neg hlast]
    · exact Fin.ext (Nat.mod_eq_of_lt (patch.mean_lt_levels rect)).symm

/-- Three samples. The pixel `(0, 0)` is the one with the given index. -/
def threeSamples (stride origin : Nat) (hstride : 0 < stride) (horigin : origin < 3) :
    Patch .byte where
  buffer := #[Sample.truncate .byte 10, Sample.truncate .byte 20, Sample.truncate .byte 30]
  stride := stride
  origin := origin
  stride_pos := hstride
  origin_lt := horigin

/-- Two rows of two samples each, where the second row starts with the last sample of the first. The
average is that of four samples. -/
theorem wordAverage_threeSamples :
    (threeSamples 1 0 (by decide) (by decide)).FitsWords ⟨0, 2, 0, 2, by decide, by decide⟩ ∧
    ∃ average, (threeSamples 1 0 (by decide) (by decide)).wordAverage
        ⟨0, 2, 0, 2, by decide, by decide⟩ = .done average ∧ average.val = 20 := by
  have hfits : (threeSamples 1 0 (by decide) (by decide)).FitsWords
      ⟨0, 2, 0, 2, by decide, by decide⟩ :=
    fitsWords_of_lt (by decide) (by decide)
  obtain ⟨-, -, hdone⟩ := wordAverage_refused_or_between _ _ hfits
  obtain ⟨-, average, haverage, -, -, -, hvalue, -⟩ :=
    hdone ((pixels_inside_iff _ _).mpr (by decide))
  exact ⟨hfits, average, haverage, hvalue.trans (by decide)⟩

/-- Units with a pixel that is not in the buffer whose average is not refused, although the sum of
their samples is small. The index of the only pixel of the first unit wraps around to that of the
first sample. The index of the last pixel of the second unit wraps around too, but the index of its
second row does not. -/
theorem wordAverage_wraps :
    ((threeSamples 3 2 (by decide) (by decide)).lastIndex
        ⟨2 ^ 64 - 2, 2 ^ 64 - 1, 0, 1, by decide, by decide⟩ = 2 ^ 64 ∧
      (threeSamples 3 2 (by decide) (by decide)).wordAverage
        ⟨2 ^ 64 - 2, 2 ^ 64 - 1, 0, 1, by decide, by decide⟩ = .done (Sample.truncate .byte 10)) ∧
    (threeSamples (2 ^ 63) 0 (by decide) (by decide)).lastIndex
        ⟨0, 1, 0, 3, by decide, by decide⟩ = 2 ^ 64 ∧
      (threeSamples (2 ^ 63) 0 (by decide) (by decide)).wordAverage
        ⟨0, 1, 0, 3, by decide, by decide⟩ = .outside := by
  decide

end WienerRegression.Patch
