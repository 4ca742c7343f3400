import Mathlib.Algebra.BigOperators.Ring.Finset
import Mathlib.Tactic.Ring
import WienerRegression.Proofs.WeightedTotals
import WienerRegression.StagedSums

/-!
# What the specialized method accumulates

The row accumulator of a byte row has 32 bits, and the widest row whose sums fit it leaves less room
than one more product needs. The staged sums of a row are therefore followed exactly: after any
number of steps they are the sums over the pixels so far (`stagePixels_ofPixels`). After all rows
the totals are the weighted totals of the raw products, and centring them gives the weighted totals
of the products of the deviations (`statistics_ofRows`).
-/

namespace WienerRegression

namespace SampleWidth

/-- The largest product of two samples. -/
def maxProduct (width : SampleWidth) : Nat :=
  (width.levels - 1) * (width.levels - 1)

/-- The row accumulator holds every sum of as many products as a row may have pixels. -/
theorem stage_of_le {width : SampleWidth} {count : Nat} {value : Int}
    (hcount : count ≤ width.stagedRowLimit) (hlow : 0 ≤ value)
    (hhigh : value ≤ (count * width.maxProduct : Nat)) : width.stage value = value := by
  cases width with
  | byte =>
      -- the widest row of bytes stays below the largest value by less than one product
      have hlimit : count * maxProduct .byte ≤ 33025 * 65025 :=
        Nat.mul_le_mul hcount (by decide)
      exact stage_of_fits .byte value (by omega) (by omega)
  | word => rfl

end SampleWidth

/-- A sample is at most the largest product of two samples. -/
theorem Sample.val_le_maxProduct {width : SampleWidth} (sample : Sample width) :
    sample.val ≤ width.maxProduct := by
  have hlevels : 1 ≤ width.levels - 1 := by
    cases width <;> decide
  have hsample : sample.val ≤ width.levels - 1 := Nat.le_sub_one_of_lt sample.isLt
  exact Nat.le_trans hsample (Nat.le_mul_of_pos_right _ hlevels)

/-- The product of two samples is at most the largest. -/
theorem Sample.product_le_maxProduct {width : SampleWidth} (left right : Sample width) :
    Sample.product left right ≤ width.maxProduct :=
  Nat.mul_le_mul (Nat.le_sub_one_of_lt left.isLt) (Nat.le_sub_one_of_lt right.isLt)

namespace StagedSums

variable {width : SampleWidth} {window : Window}

/-- The sum of a quantity over some pixels. -/
def sumOver (pixels : List (Observation width window))
    (quantity : Observation width window → Nat) : Int :=
  ((pixels.map quantity).sum : Nat)

/-- The exact sums over some pixels. -/
def ofPixels (pixels : List (Observation width window)) : StagedSums window where
  source := sumOver pixels fun pixel ↦ pixel.source.val
  taps := Vector.ofFn fun tap ↦ sumOver pixels fun pixel ↦ (pixel.tap tap).val
  cross := Vector.ofFn fun tap ↦
    sumOver pixels fun pixel ↦ Sample.product (pixel.tap tap) pixel.source
  auto := Vector.ofFn fun entry : Fin (window.taps * window.taps) ↦
    sumOver pixels fun pixel ↦
      Sample.product (pixel.tap (RowMajor.row entry)) (pixel.tap (RowMajor.column entry))

/-- The exact sum over the samples of a tap. -/
theorem get_taps_ofPixels (pixels : List (Observation width window)) (tap : Fin window.taps) :
    (ofPixels pixels).taps.get tap = sumOver pixels fun pixel ↦ (pixel.tap tap).val :=
  Entries.get_ofFn _ tap

/-- The exact sum over the products of a tap with the source. -/
theorem get_cross_ofPixels (pixels : List (Observation width window)) (tap : Fin window.taps) :
    (ofPixels pixels).cross.get tap =
      sumOver pixels fun pixel ↦ Sample.product (pixel.tap tap) pixel.source :=
  Entries.get_ofFn _ tap

/-- The exact sum over the products of a tap with a tap. -/
theorem get_auto_ofPixels (pixels : List (Observation width window))
    (entry : Fin (window.taps * window.taps)) :
    (ofPixels pixels).auto.get entry = sumOver pixels fun pixel ↦
      Sample.product (pixel.tap (RowMajor.row entry)) (pixel.tap (RowMajor.column entry)) :=
  Entries.get_ofFn _ entry

/-- Sums with the same entries are the same. -/
theorem ext_get {left right : StagedSums window} (hsource : left.source = right.source)
    (htaps : ∀ tap, left.taps.get tap = right.taps.get tap)
    (hcross : ∀ tap, left.cross.get tap = right.cross.get tap)
    (hauto : ∀ entry, left.auto.get entry = right.auto.get entry) : left = right := by
  cases left
  cases right
  congr 1
  · exact Vector.ext fun i hi ↦ htaps ⟨i, hi⟩
  · exact Vector.ext fun i hi ↦ hcross ⟨i, hi⟩
  · exact Vector.ext fun i hi ↦ hauto ⟨i, hi⟩

/-- A sum over pixels is at most as many bounds on its terms as there are pixels. -/
theorem sum_le_length_mul {pixels : List (Observation width window)}
    {quantity : Observation width window → Nat} {bound : Nat}
    (hquantity : ∀ pixel ∈ pixels, quantity pixel ≤ bound) :
    (pixels.map quantity).sum ≤ pixels.length * bound := by
  induction pixels with
  | nil => simp
  | cons pixel rest ih =>
      obtain ⟨hpixel, hrest⟩ := List.forall_mem_cons.mp hquantity
      have := ih hrest
      rw [List.map_cons, List.sum_cons, List.length_cons, Nat.succ_mul]
      omega

/-- Staging the terms of some pixels adds them to a sum exactly, as long as the row is not too
wide. -/
theorem stage_sumOver {before step : List (Observation width window)}
    (hfits : before.length + step.length ≤ width.stagedRowLimit)
    {quantity : Observation width window → Nat}
    (hquantity : ∀ pixel, quantity pixel ≤ width.maxProduct) :
    stage width (sumOver before quantity) (step.map quantity).sum =
      sumOver (before ++ step) quantity := by
  have hbefore := sum_le_length_mul fun pixel (_ : pixel ∈ before) ↦ hquantity pixel
  have hstep := sum_le_length_mul fun pixel (_ : pixel ∈ step) ↦ hquantity pixel
  have hadd : (before.map quantity).sum + (step.map quantity).sum ≤
      (before.length + step.length) * width.maxProduct := by
    rw [Nat.add_mul]
    omega
  -- neither the term of the step nor the sum with it wraps around
  have hwidth : step.length ≤ width.stagedRowLimit := by omega
  have hterm : width.stage ((step.map quantity).sum : Nat) = ((step.map quantity).sum : Nat) :=
    SampleWidth.stage_of_le hwidth (by omega) (by omega)
  unfold stage sumOver
  rw [hterm, SampleWidth.stage_of_le hfits (by omega) (by omega), List.map_append,
    List.sum_append, Nat.cast_add]

/-- The products of one tap are staged in the entries of its row. -/
theorem get_stageTapPairs (addUp : (Observation width window → Nat) → Nat)
    (first : Fin window.taps) (auto : Vector Int (window.taps * window.taps))
    (entry : Fin (window.taps * window.taps)) :
    (stageTapPairs addUp first auto).get entry =
      if RowMajor.row entry = first then
        stage width (auto.get entry) (addUp fun pixel ↦
          Sample.product (pixel.tap first) (pixel.tap (RowMajor.column entry)))
      else auto.get entry := by
  refine Entries.get_foldl RowMajor.column (fun entry total ↦
    if RowMajor.row entry = first then
      stage width total (addUp fun pixel ↦
        Sample.product (pixel.tap first) (pixel.tap (RowMajor.column entry)))
    else total) ?_ auto entry
  intro second auto entry
  rw [Entries.get_update]
  by_cases hcolumn : RowMajor.column entry = second
  · subst hcolumn
    simp only [RowMajor.index_eq_iff, and_true, if_true]
  · rw [if_neg hcolumn, if_neg fun h ↦ hcolumn (RowMajor.index_eq_iff.mp h).2]

/-- The sums over the samples of each tap, staged by one step. -/
theorem get_taps_stageStep (addUp : (Observation width window → Nat) → Nat)
    (staged : StagedSums window) (tap : Fin window.taps) :
    (stageStep addUp staged).taps.get tap =
      stage width (staged.taps.get tap) (addUp fun pixel ↦ (pixel.tap tap).val) := by
  have htaps : (stageStep addUp staged).taps =
      Fin.foldl window.taps (fun taps tap ↦ Entries.update taps tap (stage width ·
        (addUp fun pixel ↦ (pixel.tap tap).val))) staged.taps :=
    Entries.map_foldl StagedSums.taps (fun _ _ ↦ rfl) _
  rw [htaps]
  exact Entries.get_foldl_update (fun tap total ↦
    stage width total (addUp fun pixel ↦ (pixel.tap tap).val)) staged.taps tap

/-- The sums over the products of each tap with the source, staged by one step. -/
theorem get_cross_stageStep (addUp : (Observation width window → Nat) → Nat)
    (staged : StagedSums window) (tap : Fin window.taps) :
    (stageStep addUp staged).cross.get tap =
      stage width (staged.cross.get tap)
        (addUp fun pixel ↦ Sample.product (pixel.tap tap) pixel.source) := by
  have hcross : (stageStep addUp staged).cross =
      Fin.foldl window.taps (fun cross tap ↦ Entries.update cross tap (stage width ·
        (addUp fun pixel ↦ Sample.product (pixel.tap tap) pixel.source))) staged.cross :=
    Entries.map_foldl StagedSums.cross (fun _ _ ↦ rfl) _
  rw [hcross]
  exact Entries.get_foldl_update (fun tap total ↦
    stage width total (addUp fun pixel ↦ Sample.product (pixel.tap tap) pixel.source))
    staged.cross tap

/-- The sums over the products of each tap with each tap, staged by one step. -/
theorem get_auto_stageStep (addUp : (Observation width window → Nat) → Nat)
    (staged : StagedSums window) (entry : Fin (window.taps * window.taps)) :
    (stageStep addUp staged).auto.get entry =
      stage width (staged.auto.get entry) (addUp fun pixel ↦
        Sample.product (pixel.tap (RowMajor.row entry)) (pixel.tap (RowMajor.column entry))) := by
  have hauto : (stageStep addUp staged).auto =
      Fin.foldl window.taps (fun auto tap ↦ stageTapPairs addUp tap auto) staged.auto :=
    Entries.map_foldl StagedSums.auto (fun _ _ ↦ rfl) _
  rw [hauto]
  refine Entries.get_foldl RowMajor.row (fun entry total ↦ stage width total (addUp fun pixel ↦
    Sample.product (pixel.tap (RowMajor.row entry)) (pixel.tap (RowMajor.column entry)))) ?_
    staged.auto entry
  intro first auto entry
  rw [get_stageTapPairs]
  by_cases hrow : RowMajor.row entry = first
  · subst hrow
    rfl
  · rw [if_neg hrow, if_neg hrow]

/-- The sum over the source samples, staged by one step. -/
theorem source_stageStep (addUp : (Observation width window → Nat) → Nat)
    (staged : StagedSums window) :
    (stageStep addUp staged).source =
      stage width staged.source (addUp fun pixel ↦ pixel.source.val) :=
  Entries.foldl_invariant (fun _ (passed : StagedSums window) ↦ passed.source =
    stage width staged.source (addUp fun pixel ↦ pixel.source.val)) rfl fun _ _ h ↦ h

/-- A step along a row adds the terms of its pixels to the sums exactly, as long as the row is not
too wide. -/
theorem stageStep_ofPixels {before step : List (Observation width window)}
    {addUp : (Observation width window → Nat) → Nat}
    (haddUp : ∀ quantity, addUp quantity = (step.map quantity).sum)
    (hfits : before.length + step.length ≤ width.stagedRowLimit) :
    stageStep addUp (ofPixels before) = ofPixels (before ++ step) := by
  refine ext_get ?_ ?_ ?_ ?_
  · rw [source_stageStep, haddUp]
    exact stage_sumOver hfits fun pixel ↦ pixel.source.val_le_maxProduct
  · intro tap
    rw [get_taps_stageStep, haddUp, get_taps_ofPixels, get_taps_ofPixels]
    exact stage_sumOver hfits fun pixel ↦ (pixel.tap tap).val_le_maxProduct
  · intro tap
    rw [get_cross_stageStep, haddUp, get_cross_ofPixels, get_cross_ofPixels]
    exact stage_sumOver hfits fun pixel ↦ Sample.product_le_maxProduct _ _
  · intro entry
    rw [get_auto_stageStep, haddUp, get_auto_ofPixels, get_auto_ofPixels]
    exact stage_sumOver hfits fun pixel ↦ Sample.product_le_maxProduct _ _

/-- Staging the rest of a row that is not too wide gives the exact sums over all of its pixels. -/
theorem stagePixels_ofPixels (before pixels : List (Observation width window))
    (hfits : before.length + pixels.length ≤ width.stagedRowLimit) :
    stagePixels pixels (ofPixels before) = ofPixels (before ++ pixels) := by
  match pixels with
  -- the recursion takes two pixels at a time, and a last one alone if their number is odd
  | first :: second :: rest =>
      simp only [List.length_cons] at hfits
      have hstep : stageStep (fun quantity ↦ quantity first + quantity second)
          (ofPixels before) = ofPixels (before ++ [first, second]) :=
        stageStep_ofPixels (by simp) (by simp only [List.length_cons, List.length_nil]; omega)
      rw [stagePixels, hstep, stagePixels_ofPixels _ rest]
      · rw [List.append_assoc]
        rfl
      · simp only [List.length_append, List.length_cons, List.length_nil]
        omega
  | [last] =>
      rw [stagePixels]
      exact stageStep_ofPixels (by simp) hfits
  | [] => rw [stagePixels, List.append_nil]

/-- The sums over no pixels are zero. -/
theorem ofPixels_nil : ofPixels ([] : List (Observation width window)) = zero window := by
  apply ext_get <;> simp [ofPixels, zero, sumOver, Vector.get]

/-- The staged sums of a row that is not too wide are exact. -/
theorem ofRow_eq {pixels : List (Observation width window)}
    (hfits : pixels.length ≤ width.stagedRowLimit) : ofRow pixels = ofPixels pixels := by
  have hzero : zero window = ofPixels ([] : List (Observation width window)) := ofPixels_nil.symm
  show stagePixels pixels (zero window) = ofPixels pixels
  rw [hzero]
  exact stagePixels_ofPixels [] pixels (by simpa using hfits)

/-- The weighted totals of the raw samples and products over some rows. -/
def ofTotals (rows : List (WeightedRow width window)) : StagedSums window where
  source := WeightedRow.total rows fun pixel ↦ pixel.source.val
  taps := Vector.ofFn fun tap ↦ WeightedRow.total rows fun pixel ↦ (pixel.tap tap).val
  cross := Vector.ofFn fun tap ↦
    WeightedRow.total rows fun pixel ↦ Sample.product (pixel.tap tap) pixel.source
  auto := Vector.ofFn fun entry : Fin (window.taps * window.taps) ↦
    WeightedRow.total rows fun pixel ↦
      Sample.product (pixel.tap (RowMajor.row entry)) (pixel.tap (RowMajor.column entry))

/-- Folding a row adds its exact sum as often as the row counts. -/
theorem total_append_sumOver (before : List (WeightedRow width window))
    (row : WeightedRow width window) (quantity : Observation width window → Nat) :
    WeightedRow.total before (fun pixel ↦ (quantity pixel : Int)) +
        sumOver row.pixels quantity * row.weight =
      WeightedRow.total (before ++ [row]) fun pixel ↦ (quantity pixel : Int) := by
  rw [WeightedRow.total_append_singleton, sumOver, Nat.cast_list_sum, List.map_map,
    Int.mul_comm]
  rfl

/-- Folding the sums of a row that is not too wide into the totals gives the totals with the
row. -/
theorem addWeighted_ofTotals (before : List (WeightedRow width window))
    {row : WeightedRow width window} (hfits : row.pixels.length ≤ width.stagedRowLimit) :
    (ofTotals before).addWeighted (ofRow row.pixels) row.weight = ofTotals (before ++ [row]) := by
  rw [ofRow_eq hfits]
  refine ext_get ?_ ?_ ?_ ?_
  · exact total_append_sumOver before row fun pixel ↦ pixel.source.val
  · intro tap
    simp only [addWeighted, ofTotals, Entries.get_zipWith, Entries.get_ofFn, get_taps_ofPixels]
    exact total_append_sumOver before row fun pixel ↦ (pixel.tap tap).val
  · intro tap
    simp only [addWeighted, ofTotals, Entries.get_zipWith, Entries.get_ofFn, get_cross_ofPixels]
    exact total_append_sumOver before row fun pixel ↦
      Sample.product (pixel.tap tap) pixel.source
  · intro entry
    simp only [addWeighted, ofTotals, Entries.get_zipWith, Entries.get_ofFn, get_auto_ofPixels]
    exact total_append_sumOver before row fun pixel ↦
      Sample.product (pixel.tap (RowMajor.row entry)) (pixel.tap (RowMajor.column entry))

/-- Folding the rest of the rows gives the totals over all of them, if no row is too wide. -/
theorem foldl_ofTotals (before : List (WeightedRow width window))
    {rows : List (WeightedRow width window)}
    (hfits : ∀ row ∈ rows, row.pixels.length ≤ width.stagedRowLimit) :
    rows.foldl (fun totals row ↦ totals.addWeighted (ofRow row.pixels) row.weight)
      (ofTotals before) = ofTotals (before ++ rows) := by
  induction rows generalizing before with
  | nil => rw [List.foldl_nil, List.append_nil]
  | cons row rest ih =>
      rw [List.foldl_cons, addWeighted_ofTotals before (hfits row (by simp)),
        ih (before ++ [row]) fun other hother ↦ hfits other (by simp [hother]),
        List.append_assoc]
      rfl

/-- The totals over all rows are the weighted totals, if no row is too wide. -/
theorem ofRows_eq {rows : List (WeightedRow width window)}
    (hfits : ∀ row ∈ rows, row.pixels.length ≤ width.stagedRowLimit) :
    ofRows rows = ofTotals rows := by
  have hzero : zero window = ofTotals ([] : List (WeightedRow width window)) := by
    apply ext_get <;> simp [ofTotals, zero, Vector.get]
  show rows.foldl (fun totals row ↦ totals.addWeighted (ofRow row.pixels) row.weight)
    (zero window) = ofTotals rows
  rw [hzero]
  exact foldl_ofTotals [] hfits

/-- Centring the totals of rows that are not too wide gives the divided weighted totals of the
products of the deviations, if the rows stand for as many pixels as are counted. -/
theorem statistics_ofRows (depth : BitDepth) (average : Int)
    {rows : List (WeightedRow width window)}
    (hfits : ∀ row ∈ rows, row.pixels.length ≤ width.stagedRowLimit) {pixelCount : Int}
    (hcount : WeightedRow.total rows (fun _ ↦ 1) = pixelCount) :
    (∀ tap, ((ofRows rows).statistics depth average pixelCount).cross.get tap =
      (WeightedRow.total rows fun pixel ↦
        ((pixel.tap tap).val - average) * (pixel.source.val - average)).tdiv depth.divisor) ∧
    ∀ entry, ((ofRows rows).statistics depth average pixelCount).auto.get entry =
      (WeightedRow.total rows fun pixel ↦
        ((pixel.tap (RowMajor.row entry)).val - average) *
          ((pixel.tap (RowMajor.column entry)).val - average)).tdiv depth.divisor := by
  rw [ofRows_eq hfits]
  refine ⟨?_, ?_⟩
  · intro tap
    rw [statistics, Entries.get_ofFn, WeightedRow.total_centred, hcount, centre]
    simp only [ofTotals, Entries.get_ofFn, Sample.product, Nat.cast_mul]
    congr 2
    ring
  · intro entry
    rw [statistics, Entries.get_ofFn, WeightedRow.total_centred, hcount, centre]
    simp only [ofTotals, Entries.get_ofFn, Sample.product, Nat.cast_mul]

end StagedSums

end WienerRegression
