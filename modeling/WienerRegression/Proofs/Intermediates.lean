import WienerRegression.Proofs.Additions
import WienerRegression.Proofs.SampleBounds

/-!
# The values on the way to the statistics

Totals and averages are integers here, and a program would keep them in 64-bit words. This module
says when words are enough: if no sample that is read exceeds a bound, and twice the number of
pixels times the square of the bound fits a signed word, then so does every value that either method
computes on the way (`Call.run_intermediates_fit`). The reference method is followed addition by
addition. The specialized method is followed through the rows that are staged, the totals after each
row, and the terms of the centring, where two sums of raw products meet before they cancel.
-/

namespace WienerRegression

/-- A value that a signed 64-bit word can hold. -/
def FitsWord (value : Int) : Prop :=
  -(2 ^ 63) ≤ value ∧ value ≤ 2 ^ 63 - 1

/-- A value within a bound that a signed word can hold fits the word. -/
theorem fitsWord_of_abs_le {value : Int} {bound : Nat} (h : |value| ≤ bound)
    (hbound : bound ≤ 2 ^ 63 - 1) : FitsWord value := by
  obtain ⟨hlow, hhigh⟩ := abs_le.mp h
  unfold FitsWord
  omega

/-- A value between zero and a bound that a signed word can hold fits the word. -/
theorem fitsWord_of_le {value : Int} {bound : Nat} (hlow : 0 ≤ value) (hhigh : value ≤ bound)
    (hbound : bound ≤ 2 ^ 63 - 1) : FitsWord value := by
  unfold FitsWord
  omega

variable {width : SampleWidth} {window : Window}

/-! ## The reference method -/

namespace CenteredSums

/-- Every value that the reference method computes for some rows fits a word: the deviation of a tap
times the weight of its row, every term, and every running total after any number of additions. -/
structure Fits (average : Int) (rows : List (WeightedRow width window)) : Prop where
  weighted : ∀ row ∈ rows, ∀ pixel ∈ row.pixels, ∀ tap,
    FitsWord (row.weight * deviation average (pixel.tap tap))
  terms : ∀ addition ∈ additions average rows, FitsWord addition.term
  totals : ∀ storage count place, FitsWord
    ((((additions average rows).take count).foldl Addition.apply (clear storage)).entryAt place)

/-- A cleared entry is zero. -/
theorem entryAt_clear (storage : Statistics window) (place : Statistics.Place window) :
    (clear storage).entryAt place = 0 := by
  cases place <;> simp [clear, Statistics.entryAt, Vector.get]

end CenteredSums

/-- A row stands for no more pixels than all rows do. -/
theorem WeightedRow.weight_mul_length_le_total {rows : List (WeightedRow width window)}
    {row : WeightedRow width window} (hrow : row ∈ rows) :
    (row.weight * row.pixels.length : Int) ≤ total rows fun _ ↦ 1 := by
  have hsum : row.weight * (row.pixels.map fun _ ↦ (1 : Int)).sum ≤ total rows fun _ ↦ 1 :=
    weighted_sum_le_total (fun _ ↦ Int.one_nonneg) hrow
  simpa using hsum

/-- A row that has a pixel counts no more often than all rows have pixels to stand for. -/
theorem WeightedRow.weight_le_total {rows : List (WeightedRow width window)}
    {row : WeightedRow width window} (hrow : row ∈ rows)
    {pixel : Observation width window} (hpixel : pixel ∈ row.pixels) :
    (row.weight : Int) ≤ total rows fun _ ↦ 1 := by
  have hlength : (1 : Int) ≤ row.pixels.length :=
    Int.ofNat_le.mpr (List.length_pos_of_mem hpixel)
  calc (row.weight : Int) = row.weight * 1 := (Int.mul_one _).symm
    _ ≤ row.weight * row.pixels.length :=
        Int.mul_le_mul_of_nonneg_left hlength (Int.natCast_nonneg _)
    _ ≤ total rows fun _ ↦ 1 := weight_mul_length_le_total hrow

section Rows

variable {average bound pixelCount : Nat} {rows : List (WeightedRow width window)}

namespace CenteredSums

/-- The terms for the pixels of a row are within the weighted square of the bound. -/
theorem abs_term_le_of_atMost (haverage : average ≤ bound)
    (hpixels : ∀ row ∈ rows, ∀ pixel ∈ row.pixels, pixel.AtMost bound) :
    ∀ row ∈ rows, ∀ pixel ∈ row.pixels, ∀ addition ∈ pixelAdditions average row.weight pixel,
      |addition.term| ≤ row.weight * ((bound : Int) * bound) := by
  intro row hrow pixel hpixel
  have hpixel := hpixels row hrow pixel hpixel
  refine abs_term_pixelAdditions_le ?_ ?_
  · intro tap
    exact abs_mul_deviation_le haverage (hpixel.tap_le tap) hpixel.source_le
  · intro first second
    exact abs_mul_deviation_le haverage (hpixel.tap_le first) (hpixel.tap_le second)

/-- The reference method needs no more than words for rows of bounded samples. -/
theorem fits_of_atMost (haverage : average ≤ bound)
    (hpixels : ∀ row ∈ rows, ∀ pixel ∈ row.pixels, pixel.AtMost bound)
    (hcount : WeightedRow.total rows (fun _ ↦ 1) = pixelCount)
    (hfits : pixelCount * bound ^ 2 ≤ 2 ^ 63 - 1) : Fits average rows where
  weighted := by
    intro row hrow pixel hpixel tap
    have hweight := WeightedRow.weight_le_total hrow hpixel
    rw [hcount] at hweight
    have hdeviation := abs_deviation_le haverage ((hpixels row hrow pixel hpixel).tap_le tap)
    have hsquare : (bound : Int) ≤ (bound ^ 2 : Nat) :=
      Int.ofNat_le.mpr (Nat.le_self_pow two_ne_zero bound)
    refine fitsWord_of_abs_le ?_ hfits
    rw [abs_mul, Nat.abs_cast, Nat.cast_mul]
    exact mul_le_mul hweight (Int.le_trans hdeviation hsquare) (abs_nonneg _)
      (Int.natCast_nonneg _)
  terms := by
    intro addition haddition
    obtain ⟨row, hrow, haddition⟩ := List.mem_flatMap.mp haddition
    obtain ⟨pixel, hpixel, haddition⟩ := List.mem_flatMap.mp haddition
    have hweight := WeightedRow.weight_le_total hrow hpixel
    rw [hcount] at hweight
    refine fitsWord_of_abs_le ?_ hfits
    calc |addition.term|
        ≤ row.weight * ((bound : Int) * bound) :=
          abs_term_le_of_atMost haverage hpixels row hrow pixel hpixel addition haddition
      _ ≤ pixelCount * ((bound : Int) * bound) :=
          Int.mul_le_mul_of_nonneg_right hweight
            (Int.mul_nonneg (Int.natCast_nonneg _) (Int.natCast_nonneg _))
      _ = (pixelCount * bound ^ 2 : Nat) := by
          push_cast
          rw [pow_two]
  totals := by
    intro storage count place
    have hamount := amount_additions_le (Int.mul_nonneg (Int.natCast_nonneg bound)
      (Int.natCast_nonneg bound)) (abs_term_le_of_atMost haverage hpixels) place
    have hrunning := abs_entryAt_foldl_take_le place (additions average rows) (clear storage) count
    rw [WeightedRow.total_const, hcount] at hamount
    rw [entryAt_clear, abs_zero, Int.zero_add] at hrunning
    refine fitsWord_of_abs_le (Int.le_trans hrunning ?_) hfits
    push_cast
    rwa [pow_two]

end CenteredSums

/-! ## The specialized method -/

namespace StagedSums

/-- A condition on the sum of the source samples and on every other sum. -/
structure Each (condition : Int → Prop) (sums : StagedSums window) : Prop where
  source : condition sums.source
  taps : ∀ tap, condition (sums.taps.get tap)
  cross : ∀ tap, condition (sums.cross.get tap)
  auto : ∀ entry, condition (sums.auto.get entry)

/-- What centring one sum of products computes on the way: the sum of the two sums of its factors,
also times the average, the sum of products raised by the squares of the average, and the
difference. -/
structure CentreFits (average pixelCount products firstSum secondSum : Int) : Prop where
  factors : FitsWord (firstSum + secondSum)
  scaled : FitsWord (average * (firstSum + secondSum))
  raised : FitsWord (products + average * average * pixelCount)
  centred : FitsWord (centre average pixelCount products firstSum secondSum)

/-- Every value that the specialized method computes for some rows fits a word: the sums over any
stretch of a row, such as one pixel, a pair, or all pixels so far; the sums of a row times its
weight; the totals after any number of rows; the squares of the average; and what the centring of
each total computes. -/
structure Fits (average pixelCount : Int) (rows : List (WeightedRow width window)) : Prop where
  staged : ∀ row ∈ rows, ∀ stretch, stretch <:+: row.pixels → (ofRow stretch).Each FitsWord
  weighted : ∀ row ∈ rows, ((zero window).addWeighted (ofRow row.pixels) row.weight).Each FitsWord
  totals : ∀ count, (ofRows (rows.take count)).Each FitsWord
  square : FitsWord (average * average)
  squares : FitsWord (average * average * pixelCount)
  cross_centre : ∀ tap, CentreFits average pixelCount ((ofRows rows).cross.get tap)
    (ofRows rows).source ((ofRows rows).taps.get tap)
  auto_centre : ∀ entry, CentreFits average pixelCount ((ofRows rows).auto.get entry)
    ((ofRows rows).taps.get (RowMajor.row entry)) ((ofRows rows).taps.get (RowMajor.column entry))

/-- A sample within the bound is within its square. -/
theorem le_sq_of_le {value : Nat} (h : value ≤ bound) : value ≤ bound ^ 2 :=
  Nat.le_trans h (Nat.le_self_pow two_ne_zero bound)

/-- A product of two samples within the bound is within its square. -/
theorem product_le_sq {left right : Sample width} (hleft : left.val ≤ bound)
    (hright : right.val ≤ bound) : Sample.product left right ≤ bound ^ 2 := by
  rw [pow_two]
  exact Nat.mul_le_mul hleft hright

/-- What holds of the sum of every quantity within the square of the bound holds of all sums over
some pixels. -/
theorem each_ofPixels {condition : Int → Prop} {pixels : List (Observation width window)}
    (hpixels : ∀ pixel ∈ pixels, pixel.AtMost bound)
    (h : ∀ quantity : Observation width window → Nat,
      (∀ pixel ∈ pixels, quantity pixel ≤ bound ^ 2) → condition (sumOver pixels quantity)) :
    (ofPixels pixels).Each condition where
  source := h _ fun pixel hpixel ↦ le_sq_of_le (hpixels pixel hpixel).source_le
  taps := by
    intro tap
    rw [get_taps_ofPixels]
    exact h _ fun pixel hpixel ↦ le_sq_of_le ((hpixels pixel hpixel).tap_le tap)
  cross := by
    intro tap
    rw [get_cross_ofPixels]
    exact h _ fun pixel hpixel ↦
      product_le_sq ((hpixels pixel hpixel).tap_le tap) (hpixels pixel hpixel).source_le
  auto := by
    intro entry
    rw [get_auto_ofPixels]
    exact h _ fun pixel hpixel ↦
      product_le_sq ((hpixels pixel hpixel).tap_le _) ((hpixels pixel hpixel).tap_le _)

/-- What holds of the total of every quantity within the square of the bound holds of all totals
over some rows. -/
theorem each_ofTotals {condition : Int → Prop}
    (hpixels : ∀ row ∈ rows, ∀ pixel ∈ row.pixels, pixel.AtMost bound)
    (h : ∀ quantity : Observation width window → Nat,
      (∀ row ∈ rows, ∀ pixel ∈ row.pixels, quantity pixel ≤ bound ^ 2) →
      condition (WeightedRow.total rows fun pixel ↦ (quantity pixel : Int))) :
    (ofTotals rows).Each condition where
  source := h _ fun row hrow pixel hpixel ↦ le_sq_of_le (hpixels row hrow pixel hpixel).source_le
  taps := by
    intro tap
    rw [ofTotals, Entries.get_ofFn]
    exact h _ fun row hrow pixel hpixel ↦ le_sq_of_le ((hpixels row hrow pixel hpixel).tap_le tap)
  cross := by
    intro tap
    rw [ofTotals, Entries.get_ofFn]
    exact h _ fun row hrow pixel hpixel ↦ product_le_sq
      ((hpixels row hrow pixel hpixel).tap_le tap) (hpixels row hrow pixel hpixel).source_le
  auto := by
    intro entry
    rw [ofTotals, Entries.get_ofFn]
    exact h _ fun row hrow pixel hpixel ↦ product_le_sq
      ((hpixels row hrow pixel hpixel).tap_le _) ((hpixels row hrow pixel hpixel).tap_le _)

/-- Folding sums into zero leaves each of them times the weight. -/
theorem Each.addWeighted_zero {condition : Int → Prop} {sums : StagedSums window} {weight : Int}
    (h : sums.Each fun value ↦ condition (value * weight)) :
    ((zero window).addWeighted sums weight).Each condition where
  source := by simpa [addWeighted, zero] using h.source
  taps := by
    intro tap
    rw [addWeighted, Entries.get_zipWith]
    simpa [zero, Vector.get] using h.taps tap
  cross := by
    intro tap
    rw [addWeighted, Entries.get_zipWith]
    simpa [zero, Vector.get] using h.cross tap
  auto := by
    intro entry
    rw [addWeighted, Entries.get_zipWith]
    simpa [zero, Vector.get] using h.auto entry

/-- The total of a quantity is at most one bound for each pixel that the rows stand for. -/
theorem total_le_pixelCount_mul {limit : Nat}
    (hcount : WeightedRow.total rows (fun _ ↦ 1) ≤ pixelCount)
    {quantity : Observation width window → Nat}
    (hquantity : ∀ row ∈ rows, ∀ pixel ∈ row.pixels, quantity pixel ≤ limit) :
    WeightedRow.total rows (fun pixel ↦ (quantity pixel : Int)) ≤ (pixelCount * limit : Nat) := by
  calc WeightedRow.total rows (fun pixel ↦ (quantity pixel : Int))
      ≤ WeightedRow.total rows fun _ ↦ (limit : Int) :=
        WeightedRow.total_le_total fun row hrow pixel hpixel ↦
          Int.ofNat_le.mpr (hquantity row hrow pixel hpixel)
    _ = WeightedRow.total rows (fun _ ↦ 1) * limit := WeightedRow.total_const rows limit
    _ ≤ pixelCount * limit := Int.mul_le_mul_of_nonneg_right hcount (Int.natCast_nonneg _)
    _ = (pixelCount * limit : Nat) := (Nat.cast_mul _ _).symm

/-- The squares of the average, one for each pixel, add up to no more than as many squares of the
bound. -/
theorem squares_le_pixelCount_mul (haverage : average ≤ bound) :
    average * average * pixelCount ≤ pixelCount * bound ^ 2 := by
  rw [pow_two, Nat.mul_comm pixelCount]
  exact Nat.mul_le_mul_right _ (Nat.mul_le_mul haverage haverage)

/-- Centring needs no more than words if the sums of products and of the two factors are those of so
many pixels with bounded samples. -/
theorem centreFits_of_le {products firstSum secondSum : Int} (haverage : average ≤ bound)
    (hproducts : 0 ≤ products ∧ products ≤ (pixelCount * bound ^ 2 : Nat))
    (hfirst : 0 ≤ firstSum ∧ firstSum ≤ (pixelCount * bound : Nat))
    (hsecond : 0 ≤ secondSum ∧ secondSum ≤ (pixelCount * bound : Nat))
    (hfits : 2 * pixelCount * bound ^ 2 ≤ 2 ^ 63 - 1) :
    CentreFits average pixelCount products firstSum secondSum := by
  rw [Nat.mul_assoc] at hfits
  have hlinear : pixelCount * bound ≤ pixelCount * bound ^ 2 :=
    Nat.mul_le_mul_left _ (Nat.le_self_pow two_ne_zero bound)
  have hsquares : average * average * pixelCount ≤ pixelCount * bound ^ 2 :=
    squares_le_pixelCount_mul haverage
  have hscaled : (average : Int) * (firstSum + secondSum) ≤
      (2 * (pixelCount * bound ^ 2) : Nat) := by
    calc (average : Int) * (firstSum + secondSum)
        ≤ bound * (2 * (pixelCount * bound : Nat)) :=
          mul_le_mul (Int.ofNat_le.mpr haverage) (by omega) (by omega) (Int.natCast_nonneg _)
      _ = (2 * (pixelCount * bound ^ 2) : Nat) := by
          push_cast
          ring
  have hscaledNonneg : 0 ≤ (average : Int) * (firstSum + secondSum) :=
    Int.mul_nonneg (Int.natCast_nonneg _) (by omega)
  have hraised : 0 ≤ products + (average : Int) * average * pixelCount ∧
      products + (average : Int) * average * pixelCount ≤
        (2 * (pixelCount * bound ^ 2) : Nat) := by
    have hcast : (average : Int) * average * pixelCount =
        (average * average * pixelCount : Nat) := by push_cast; ring
    rw [hcast]
    omega
  constructor
  · exact fitsWord_of_le (by omega) (by omega : _ ≤ ((2 * (pixelCount * bound ^ 2) : Nat) : Int))
      hfits
  · exact fitsWord_of_le hscaledNonneg hscaled hfits
  · exact fitsWord_of_le hraised.1 hraised.2 hfits
  · refine fitsWord_of_abs_le (abs_le.mpr ?_) hfits
    unfold centre
    omega

/-- The totals of bounded samples over some rows are within the bounds for centring them. -/
theorem centreFits_ofTotals {quantity first second : Observation width window → Nat}
    (haverage : average ≤ bound) (hcount : WeightedRow.total rows (fun _ ↦ 1) ≤ pixelCount)
    (hquantity : ∀ row ∈ rows, ∀ pixel ∈ row.pixels, quantity pixel ≤ bound ^ 2)
    (hfirst : ∀ row ∈ rows, ∀ pixel ∈ row.pixels, first pixel ≤ bound)
    (hsecond : ∀ row ∈ rows, ∀ pixel ∈ row.pixels, second pixel ≤ bound)
    (hfits : 2 * pixelCount * bound ^ 2 ≤ 2 ^ 63 - 1) :
    CentreFits average pixelCount (WeightedRow.total rows fun pixel ↦ (quantity pixel : Int))
      (WeightedRow.total rows fun pixel ↦ (first pixel : Int))
      (WeightedRow.total rows fun pixel ↦ (second pixel : Int)) := by
  have hnonneg : ∀ quantity : Observation width window → Nat,
      0 ≤ WeightedRow.total rows fun pixel ↦ (quantity pixel : Int) :=
    fun quantity ↦ WeightedRow.total_nonneg fun _ _ pixel _ ↦ Int.natCast_nonneg (quantity pixel)
  exact centreFits_of_le haverage ⟨hnonneg quantity, total_le_pixelCount_mul hcount hquantity⟩
    ⟨hnonneg first, total_le_pixelCount_mul hcount hfirst⟩
    ⟨hnonneg second, total_le_pixelCount_mul hcount hsecond⟩ hfits

/-- The sums over any stretch of a row of bounded samples fit words. -/
theorem each_stretch_fits {row : WeightedRow width window}
    (hpixels : ∀ pixel ∈ row.pixels, pixel.AtMost bound)
    (hwidth : row.pixels.length ≤ width.stagedRowLimit) (hlength : row.pixels.length ≤ pixelCount)
    (hfits : pixelCount * bound ^ 2 ≤ 2 ^ 63 - 1) {stretch : List (Observation width window)}
    (hstretch : stretch <:+: row.pixels) : (ofRow stretch).Each FitsWord := by
  rw [ofRow_eq (Nat.le_trans hstretch.length_le hwidth)]
  refine each_ofPixels (fun pixel hpixel ↦ hpixels pixel (hstretch.subset hpixel)) ?_
  intro quantity hquantity
  have hsum : (stretch.map quantity).sum ≤ pixelCount * bound ^ 2 :=
    Nat.le_trans (sum_le_length_mul hquantity)
      (Nat.mul_le_mul_right _ (Nat.le_trans hstretch.length_le hlength))
  exact fitsWord_of_le (Int.natCast_nonneg _) (Int.ofNat_le.mpr hsum) hfits

/-- The sums over a row of bounded samples, times the weight of the row, fit words. -/
theorem each_weighted_fits {row : WeightedRow width window}
    (hpixels : ∀ pixel ∈ row.pixels, pixel.AtMost bound)
    (hwidth : row.pixels.length ≤ width.stagedRowLimit)
    (hcount : (row.weight * row.pixels.length : Int) ≤ pixelCount)
    (hfits : pixelCount * bound ^ 2 ≤ 2 ^ 63 - 1) :
    ((zero window).addWeighted (ofRow row.pixels) row.weight).Each FitsWord := by
  refine Each.addWeighted_zero ?_
  rw [ofRow_eq hwidth]
  refine each_ofPixels hpixels ?_
  intro quantity hquantity
  have hsum : sumOver row.pixels quantity * row.weight ≤ (pixelCount * bound ^ 2 : Nat) := by
    calc sumOver row.pixels quantity * row.weight
        ≤ (row.pixels.length * bound ^ 2 : Nat) * row.weight :=
          Int.mul_le_mul_of_nonneg_right
            (Int.ofNat_le.mpr (sum_le_length_mul hquantity)) (Int.natCast_nonneg _)
      _ = row.weight * row.pixels.length * (bound ^ 2 : Nat) := by
          push_cast
          ring
      _ ≤ pixelCount * (bound ^ 2 : Nat) :=
          Int.mul_le_mul_of_nonneg_right hcount (Int.natCast_nonneg _)
      _ = (pixelCount * bound ^ 2 : Nat) := (Nat.cast_mul _ _).symm
  exact fitsWord_of_le (Int.mul_nonneg (Int.natCast_nonneg _) (Int.natCast_nonneg _)) hsum hfits

/-- The totals over rows of bounded samples fit words. -/
theorem each_ofRows_fits (hpixels : ∀ row ∈ rows, ∀ pixel ∈ row.pixels, pixel.AtMost bound)
    (hwidth : ∀ row ∈ rows, row.pixels.length ≤ width.stagedRowLimit)
    (hcount : WeightedRow.total rows (fun _ ↦ 1) ≤ pixelCount)
    (hfits : pixelCount * bound ^ 2 ≤ 2 ^ 63 - 1) : (ofRows rows).Each FitsWord := by
  rw [ofRows_eq hwidth]
  refine each_ofTotals hpixels ?_
  intro quantity hquantity
  exact fitsWord_of_le (WeightedRow.total_nonneg fun _ _ pixel _ ↦ Int.natCast_nonneg _)
    (total_le_pixelCount_mul hcount hquantity) hfits

/-- The specialized method needs no more than words for rows of bounded samples. -/
theorem fits_of_atMost (haverage : average ≤ bound)
    (hpixels : ∀ row ∈ rows, ∀ pixel ∈ row.pixels, pixel.AtMost bound)
    (hcount : WeightedRow.total rows (fun _ ↦ 1) = pixelCount) (hpos : 0 < pixelCount)
    (hwidth : ∀ row ∈ rows, row.pixels.length ≤ width.stagedRowLimit)
    (hlength : ∀ row ∈ rows, row.pixels.length ≤ pixelCount)
    (hfits : 2 * pixelCount * bound ^ 2 ≤ 2 ^ 63 - 1) : Fits average pixelCount rows := by
  -- all values before the centring need half of what centring needs
  have hhalf : pixelCount * bound ^ 2 ≤ 2 ^ 63 - 1 := by
    rw [Nat.mul_assoc] at hfits
    omega
  constructor
  case staged =>
    intro row hrow stretch hstretch
    exact each_stretch_fits (hpixels row hrow) (hwidth row hrow) (hlength row hrow) hhalf hstretch
  case weighted =>
    intro row hrow
    exact each_weighted_fits (hpixels row hrow) (hwidth row hrow)
      (hcount ▸ WeightedRow.weight_mul_length_le_total hrow) hhalf
  case totals =>
    intro count
    have hrows : ∀ row ∈ rows.take count, row ∈ rows := fun row hrow ↦ List.mem_of_mem_take hrow
    refine each_ofRows_fits (fun row hrow ↦ hpixels row (hrows row hrow))
      (fun row hrow ↦ hwidth row (hrows row hrow)) ?_ hhalf
    rw [← hcount]
    exact WeightedRow.total_take_le (fun _ ↦ Int.one_nonneg) count
  case square =>
    have hsquare : average * average ≤ pixelCount * bound ^ 2 := by
      rw [pow_two]
      exact Nat.le_trans (Nat.mul_le_mul haverage haverage) (Nat.le_mul_of_pos_left _ hpos)
    rw [← Nat.cast_mul]
    exact fitsWord_of_le (Int.natCast_nonneg _) (Int.ofNat_le.mpr hsquare) hhalf
  case squares =>
    rw [← Nat.cast_mul, ← Nat.cast_mul]
    exact fitsWord_of_le (Int.natCast_nonneg _)
      (Int.ofNat_le.mpr (squares_le_pixelCount_mul haverage)) hhalf
  case cross_centre =>
    intro tap
    rw [ofRows_eq hwidth]
    simp only [ofTotals, Entries.get_ofFn]
    exact centreFits_ofTotals haverage hcount.le
      (fun row hrow pixel hpixel ↦ product_le_sq ((hpixels row hrow pixel hpixel).tap_le tap)
        (hpixels row hrow pixel hpixel).source_le)
      (fun row hrow pixel hpixel ↦ (hpixels row hrow pixel hpixel).source_le)
      (fun row hrow pixel hpixel ↦ (hpixels row hrow pixel hpixel).tap_le tap) hfits
  case auto_centre =>
    intro entry
    rw [ofRows_eq hwidth]
    simp only [ofTotals, Entries.get_ofFn]
    exact centreFits_ofTotals haverage hcount.le
      (fun row hrow pixel hpixel ↦ product_le_sq ((hpixels row hrow pixel hpixel).tap_le _)
        ((hpixels row hrow pixel hpixel).tap_le _))
      (fun row hrow pixel hpixel ↦ (hpixels row hrow pixel hpixel).tap_le _)
      (fun row hrow pixel hpixel ↦ (hpixels row hrow pixel hpixel).tap_le _) hfits

end StagedSums

end Rows

/-! ## A call -/

/-- Every pixel of a rectangle is a pixel of another one. -/
structure Rect.Within (part rect : Rect) : Prop where
  left_le : rect.left ≤ part.left
  right_le : part.right ≤ rect.right
  top_le : rect.top ≤ part.top
  bottom_le : part.bottom ≤ rect.bottom

/-- A rectangle within another one has no more pixels. -/
theorem Rect.Within.area_le {part rect : Rect} (h : part.Within rect) : part.area ≤ rect.area := by
  obtain ⟨hleft, hright, htop, hbottom⟩ := h
  refine Nat.mul_le_mul ?_ ?_
  · unfold Rect.width
    omega
  · unfold Rect.height
    omega

/-- The last pixel of a rectangle within a unit is in the buffer if that of the unit is. -/
theorem Rect.Within.lastIndex_le {part rect : Rect} (h : part.Within rect) (patch : Patch width) :
    patch.lastIndex part ≤ patch.lastIndex rect :=
  patch.index_le_index (Nat.sub_le_sub_right h.right_le 1) (Nat.sub_le_sub_right h.bottom_le 1)

namespace Call

variable {call : Call width}

/-- With this average and these observations, everything that either method computes for the call
fits words. The sum that is averaged is taken row by row and along each row, so that every value on
the way to it is the sum over a part of the unit; the sums are unsigned. The average is exact and
within the bound on the samples. -/
structure IntermediatesFit (call : Call width) (bound : Nat) (average : Sample width)
    (rows : List (WeightedRow width call.window)) : Prop where
  sum_lt : ∀ part : Rect, part.Within call.rect →
    ∃ sum, call.degraded.sum? part = some sum ∧ sum < 2 ^ 64
  average_eq : ∃ sum, call.degraded.sum? call.rect = some sum ∧ average.val = sum / call.rect.area
  average_le : average.val ≤ bound
  reference : CenteredSums.Fits average.val rows
  specialized : StagedSums.Fits average.val call.rect.area rows

/-- The sum over every part of the unit of an admissible call is found, and it is at most one bound
for each pixel of the unit. -/
theorem Admissible.exists_sum_le (h : call.Admissible) {bound : Nat}
    (hreads : call.ReadsAtMost bound) {part : Rect} (hpart : part.Within call.rect) :
    ∃ sum, call.degraded.sum? part = some sum ∧ sum ≤ call.rect.area * bound := by
  have hlast : call.degraded.lastIndex part < call.degraded.buffer.size :=
    Nat.lt_of_le_of_lt (hpart.lastIndex_le call.degraded) h.lastDegraded_lt
  refine ⟨_, Patch.sum?_eq hlast, Nat.le_trans (Patch.unitSum_le ?_)
    (Nat.mul_le_mul_right bound hpart.area_le)⟩
  intro x y hleft hright htop hbottom
  exact hreads.averaged_le x y (Nat.le_trans hpart.left_le hleft)
    (Nat.lt_of_lt_of_le hright hpart.right_le) (Nat.le_trans hpart.top_le htop)
    (Nat.lt_of_lt_of_le hbottom hpart.bottom_le)

/-- Everything that an admissible call computes for bounded samples fits words. -/
theorem Admissible.intermediatesFit (h : call.Admissible) {bound : Nat}
    (hreads : call.ReadsAtMost bound) (hfits : 2 * call.rect.area * bound ^ 2 ≤ 2 ^ 63 - 1) :
    call.IntermediatesFit bound
      ⟨call.degraded.mean call.rect, call.degraded.mean_lt_levels call.rect⟩
      call.observations := by
  have hhalf : call.rect.area * bound ^ 2 ≤ 2 ^ 63 - 1 := by
    rw [Nat.mul_assoc] at hfits
    omega
  have hlinear : call.rect.area * bound ≤ call.rect.area * bound ^ 2 :=
    Nat.mul_le_mul_left _ (Nat.le_self_pow two_ne_zero bound)
  have hwidth : call.rect.width ≤ call.rect.area :=
    Nat.le_mul_of_pos_right _ (Nat.sub_pos_of_lt call.rect.top_lt_bottom)
  constructor
  case sum_lt =>
    intro part hpart
    obtain ⟨sum, hsum, hle⟩ := h.exists_sum_le hreads hpart
    exact ⟨sum, hsum, by omega⟩
  case average_eq => exact ⟨_, Patch.sum?_eq h.lastDegraded_lt, rfl⟩
  case average_le => exact hreads.mean_le
  case reference =>
    exact CenteredSums.fits_of_atMost hreads.mean_le hreads.observation_atMost
      call.total_observations_one hhalf
  case specialized =>
    refine StagedSums.fits_of_atMost hreads.mean_le hreads.observation_atMost
      call.total_observations_one call.rect.area_pos ?_ ?_ hfits
    · intro row hrow
      rw [length_of_mem_observations hrow]
      exact h.width_le
    · intro row hrow
      rw [length_of_mem_observations hrow]
      exact hwidth

/-- An accepted run computes with an average and observations such that nothing on the way to its
statistics leaves the range of a word, if no sample that it reads exceeds a bound and twice the
number of pixels times the square of the bound is at most the largest signed word. Samples of 16
bits meet this condition for all units of up to `2 ^ 30` pixels. The loops of the reference method
make the listed additions and no others. -/
theorem run_intermediates_fit (call : Call width) (outputs : Outputs) {method : Method}
    (haccepted : call.verdict outputs.cross.size outputs.auto.size = .ok method) :
    ∃ average rows, call.degraded.average? call.rect = some average ∧ call.rows? = some rows ∧
      (∀ storage, rows.foldl (CenteredSums.addRow average.val) (CenteredSums.clear storage) =
        (CenteredSums.additions average.val rows).foldl CenteredSums.Addition.apply
          (CenteredSums.clear storage)) ∧
      (∀ bound, call.ReadsAtMost bound → 2 * call.rect.area * bound ^ 2 ≤ 2 ^ 63 - 1 →
        call.IntermediatesFit bound average rows) ∧
      (call.rect.area ≤ 2 ^ 30 → call.IntermediatesFit (width.levels - 1) average rows) := by
  have hcall := (verdict_eq_ok_iff.mp haccepted).1
  refine ⟨_, _, hcall.average?_eq, hcall.rows?_eq, ?_, ?_, ?_⟩
  · intro storage
    exact (CenteredSums.foldl_additions _ _ _).symm
  · intro bound hreads hfits
    exact hcall.intermediatesFit hreads hfits
  · intro harea
    refine hcall.intermediatesFit (samplesAtMost_levels call).readsAtMost ?_
    have hlevels : (width.levels - 1) ^ 2 ≤ 65535 ^ 2 :=
      Nat.pow_le_pow_left (by cases width <;> decide) 2
    calc 2 * call.rect.area * (width.levels - 1) ^ 2
        ≤ 2 * 2 ^ 30 * 65535 ^ 2 := Nat.mul_le_mul (Nat.mul_le_mul_left 2 harea) hlevels
      _ ≤ 2 ^ 63 - 1 := by decide

/-- No sample of `sparseChroma` exceeds 100, and its unit has 15 pixels. -/
theorem run_intermediates_fit_sparseChroma :
    sparseChroma.verdict 25 626 = .ok .reference ∧ sparseChroma.ReadsAtMost 100 ∧
    2 * sparseChroma.rect.area * 100 ^ 2 ≤ 2 ^ 63 - 1 ∧
    ∃ average rows, sparseChroma.degraded.average? sparseChroma.rect = some average ∧
      sparseChroma.rows? = some rows ∧ sparseChroma.IntermediatesFit 100 average rows := by
  have haccepted : sparseChroma.verdict 25 626 = .ok .reference := by decide
  have hreads := samplesAtMost_sparseChroma.readsAtMost
  have hfits : 2 * sparseChroma.rect.area * 100 ^ 2 ≤ 2 ^ 63 - 1 := by decide
  obtain ⟨average, rows, haverage, hrows, -, hbounded, -⟩ := run_intermediates_fit sparseChroma
    ⟨Array.replicate 25 9, Array.replicate 626 9⟩ (by simpa using haccepted)
  exact ⟨haccepted, hreads, hfits, average, rows, haverage, hrows, hbounded 100 hreads hfits⟩

end Call

end WienerRegression
