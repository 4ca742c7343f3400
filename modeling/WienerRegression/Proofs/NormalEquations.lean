import WienerRegression.Proofs.Footprint
import WienerRegression.Proofs.ReferenceMethod
import WienerRegression.Proofs.SpecializedMethod
import WienerRegression.Proofs.WrittenOutputs
import WienerRegression.Run

/-!
# The normal equations that both methods write

The coefficients of the normal equations are weighted sums of products of deviations over the
pixels of the scanned rows. The deviations are taken from the average over all rows of the unit.
Both methods compute these sums (`accumulate_eq_statistics`), although the specialized method
counts the pixels of the whole unit and observes only some of its rows: the weights of the scanned
rows add up to its height (`total_observations_one`). The main statement is `answer?_eq`: the answer
to an admissible call depends neither on the method nor on what the outputs hold.
-/

namespace WienerRegression

/-- Statistics with the same entries are the same. -/
theorem Statistics.ext_get {window : Window} {left right : Statistics window}
    (hcross : ∀ tap, left.cross.get tap = right.cross.get tap)
    (hauto : ∀ entry, left.auto.get entry = right.auto.get entry) : left = right := by
  cases left
  cases right
  congr 1
  · exact Vector.ext fun i hi ↦ hcross ⟨i, hi⟩
  · exact Vector.ext fun i hi ↦ hauto ⟨i, hi⟩

/-- The divisor of a bit depth is a power of two. -/
theorem BitDepth.divisor_eq_two_pow (depth : BitDepth) :
    (depth.divisor : Int) = 2 ^ (depth.bits - 8) := by
  cases depth <;> rfl

/-- The divisor of a bit depth is positive. -/
theorem BitDepth.divisor_pos (depth : BitDepth) : 0 < depth.divisor := by
  cases depth <;> decide

/-- On rows that are not too wide, the two methods find the same statistics, if the rows stand for
as many pixels as the specialized method counts. -/
theorem accumulate_eq_statistics {width : SampleWidth} {window : Window} (depth : BitDepth)
    (average : Int) {rows : List (WeightedRow width window)}
    (hfits : ∀ row ∈ rows, row.pixels.length ≤ width.stagedRowLimit) {pixelCount : Int}
    (hcount : WeightedRow.total rows (fun _ ↦ 1) = pixelCount) (storage : Statistics window) :
    CenteredSums.accumulate depth average rows storage =
      (StagedSums.ofRows rows).statistics depth average pixelCount := by
  have hreference := CenteredSums.accumulate_eq depth average rows storage
  have hspecialized := StagedSums.statistics_ofRows depth average hfits hcount
  refine Statistics.ext_get ?_ ?_
  · intro tap
    exact (hreference.1 tap).trans (hspecialized.1 tap).symm
  · intro entry
    exact (hreference.2 entry).trans (hspecialized.2 entry).symm

namespace Call

variable {width : SampleWidth} {call : Call width}

/-- The sum of a quantity over the pixels of the scanned rows of the unit, each pixel counted as
often as its row. -/
def weightedSum (call : Call width) (quantity : Nat → Nat → Int) : Int :=
  ((RowScan.ofRect call.rect call.options.sparse).toList.map fun visit ↦
    ∑ x ∈ Finset.Ico call.rect.left call.rect.right, (visit.2 : Int) * quantity x visit.1).sum

/-- How far the degraded sample at a tap of the pixel `(x, y)` is from the average. -/
def tapDeviation (call : Call width) (tap : Fin call.window.taps) (x y : Nat) : Int :=
  (call.tapAt (call.window.tapRow tap) (call.window.tapColumn tap) x y).val -
    call.degraded.mean call.rect

/-- How far the source sample at the pixel `(x, y)` is from the average. -/
def sourceDeviation (call : Call width) (x y : Nat) : Int :=
  (call.source.sampleAt x y).val - call.degraded.mean call.rect

/-- The coefficients of the normal equations, at the scale of 8-bit content. -/
def normalEquations (call : Call width) : Statistics call.window where
  cross := Vector.ofFn fun tap ↦
    (call.weightedSum fun x y ↦ call.tapDeviation tap x y * call.sourceDeviation x y).tdiv
      call.depth.divisor
  auto := Vector.ofFn fun entry : Fin (call.window.taps * call.window.taps) ↦
    (call.weightedSum fun x y ↦ call.tapDeviation (RowMajor.row entry) x y *
      call.tapDeviation (RowMajor.column entry) x y).tdiv call.depth.divisor

/-- The coefficient of the tap in row `r` and column `c` of the window. -/
theorem get_cross_normalEquations (call : Call width) {r c : Nat} (hr : r < call.window.side)
    (hc : c < call.window.side) :
    call.normalEquations.cross.get ⟨call.window.tapIndex r c, call.window.tapIndex_lt hr hc⟩ =
      (call.weightedSum fun x y ↦
        ((call.tapAt r c x y).val - call.degraded.mean call.rect) *
          call.sourceDeviation x y).tdiv call.depth.divisor := by
  rw [normalEquations, Entries.get_ofFn]
  unfold tapDeviation
  rw [call.window.tapRow_tapIndex hr hc, call.window.tapColumn_tapIndex hr hc]

/-- The coefficient of two taps, in either order. -/
theorem get_auto_normalEquations (call : Call width) (first second : Fin call.window.taps) :
    call.normalEquations.auto.get (RowMajor.index first second) =
      (call.weightedSum fun x y ↦
        call.tapDeviation first x y * call.tapDeviation second x y).tdiv call.depth.divisor := by
  rw [normalEquations, Entries.get_ofFn, RowMajor.row_index, RowMajor.column_index]

/-- The total of a quantity over the observations is its weighted sum over the pixels. -/
theorem total_observations (call : Call width)
    (quantity : Observation width call.window → Int) :
    WeightedRow.total call.observations quantity =
      call.weightedSum fun x y ↦ quantity (call.observationAt x y) := by
  unfold WeightedRow.total observations weightedSum
  rw [List.map_map]
  refine congrArg List.sum (List.map_congr_left ?_)
  intro visit _
  rw [← Finset.mul_sum, Function.comp_apply, List.map_map]
  rfl

/-- The observations stand for all pixels of the unit, because the weights of the scanned rows add
up to its height. -/
theorem total_observations_one (call : Call width) :
    WeightedRow.total call.observations (fun _ ↦ 1) = (call.rect.area : Nat) := by
  have hrow : ∀ visit : Nat × Nat,
      (∑ _x ∈ Finset.Ico call.rect.left call.rect.right, (visit.2 : Int) * 1) =
        visit.2 * call.rect.width := by
    intro visit
    rw [Finset.sum_const, Nat.card_Ico, mul_one, nsmul_eq_mul, mul_comm]
    rfl
  have hheight : ((RowScan.ofRect call.rect call.options.sparse).toList.map fun visit ↦
      (visit.2 : Int)).sum = (call.rect.height : Nat) := by
    rw [← RowScan.sum_weights_ofRect call.rect call.options.sparse, Nat.cast_list_sum,
      List.map_map]
    rfl
  -- each scanned row counts its width as often as its weight says
  rw [total_observations]
  unfold weightedSum Rect.area
  simp only [hrow]
  rw [List.sum_map_mul_right, hheight, Nat.cast_mul, mul_comm]

/-- Every observed row is as wide as the unit. -/
theorem length_of_mem_observations {row : WeightedRow width call.window}
    (hrow : row ∈ call.observations) : row.pixels.length = call.rect.width := by
  obtain ⟨visit, -, rfl⟩ := List.mem_map.mp hrow
  rw [List.length_map, List.length_range']

/-- The deviation of a tap of an observation is the one at the pixel of the observation. -/
theorem deviation_tap_observationAt (call : Call width) (tap : Fin call.window.taps) (x y : Nat) :
    CenteredSums.deviation (call.degraded.mean call.rect) ((call.observationAt x y).tap tap) =
      call.tapDeviation tap x y := by
  unfold observationAt Observation.tap
  rw [Entries.get_ofFn]
  rfl

/-- The deviation of the source of an observation is the one at the pixel of the observation. -/
theorem deviation_source_observationAt (call : Call width) (x y : Nat) :
    CenteredSums.deviation (call.degraded.mean call.rect) (call.observationAt x y).source =
      call.sourceDeviation x y := rfl

/-- The coefficient of a tap is the divided total of the products over the observations. -/
theorem get_cross_eq_total (call : Call width) (tap : Fin call.window.taps) :
    call.normalEquations.cross.get tap =
      (WeightedRow.total call.observations fun pixel ↦
        CenteredSums.deviation (call.degraded.mean call.rect) (pixel.tap tap) *
          CenteredSums.deviation (call.degraded.mean call.rect) pixel.source).tdiv
        call.depth.divisor := by
  rw [total_observations, normalEquations, Entries.get_ofFn]
  simp only [deviation_tap_observationAt, deviation_source_observationAt]

/-- The coefficient of two taps is the divided total of the products over the observations. -/
theorem get_auto_eq_total (call : Call width)
    (entry : Fin (call.window.taps * call.window.taps)) :
    call.normalEquations.auto.get entry =
      (WeightedRow.total call.observations fun pixel ↦
        CenteredSums.deviation (call.degraded.mean call.rect)
            (pixel.tap (RowMajor.row entry)) *
          CenteredSums.deviation (call.degraded.mean call.rect)
            (pixel.tap (RowMajor.column entry))).tdiv call.depth.divisor := by
  rw [total_observations, normalEquations, Entries.get_ofFn]
  simp only [deviation_tap_observationAt]

/-- The reference method finds the coefficients of the normal equations in any storage. -/
theorem accumulate_observations (call : Call width) (storage : Statistics call.window) :
    CenteredSums.accumulate call.depth (call.degraded.mean call.rect) call.observations storage =
      call.normalEquations := by
  obtain ⟨hcross, hauto⟩ := CenteredSums.accumulate_eq call.depth (call.degraded.mean call.rect)
    call.observations storage
  refine Statistics.ext_get ?_ ?_
  · intro tap
    rw [hcross, get_cross_eq_total]
  · intro entry
    rw [hauto, get_auto_eq_total]

namespace Admissible

/-- The specialized method finds the coefficients of the normal equations of an admissible call. -/
theorem statistics_observations (h : call.Admissible) :
    (StagedSums.ofRows call.observations).statistics call.depth (call.degraded.mean call.rect)
      call.rect.area = call.normalEquations := by
  have hfits : ∀ row ∈ call.observations, row.pixels.length ≤ width.stagedRowLimit := by
    intro row hrow
    rw [length_of_mem_observations hrow]
    exact h.width_le
  rw [← accumulate_eq_statistics call.depth _ hfits call.total_observations_one
    call.normalEquations, accumulate_observations]

/-- Whichever method answers an admissible call, it writes the coefficients of the normal equations
to the outputs. -/
theorem answer?_eq (h : call.Admissible) {outputs : Outputs}
    (hroom : outputs.HasRoom call.window) (method : Method) :
    call.answer? method outputs = some (outputs.replace call.normalEquations) := by
  -- the average and the rows are read first, whichever method is used
  unfold answer?
  rw [h.average?_eq, h.rows?_eq]
  simp only [Option.bind_eq_bind, Option.bind_some]
  cases method with
  | reference =>
      obtain ⟨storage, hstorage⟩ := Outputs.read?_eq hroom
      rw [hstorage, Option.bind_some, accumulate_observations]
      exact Outputs.write?_eq hroom _
  | specialized =>
      rw [h.statistics_observations]
      exact Outputs.write?_eq hroom _

end Admissible

end Call

end WienerRegression
