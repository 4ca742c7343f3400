import WienerRegression.Magnitude
import WienerRegression.Proofs.SampleBounds

/-!
# The range of the written statistics

If no sample exceeds the largest value of the content, each coefficient of the normal equations is a
sum of as many products as the unit has pixels, none beyond the square of that value
(`ReadsAtMost.abs_total_observations_le`). Division rounds both the sum and the bound toward zero,
so the order between them is kept (`abs_tdiv_le`), and the written statistics pass the test of their
range.
-/

namespace WienerRegression

/-- Rounding toward zero keeps a magnitude below a bound that is divided alike. -/
theorem abs_tdiv_le {value : Int} {bound : Nat} (h : |value| ≤ bound) (divisor : Nat) :
    |value.tdiv divisor| ≤ (bound / divisor : Nat) := by
  rw [Int.abs_eq_natAbs] at h ⊢
  rw [Int.natAbs_tdiv, Int.natAbs_natCast]
  exact Int.ofNat_le.mpr (Nat.div_le_div_right (Int.ofNat_le.mp h))

namespace BitDepth

/-- The largest sample value is positive. -/
theorem maxValue_pos (depth : BitDepth) : 0 < depth.maxValue := by
  cases depth <;> decide

/-- The bound for a number of pixels that a signed word can hold. -/
theorem magnitudeBound_eq (depth : BitDepth) {pixelCount : Nat} (h : pixelCount < 2 ^ 63) :
    depth.magnitudeBound pixelCount =
      (pixelCount * depth.maxValue ^ 2 / depth.divisor : Nat) := by
  unfold magnitudeBound
  rw [Int64.toInt_ofNat_of_lt h, Int.ofNat_tdiv]
  push_cast
  rw [pow_two, Int.mul_assoc]

/-- Values are within a bound that a signed word can hold exactly when each magnitude is. -/
theorem withinMagnitudeBound_iff (depth : BitDepth) {pixelCount : Nat}
    (h : pixelCount * depth.maxValue ^ 2 < 2 ^ 63) (values : List Int) :
    depth.withinMagnitudeBound pixelCount values = true ↔
      ∀ value ∈ values, |value| ≤ depth.magnitudeBound pixelCount := by
  have hpixels : pixelCount < 2 ^ 63 :=
    Nat.lt_of_le_of_lt (Nat.le_mul_of_pos_right _ (Nat.pow_pos depth.maxValue_pos)) h
  have hbound : pixelCount * depth.maxValue ^ 2 / depth.divisor < 2 ^ 63 :=
    Nat.lt_of_le_of_lt (Nat.div_le_self _ _) h
  unfold withinMagnitudeBound
  rw [depth.magnitudeBound_eq hpixels]
  -- the bound is read back as the number that it is
  have hword :
      (Int64.ofInt (pixelCount * depth.maxValue ^ 2 / depth.divisor : Nat)).toUInt64.toNat =
        pixelCount * depth.maxValue ^ 2 / depth.divisor := by
    rw [Int64.ofInt_eq_ofNat, Int64.toUInt64_ofNat', UInt64.toNat_ofNat']
    exact Nat.mod_eq_of_lt (by omega)
  simp only [hword, List.all_eq_true, decide_eq_true_eq, Int.abs_eq_natAbs, Int.ofNat_le]

end BitDepth

namespace Call

variable {width : SampleWidth} {call : Call width}

namespace ReadsAtMost

variable {bound : Nat}

/-- The total of a quantity that is within the square of the bound at every observation. -/
theorem abs_total_observations_le {quantity : Observation width call.window → Int}
    (hquantity : ∀ row ∈ call.observations, ∀ pixel ∈ row.pixels,
      |quantity pixel| ≤ (bound : Int) * bound) :
    |WeightedRow.total call.observations quantity| ≤ (call.rect.area * bound ^ 2 : Nat) := by
  have htotal := WeightedRow.abs_total_le hquantity
  rw [total_observations_one] at htotal
  push_cast
  rwa [pow_two]

/-- The coefficient of a tap is within the divided bound on the sum of its products. -/
theorem abs_cross_le (h : call.ReadsAtMost bound) (tap : Fin call.window.taps) :
    |call.normalEquations.cross.get tap| ≤
      (call.rect.area * bound ^ 2 / call.depth.divisor : Nat) := by
  rw [get_cross_eq_total]
  refine abs_tdiv_le (abs_total_observations_le fun row hrow pixel hpixel ↦ ?_) _
  have hpixel := h.observation_atMost row hrow pixel hpixel
  exact CenteredSums.abs_mul_deviation_le h.mean_le (hpixel.tap_le tap) hpixel.source_le

/-- The coefficient of two taps is within the divided bound on the sum of its products. -/
theorem abs_auto_le (h : call.ReadsAtMost bound)
    (entry : Fin (call.window.taps * call.window.taps)) :
    |call.normalEquations.auto.get entry| ≤
      (call.rect.area * bound ^ 2 / call.depth.divisor : Nat) := by
  rw [get_auto_eq_total]
  refine abs_tdiv_le (abs_total_observations_le fun row hrow pixel hpixel ↦ ?_) _
  have hpixel := h.observation_atMost row hrow pixel hpixel
  exact CenteredSums.abs_mul_deviation_le h.mean_le (hpixel.tap_le _) (hpixel.tap_le _)

end ReadsAtMost

/-- An accepted run on content of its depth writes statistics within the bound for the pixels of the
unit, by either method and whether or not rows are skipped, and the written entries pass the test of
their range. -/
theorem run_within_magnitudeBound (call : Call width) (outputs : Outputs) {method : Method}
    (haccepted : call.verdict outputs.cross.size outputs.auto.size = .ok method)
    (hsamples : call.SamplesAtMost call.depth.maxValue)
    (hfits : 2 * call.rect.area * call.depth.maxValue ^ 2 ≤ 2 ^ 63 - 1) :
    ∃ written, call.run outputs = ⟨.done (), written, [call.logRecord method]⟩ ∧
      (∀ tap < call.window.taps, ∃ value, written.cross[tap]? = some value ∧
        |value| ≤ call.depth.magnitudeBound call.rect.area) ∧
      (∀ entry < call.window.tapPairs, ∃ value, written.auto[entry]? = some value ∧
        |value| ≤ call.depth.magnitudeBound call.rect.area) ∧
      call.depth.withinMagnitudeBound call.rect.area
        (written.cross.toList.take call.window.taps) = true ∧
      call.depth.withinMagnitudeBound call.rect.area
        (written.auto.toList.take call.window.tapPairs) = true := by
  have hreads := hsamples.readsAtMost
  have hwrote := Outputs.wrote_replace (hasRoom_of_verdict haccepted) call.normalEquations
  have hword : call.rect.area * call.depth.maxValue ^ 2 < 2 ^ 63 := by
    rw [Nat.mul_assoc] at hfits
    omega
  have harea : call.rect.area < 2 ^ 63 :=
    Nat.lt_of_le_of_lt (Nat.le_mul_of_pos_right _ (Nat.pow_pos call.depth.maxValue_pos)) hword
  -- the coefficients are within the bound, and they are what the run writes
  have hcross := hreads.abs_cross_le
  have hauto := hreads.abs_auto_le
  rw [← call.depth.magnitudeBound_eq harea] at hcross hauto
  refine ⟨_, run_of_ok haccepted, ?_, ?_, ?_, ?_⟩
  · intro tap htap
    exact ⟨_, hwrote.cross_tap ⟨tap, htap⟩, hcross _⟩
  · intro entry hentry
    exact ⟨_, hwrote.auto_entry ⟨entry, hentry⟩, hauto _⟩
  · rw [call.depth.withinMagnitudeBound_iff hword]
    intro value hvalue
    obtain ⟨tap, rfl⟩ := hwrote.exists_of_mem_take_cross hvalue
    exact hcross tap
  · rw [call.depth.withinMagnitudeBound_iff hword]
    intro value hvalue
    obtain ⟨entry, rfl⟩ := hwrote.exists_of_mem_take_auto hvalue
    exact hauto entry

/-- The statistics of `sparseChroma`, whose samples have 10 bits, are within the bound for its 15
pixels. -/
theorem run_within_magnitudeBound_sparseChroma :
    sparseChroma.verdict 25 625 = .ok .reference ∧ sparseChroma.SamplesAtMost 1023 ∧
    2 * 15 * 1023 ^ 2 ≤ 2 ^ 63 - 1 ∧
    ∃ written, sparseChroma.run ⟨Array.replicate 25 0, Array.replicate 625 0⟩ =
        ⟨.done (), written, [sparseChroma.logRecord .reference]⟩ ∧
      BitDepth.ten.magnitudeBound 15 = 3924483 ∧
      BitDepth.ten.withinMagnitudeBound 15 (written.cross.toList.take 25) = true ∧
      BitDepth.ten.withinMagnitudeBound 15 (written.auto.toList.take 625) = true := by
  have haccepted : sparseChroma.verdict 25 625 = .ok .reference := by decide
  have hsamples : sparseChroma.SamplesAtMost 1023 :=
    samplesAtMost_sparseChroma.mono (by decide)
  obtain ⟨written, hrun, -, -, hcross, hauto⟩ := run_within_magnitudeBound sparseChroma
    ⟨Array.replicate 25 0, Array.replicate 625 0⟩ (by simpa using haccepted) hsamples (by decide)
  exact ⟨haccepted, hsamples, by decide, written, hrun, by decide, hcross, hauto⟩

end Call

end WienerRegression
