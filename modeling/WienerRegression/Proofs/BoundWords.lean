import WienerRegression.Proofs.Intermediates
import WienerRegression.Proofs.Magnitudes

/-!
# The bound in words

The bound on the statistics is computed in signed words from an unsigned count of pixels, and the
test of the range reads it back as an unsigned word. A count of `2 ^ 63` or more is read as a
negative number, which gives a negative bound (`magnitudeBound_of_ge`) that is read back as one no
smaller than any magnitude of a signed word. The exact bound for such a count is no smaller either,
so the test gives the exact answer whenever the product under the division fits a word
(`withinMagnitudeBound_iff_le`).
-/

namespace WienerRegression

/-! ## Words -/

/-- A factor of a number that fits a word fits it too, if the other factor is positive. -/
theorem FitsWord.of_mul {value : Int} {factor : Nat} (h : FitsWord (value * factor))
    (hfactor : 0 < factor) : FitsWord value := by
  obtain ⟨hlow, hhigh⟩ := h
  have hfactor : (1 : Int) ≤ factor := Int.ofNat_le.mpr hfactor
  rcases Int.le_total 0 value with hvalue | hvalue
  · have hle : value * 1 ≤ value * factor := Int.mul_le_mul_of_nonneg_left hfactor hvalue
    unfold FitsWord
    omega
  · have hle : value * factor ≤ value * 1 := Int.mul_le_mul_of_nonpos_left hvalue hfactor
    unfold FitsWord
    omega

/-- Division keeps a number within a word. -/
theorem FitsWord.tdiv {value : Int} (h : FitsWord value) (divisor : Nat) :
    FitsWord (value.tdiv divisor) := by
  obtain ⟨hlow, hhigh⟩ := h
  rcases Int.le_total 0 value with hvalue | hvalue
  · obtain ⟨value, rfl⟩ := Int.eq_ofNat_of_zero_le hvalue
    rw [← Int.ofNat_tdiv]
    have hle := Nat.div_le_self value divisor
    have hnonneg := Int.natCast_nonneg (value / divisor)
    unfold FitsWord
    omega
  · obtain ⟨opposite, rfl⟩ := Int.exists_eq_neg_ofNat hvalue
    rw [Int.neg_tdiv, ← Int.ofNat_tdiv]
    have hle := Nat.div_le_self opposite divisor
    have hnonneg := Int.natCast_nonneg (opposite / divisor)
    unfold FitsWord
    omega

/-- A negative number that fits a signed word is read back from it as an unsigned number that
exceeds it by `2 ^ 64`. -/
theorem FitsWord.toNat_of_neg {value : Int} (h : FitsWord value) (hneg : value < 0) :
    (Int64.ofInt value).toUInt64.toNat = (value + 2 ^ 64).toNat := by
  obtain ⟨hlow, -⟩ := h
  have hword : (Int64.ofInt value).toUInt64.toNat = (value % (2 ^ 64 : Nat)).toNat := by
    show (Int64.ofInt value).toBitVec.toNat = _
    rw [Int64.toBitVec_ofInt, BitVec.toNat_ofInt]
  rw [hword]
  omega

/-- An unsigned word of `2 ^ 63` or more is read as a negative number. -/
theorem toInt_ofNat_of_ge {number : Nat} (hlow : 2 ^ 63 ≤ number) (hhigh : number < 2 ^ 64) :
    (Int64.ofNat number).toInt = -((2 ^ 64 - number : Nat) : Int) := by
  rw [Int64.toInt_ofNat', Int.bmod_def]
  unfold Int64.size
  split_ifs <;> omega

namespace BitDepth

/-! ## The bound -/

/-- The largest product of two samples is at least the divisor. -/
theorem divisor_le_sq_maxValue (depth : BitDepth) : depth.divisor ≤ depth.maxValue ^ 2 := by
  cases depth <;> decide

/-- The exact bound is at least the number of pixels. -/
theorem le_exact_bound (depth : BitDepth) (pixelCount : Nat) :
    pixelCount ≤ pixelCount * depth.maxValue ^ 2 / depth.divisor := by
  rw [Nat.le_div_iff_mul_le depth.divisor_pos]
  exact Nat.mul_le_mul_left pixelCount depth.divisor_le_sq_maxValue

/-- The bound for a count that is read as a negative number. -/
theorem magnitudeBound_of_ge (depth : BitDepth) {pixelCount : Nat} (hlow : 2 ^ 63 ≤ pixelCount)
    (hhigh : pixelCount < 2 ^ 64) :
    depth.magnitudeBound pixelCount =
      -(((2 ^ 64 - pixelCount) * depth.maxValue ^ 2 / depth.divisor : Nat) : Int) := by
  unfold magnitudeBound
  rw [toInt_ofNat_of_ge hlow hhigh, Int.mul_assoc, Int.neg_mul, Int.neg_tdiv, ← Nat.cast_mul,
    ← Nat.cast_mul, Int.ofNat_tdiv, pow_two]

/-- No step of the computation of the bound leaves the signed words, if the product under the
division does not. -/
theorem magnitudeBound_steps_fit (depth : BitDepth) {pixelCount : Nat}
    (hfits : FitsWord ((Int64.ofNat pixelCount).toInt * depth.maxValue ^ 2)) :
    FitsWord ((Int64.ofNat pixelCount).toInt * depth.maxValue) ∧
      FitsWord ((Int64.ofNat pixelCount).toInt * depth.maxValue * depth.maxValue) ∧
      FitsWord (depth.magnitudeBound pixelCount) := by
  have hproduct :
      FitsWord ((Int64.ofNat pixelCount).toInt * depth.maxValue * depth.maxValue) := by
    rwa [Int.mul_assoc, ← pow_two]
  exact ⟨hproduct.of_mul depth.maxValue_pos, hproduct, hproduct.tdiv depth.divisor⟩

/-- The bound for a count that is read as a negative number is negative, and the test reads it back
as a number that no magnitude of a signed word exceeds. -/
theorem withinMagnitudeBound_of_ge (depth : BitDepth) {pixelCount : Nat} {values : List Int}
    (hlow : 2 ^ 63 ≤ pixelCount) (hhigh : pixelCount < 2 ^ 64)
    (hvalues : ∀ value ∈ values, FitsWord value)
    (hbound : FitsWord (depth.magnitudeBound pixelCount)) :
    depth.magnitudeBound pixelCount < 0 ∧ depth.withinMagnitudeBound pixelCount values = true := by
  have hneg : depth.magnitudeBound pixelCount < 0 := by
    have hexact := depth.le_exact_bound (2 ^ 64 - pixelCount)
    rw [depth.magnitudeBound_of_ge hlow hhigh]
    omega
  refine ⟨hneg, ?_⟩
  unfold withinMagnitudeBound
  rw [hbound.toNat_of_neg hneg]
  simp only [List.all_eq_true, decide_eq_true_eq]
  intro value hvalue
  obtain ⟨hvalueLow, hvalueHigh⟩ := hvalues value hvalue
  obtain ⟨hboundLow, -⟩ := hbound
  omega

/-- The test of the range gives the exact answer for every count of pixels that an unsigned word
holds, if the product under the division fits a signed word: values of signed words pass it exactly
when none of their magnitudes exceeds the number of pixels times the square of the largest sample
value, divided like the statistics. This is so although the bound is negative for every count of
`2 ^ 63` or more. -/
theorem withinMagnitudeBound_iff_le (depth : BitDepth) {pixelCount : Nat} {values : List Int}
    (hcount : pixelCount < 2 ^ 64) (hvalues : ∀ value ∈ values, FitsWord value)
    (hfits : FitsWord ((Int64.ofNat pixelCount).toInt * depth.maxValue ^ 2)) :
    (depth.withinMagnitudeBound pixelCount values = true ↔
      ∀ value ∈ values, |value| ≤ (pixelCount * depth.maxValue ^ 2 / depth.divisor : Nat)) ∧
    (depth.magnitudeBound pixelCount < 0 ↔ 2 ^ 63 ≤ pixelCount) := by
  rcases Nat.lt_or_ge pixelCount (2 ^ 63) with hsmall | hlarge
  · have hproduct : pixelCount * depth.maxValue ^ 2 < 2 ^ 63 := by
      rw [Int64.toInt_ofNat_of_lt hsmall] at hfits
      exact_mod_cast Int.lt_of_le_sub_one hfits.2
    rw [depth.withinMagnitudeBound_iff hproduct, depth.magnitudeBound_eq hsmall]
    have hnonneg := Int.natCast_nonneg (pixelCount * depth.maxValue ^ 2 / depth.divisor)
    exact ⟨Iff.rfl, iff_of_false (Int.not_lt.mpr hnonneg) (Nat.not_le.mpr hsmall)⟩
  · obtain ⟨-, -, hbound⟩ := depth.magnitudeBound_steps_fit hfits
    obtain ⟨hneg, hwithin⟩ := depth.withinMagnitudeBound_of_ge hlarge hcount hvalues hbound
    have hexact := depth.le_exact_bound pixelCount
    refine ⟨iff_of_true hwithin ?_, iff_of_true hneg hlarge⟩
    intro value hvalue
    obtain ⟨hlow, hhigh⟩ := hvalues value hvalue
    rw [Int.abs_eq_natAbs]
    omega

/-- A count of `2 ^ 64 - 3` pixels of 10 bits gives a negative bound, within which the test finds
the least and the greatest signed word. One pixel gives a bound that the least word exceeds. -/
theorem withinMagnitudeBound_iff_le_ten :
    (∀ value ∈ [-(2 ^ 63), 2 ^ 63 - 1], FitsWord value) ∧
    FitsWord ((Int64.ofNat (2 ^ 64 - 3)).toInt * BitDepth.ten.maxValue ^ 2) ∧
    BitDepth.ten.magnitudeBound (2 ^ 64 - 3) < 0 ∧
    BitDepth.ten.withinMagnitudeBound (2 ^ 64 - 3) [-(2 ^ 63), 2 ^ 63 - 1] = true ∧
    FitsWord ((Int64.ofNat 1).toInt * BitDepth.ten.maxValue ^ 2) ∧
    BitDepth.ten.withinMagnitudeBound 1 [-(2 ^ 63), 2 ^ 63 - 1] = false := by
  have hvalues : ∀ value ∈ [-(2 ^ 63), 2 ^ 63 - 1], FitsWord value := by
    simp [FitsWord]
  have hmax : BitDepth.ten.maxValue = 1023 := rfl
  have hdivisor : BitDepth.ten.divisor = 4 := rfl
  have hlarge : FitsWord ((Int64.ofNat (2 ^ 64 - 3)).toInt * BitDepth.ten.maxValue ^ 2) := by
    rw [toInt_ofNat_of_ge (by decide) (by decide), hmax]
    simp [FitsWord]
  have hone : FitsWord ((Int64.ofNat 1).toInt * BitDepth.ten.maxValue ^ 2) := by
    rw [Int64.toInt_ofNat_of_lt (by decide), hmax]
    simp [FitsWord]
  obtain ⟨hwithin, hneg⟩ := withinMagnitudeBound_iff_le .ten (by decide) hvalues hlarge
  obtain ⟨hexceeds, -⟩ := withinMagnitudeBound_iff_le .ten (by decide) hvalues hone
  refine ⟨hvalues, hlarge, hneg.mpr (by decide), hwithin.mpr ?_, hone, ?_⟩
  · rw [hmax, hdivisor]
    simp
  · rw [Bool.eq_false_iff, Ne, hexceeds, hmax, hdivisor]
    simp

end BitDepth

end WienerRegression
