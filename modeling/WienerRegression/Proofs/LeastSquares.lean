import WienerRegression.Proofs.StorageEntries
import WienerRegression.Proofs.WeightedSums

/-!
# Least squares

A filter with some coefficients predicts the deviation of a source sample from the deviations at the
taps. Its squared error over the scanned pixels is a quadratic function of the coefficients, and the
written statistics are the coefficients of that function at the scale of 8-bit content
(`run_squaredError`). Only the remainders of the division are missing, so the equality is exact for
8-bit content.
-/

namespace WienerRegression

namespace Call

variable {width : SampleWidth} {call : Call width}

/-- The squared error of a filter over the scanned pixels, each counted as often as its row. -/
def squaredError (call : Call width) (v : Fin call.window.taps → Int) : Int :=
  call.weightedSum fun x y ↦
    (∑ tap, v tap * call.tapDeviation tap x y - call.sourceDeviation x y) ^ 2

/-- The sum of the squared deviations of the source over the scanned pixels. -/
def sourceEnergy (call : Call width) : Int :=
  call.weightedSum fun x y ↦ call.sourceDeviation x y ^ 2

/-- The correlation of a tap with the source, not yet divided. -/
def crossSum (call : Call width) (tap : Fin call.window.taps) : Int :=
  call.weightedSum fun x y ↦ call.tapDeviation tap x y * call.sourceDeviation x y

/-- The correlation of two taps, not yet divided. -/
def autoSum (call : Call width) (first second : Fin call.window.taps) : Int :=
  call.weightedSum fun x y ↦ call.tapDeviation first x y * call.tapDeviation second x y

/-- The squared error is made up of the quadratic form of the correlations of the taps, the linear
form of their correlations with the source, and the energy of the source. -/
theorem squaredError_eq (call : Call width) (v : Fin call.window.taps → Int) :
    call.squaredError v =
      (∑ first, ∑ second, v first * call.autoSum first second * v second) -
        2 * (∑ tap, v tap * call.crossSum tap) + call.sourceEnergy :=
  call.weightedSum_sq_sub v call.tapDeviation call.sourceDeviation

/-- The coefficient of a tap is its divided correlation with the source. -/
theorem get_cross_eq_tdiv (call : Call width) (tap : Fin call.window.taps) :
    call.normalEquations.cross.get tap = (call.crossSum tap).tdiv call.depth.divisor := by
  rw [normalEquations, Entries.get_ofFn]
  rfl

/-- The coefficient of two taps is their divided correlation. -/
theorem get_auto_eq_tdiv (call : Call width) (first second : Fin call.window.taps) :
    call.normalEquations.auto.get (RowMajor.index first second) =
      (call.autoSum first second).tdiv call.depth.divisor :=
  call.get_auto_normalEquations first second

/-- Division moves the quadratic form of the matrix by no more than the remainders of its entries
can make up. -/
theorem abs_quadratic_sub_le (call : Call width) (v : Fin call.window.taps → Int) :
    |call.depth.divisor * (∑ first, ∑ second,
        v first * call.normalEquations.auto.get (RowMajor.index first second) * v second) -
      ∑ first, ∑ second, v first * call.autoSum first second * v second| ≤
      (call.depth.divisor - 1) * (∑ tap, |v tap|) ^ 2 := by
  have hrounding : ∀ first second,
      |call.depth.divisor * call.normalEquations.auto.get (RowMajor.index first second) -
        call.autoSum first second| ≤ (call.depth.divisor : Int) - 1 := by
    intro first second
    rw [get_auto_eq_tdiv]
    exact abs_mul_tdiv_sub_le _ call.depth.divisor_pos
  refine le_trans (le_of_eq (congrArg abs ?_)) (abs_quadratic_le hrounding v)
  simp only [Finset.mul_sum, ← Finset.sum_sub_distrib]
  refine Finset.sum_congr rfl fun first _ ↦ Finset.sum_congr rfl fun second _ ↦ ?_
  ring

/-- Division moves the linear form of the vector by no more than the remainders of its entries can
make up. -/
theorem abs_linear_sub_le (call : Call width) (v : Fin call.window.taps → Int) :
    |call.depth.divisor * (∑ tap, v tap * call.normalEquations.cross.get tap) -
      ∑ tap, v tap * call.crossSum tap| ≤ (call.depth.divisor - 1) * ∑ tap, |v tap| := by
  have hrounding : ∀ tap,
      |call.depth.divisor * call.normalEquations.cross.get tap - call.crossSum tap| ≤
        (call.depth.divisor : Int) - 1 := by
    intro tap
    rw [get_cross_eq_tdiv]
    exact abs_mul_tdiv_sub_le _ call.depth.divisor_pos
  refine le_trans (le_of_eq (congrArg abs ?_)) (abs_linear_le hrounding v)
  rw [Finset.mul_sum, ← Finset.sum_sub_distrib]
  refine Finset.sum_congr rfl fun tap _ ↦ ?_
  ring

/-- The bound on a difference whose second part counts twice. -/
theorem abs_sub_two_mul_le {first second firstBound secondBound : Int}
    (hfirst : |first| ≤ firstBound) (hsecond : |second| ≤ secondBound) :
    |first - 2 * second| ≤ firstBound + 2 * secondBound := by
  rw [abs_le] at *
  omega

/-- The squared error follows from the coefficients of the normal equations and the energy of the
source up to the remainders of the division. -/
theorem abs_sub_squaredError_le (call : Call width) (v : Fin call.window.taps → Int) :
    |call.depth.divisor *
        ((∑ first, ∑ second,
          v first * call.normalEquations.auto.get (RowMajor.index first second) * v second) -
        2 * ∑ tap, v tap * call.normalEquations.cross.get tap) +
      call.sourceEnergy - call.squaredError v| ≤
      (call.depth.divisor - 1) * ((∑ tap, |v tap|) ^ 2 + 2 * ∑ tap, |v tap|) := by
  -- the linear form counts twice, in what it adds to the error as well as in what division loses
  have hlost := abs_sub_two_mul_le (call.abs_quadratic_sub_le v) (call.abs_linear_sub_le v)
  rw [squaredError_eq]
  refine (le_of_eq (congrArg abs ?_)).trans (hlost.trans (le_of_eq ?_))
  · ring
  · ring

/-- The deviations at the pixels of the unit are those of samples in the buffers: a tap of a pixel
lies as far behind the start of its window as its row and column say, and the window starts as far
before the pixel as the halo reaches. -/
structure DeviationsRead (call : Call width) : Prop where
  tap_eq : ∀ x y, call.rect.left ≤ x → x < call.rect.right → call.rect.top ≤ y →
    y < call.rect.bottom → ∀ tap : Fin call.window.taps, ∃ index sample,
      index + (call.window.halo * call.degraded.stride + call.window.halo) =
        call.degraded.index x y + call.window.tapRow tap * call.degraded.stride +
          call.window.tapColumn tap ∧
      call.degraded.buffer[index]? = some sample ∧
      call.tapDeviation tap x y = sample.val - call.degraded.mean call.rect
  source_eq : ∀ x y, call.rect.left ≤ x → x < call.rect.right → call.rect.top ≤ y →
    y < call.rect.bottom → ∃ sample,
      call.source.buffer[call.source.index x y]? = some sample ∧
      call.sourceDeviation x y = sample.val - call.degraded.mean call.rect
  averaged_eq : ∀ x y, call.rect.left ≤ x → x < call.rect.right → call.rect.top ≤ y →
    y < call.rect.bottom →
      call.degraded.buffer[call.degraded.index x y]? = some (call.degraded.sampleAt x y)

/-- The deviations of an admissible call are those of samples in its buffers. -/
theorem Admissible.deviationsRead (h : call.Admissible) : call.DeviationsRead where
  tap_eq := by
    intro x y hleft hright htop hbottom tap
    obtain ⟨index, hindex, hsample⟩ := h.exists_index_tapAt hleft hright htop hbottom
      (call.window.tapRow_lt tap) (call.window.tapColumn_lt tap)
    exact ⟨index, _, hindex, hsample, rfl⟩
  source_eq := by
    intro x y _ hright _ hbottom
    exact ⟨_, Patch.getElem?_index (Patch.index_lt_size h.lastPixel_lt hright hbottom), rfl⟩
  averaged_eq := by
    intro x y _ hright _ hbottom
    exact Patch.getElem?_index (Patch.index_lt_size h.lastDegraded_lt hright hbottom)

/-- An accepted run leaves a vector `M` and a matrix `H` that tell the squared error of every
filter. For coefficients `v`, the divisor times `vᵀ H v - 2 vᵀ M`, together with the energy of the
source, is the squared error, up to what the remainders of the division make up; for 8-bit content
it is the squared error itself. -/
theorem run_squaredError (call : Call width) (outputs : Outputs) {method : Method}
    (haccepted : call.verdict outputs.cross.size outputs.auto.size = .ok method) :
    call.DeviationsRead ∧
    ∃ (written : Outputs) (M : Fin call.window.taps → Int)
      (H : Fin call.window.taps → Fin call.window.taps → Int),
      call.run outputs = ⟨.done (), written, [call.logRecord method]⟩ ∧
      (∀ tap, written.cross[tap.val]? = some (M tap)) ∧
      (∀ first second, written.auto[first.val * call.window.taps + second.val]? =
        some (H first second)) ∧
      (∀ v : Fin call.window.taps → Int,
        |call.depth.divisor *
            ((∑ first, ∑ second, v first * H first second * v second) - 2 * ∑ tap, v tap * M tap) +
          call.sourceEnergy - call.squaredError v| ≤
          (call.depth.divisor - 1) * ((∑ tap, |v tap|) ^ 2 + 2 * ∑ tap, |v tap|)) ∧
      (call.depth = .eight → ∀ v : Fin call.window.taps → Int,
        (∑ first, ∑ second, v first * H first second * v second) - 2 * (∑ tap, v tap * M tap) +
          call.sourceEnergy = call.squaredError v) := by
  have hcall := (verdict_eq_ok_iff.mp haccepted).1
  have hwrote := Outputs.wrote_replace (hasRoom_of_verdict haccepted) call.normalEquations
  refine ⟨hcall.deviationsRead, _, _, _, run_of_ok haccepted, hwrote.cross_tap,
    fun first second ↦ hwrote.auto_entry (RowMajor.index first second),
    call.abs_sub_squaredError_le, ?_⟩
  intro hdepth v
  -- the divisor of 8-bit content is one, and nothing is left of the bound
  have hexact := call.abs_sub_squaredError_le v
  have hdivisor : (call.depth.divisor : Int) = 1 := by
    rw [hdepth]
    rfl
  rw [hdivisor, sub_self, zero_mul, one_mul, abs_nonpos_iff, sub_eq_zero] at hexact
  exact hexact

/-- The call `sparseChroma` with its content taken for 8-bit content. -/
def eightBitChroma : Call .word :=
  { sparseChroma with depth := .eight }

/-- The statistics of `sparseChroma` tell the squared error of the filter that adds up all 25 taps
within 3 * (25 ^ 2 + 2 * 25), and those of `eightBitChroma` tell that of every filter. -/
theorem run_squaredError_sparseChroma :
    sparseChroma.verdict 25 625 = .ok .reference ∧
    eightBitChroma.verdict 25 625 = .ok .reference ∧
    (∃ (written : Outputs) (M : Fin 25 → Int) (H : Fin 25 → Fin 25 → Int),
      sparseChroma.run (.zeros .chroma) =
        ⟨.done (), written, [sparseChroma.logRecord .reference]⟩ ∧
      (∀ tap, written.cross[tap.val]? = some (M tap)) ∧
      (∀ first second, written.auto[first.val * 25 + second.val]? = some (H first second)) ∧
      |4 * ((∑ first, ∑ second, H first second) - 2 * ∑ tap, M tap) + sparseChroma.sourceEnergy -
        sparseChroma.squaredError fun _ ↦ 1| ≤ 2025) ∧
    ∃ (written : Outputs) (M : Fin 25 → Int) (H : Fin 25 → Fin 25 → Int),
      eightBitChroma.run (.zeros .chroma) =
        ⟨.done (), written, [eightBitChroma.logRecord .reference]⟩ ∧
      ∀ v : Fin 25 → Int,
        (∑ first, ∑ second, v first * H first second * v second) - 2 * (∑ tap, v tap * M tap) +
          eightBitChroma.sourceEnergy = eightBitChroma.squaredError v := by
  have htens : sparseChroma.verdict 25 625 = .ok .reference := by decide
  have heights : eightBitChroma.verdict 25 625 = .ok .reference := by decide
  have hfresh := Outputs.fits_zeros .chroma
  obtain ⟨-, written, M, H, hrun, hcross, hauto, hbound, -⟩ :=
    run_squaredError sparseChroma (.zeros .chroma) ((verdict_of_fits hfresh).trans htens)
  obtain ⟨-, exact, N, G, hexactRun, -, -, -, hexact⟩ :=
    run_squaredError eightBitChroma (.zeros .chroma) ((verdict_of_fits hfresh).trans heights)
  refine ⟨htens, heights, ⟨written, M, H, hrun, hcross, hauto, ?_⟩, exact, N, G, hexactRun,
    hexact rfl⟩
  have hones := hbound fun _ ↦ 1
  simp only [one_mul, mul_one] at hones
  exact hones

end Call

end WienerRegression
