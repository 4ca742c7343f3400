import WienerRegression.Proofs.LeastSquares

/-!
# Semidefinite matrices

The undivided correlations of the taps are a Gram matrix, so their quadratic form is a sum of
squares (`quadratic_autoSum_nonneg`). The written matrix differs from it by the remainders of the
division only: for 8-bit content it is positive semidefinite, and for deeper content its quadratic
form is never further below zero than the remainders allow (`run_auto_semidefinite`).
-/

namespace WienerRegression.Call

variable {width : SampleWidth} {call : Call width}

/-- The quadratic form of the correlations of the taps is a sum of squares. -/
theorem quadratic_autoSum_nonneg (call : Call width) (v : Fin call.window.taps → Int) :
    0 ≤ ∑ first, ∑ second, v first * call.autoSum first second * v second := by
  have hsquares := call.weightedSum_sq_combination v call.tapDeviation
  unfold autoSum
  rw [← hsquares]
  exact call.weightedSum_sq_nonneg _

/-- The correlation of a tap with itself is a sum of squares. -/
theorem autoSum_self_eq (call : Call width) (tap : Fin call.window.taps) :
    call.autoSum tap tap = call.weightedSum fun x y ↦ call.tapDeviation tap x y ^ 2 := by
  simp only [autoSum, sq]

/-- The correlation of a tap with itself is not negative. -/
theorem autoSum_self_nonneg (call : Call width) (tap : Fin call.window.taps) :
    0 ≤ call.autoSum tap tap := by
  rw [autoSum_self_eq]
  exact call.weightedSum_sq_nonneg _

/-- The correlation of two taps is bounded by the correlations of each with itself. -/
theorem sq_autoSum_le (call : Call width) (first second : Fin call.window.taps) :
    call.autoSum first second ^ 2 ≤ call.autoSum first first * call.autoSum second second := by
  rw [autoSum_self_eq, autoSum_self_eq]
  exact call.sq_weightedSum_mul_le _ _

/-- Division leaves the quadratic form of the matrix above zero, or below it by no more than the
remainders can make up. -/
theorem neg_le_divisor_mul_quadratic (call : Call width) (v : Fin call.window.taps → Int) :
    -((call.depth.divisor - 1) * (∑ tap, |v tap|) ^ 2) ≤
      call.depth.divisor * ∑ first, ∑ second,
        v first * call.normalEquations.auto.get (RowMajor.index first second) * v second := by
  have hlost := (abs_le.mp (call.abs_quadratic_sub_le v)).1
  have hsquares := call.quadratic_autoSum_nonneg v
  exact hlost.trans (sub_le_self _ hsquares)

/-- Division keeps the diagonal of the matrix from being negative. -/
theorem auto_diagonal_nonneg (call : Call width) (tap : Fin call.window.taps) :
    0 ≤ call.normalEquations.auto.get (RowMajor.index tap tap) := by
  rw [get_auto_eq_tdiv]
  exact Int.tdiv_nonneg (call.autoSum_self_nonneg tap) (Int.natCast_nonneg _)

/-- Nothing is divided in the matrix of 8-bit content. -/
theorem auto_eq_autoSum (hdepth : call.depth = .eight) (first second : Fin call.window.taps) :
    call.normalEquations.auto.get (RowMajor.index first second) = call.autoSum first second := by
  rw [get_auto_eq_tdiv, hdepth]
  exact Int.tdiv_one _

/-- An accepted run leaves a matrix `H` whose diagonal is not negative and whose quadratic form, for
any coefficients, is not further below zero than the remainders of the division can make up. For
8-bit content it is positive semidefinite, and no entry exceeds what the diagonal allows. -/
theorem run_auto_semidefinite (call : Call width) (outputs : Outputs) {method : Method}
    (haccepted : call.verdict outputs.cross.size outputs.auto.size = .ok method) :
    ∃ (written : Outputs) (H : Fin call.window.taps → Fin call.window.taps → Int),
      call.run outputs = ⟨.done (), written, [call.logRecord method]⟩ ∧
      (∀ first second, written.auto[first.val * call.window.taps + second.val]? =
        some (H first second)) ∧
      (∀ v : Fin call.window.taps → Int,
        -((call.depth.divisor - 1) * (∑ tap, |v tap|) ^ 2) ≤
          call.depth.divisor * ∑ first, ∑ second, v first * H first second * v second) ∧
      (∀ tap, 0 ≤ H tap tap) ∧
      (call.depth = .eight →
        (∀ v : Fin call.window.taps → Int,
          0 ≤ ∑ first, ∑ second, v first * H first second * v second) ∧
        ∀ first second, H first second ^ 2 ≤ H first first * H second second) := by
  have hwrote := Outputs.wrote_replace (hasRoom_of_verdict haccepted) call.normalEquations
  refine ⟨_, _, run_of_ok haccepted,
    fun first second ↦ hwrote.auto_entry (RowMajor.index first second),
    call.neg_le_divisor_mul_quadratic, call.auto_diagonal_nonneg, ?_⟩
  intro hdepth
  simp only [auto_eq_autoSum hdepth]
  exact ⟨call.quadratic_autoSum_nonneg, call.sq_autoSum_le⟩

/-- The matrix of `sparseChroma` stays above the bound for the filter that adds up all 25 taps, and
that of `eightBitChroma` is positive semidefinite. -/
theorem run_auto_semidefinite_sparseChroma :
    sparseChroma.verdict 25 625 = .ok .reference ∧
    eightBitChroma.verdict 25 625 = .ok .reference ∧
    (∃ (written : Outputs) (H : Fin 25 → Fin 25 → Int),
      sparseChroma.run (.zeros .chroma) =
        ⟨.done (), written, [sparseChroma.logRecord .reference]⟩ ∧
      (∀ first second, written.auto[first.val * 25 + second.val]? = some (H first second)) ∧
      -1875 ≤ 4 * ∑ first, ∑ second, H first second) ∧
    ∃ (written : Outputs) (H : Fin 25 → Fin 25 → Int),
      eightBitChroma.run (.zeros .chroma) =
        ⟨.done (), written, [eightBitChroma.logRecord .reference]⟩ ∧
      (∀ v : Fin 25 → Int, 0 ≤ ∑ first, ∑ second, v first * H first second * v second) ∧
      ∀ first second, H first second ^ 2 ≤ H first first * H second second := by
  have htens : sparseChroma.verdict 25 625 = .ok .reference := by decide
  have heights : eightBitChroma.verdict 25 625 = .ok .reference := by decide
  have hfresh := Outputs.fits_zeros .chroma
  obtain ⟨written, H, hrun, hauto, hbound, -, -⟩ :=
    run_auto_semidefinite sparseChroma (.zeros .chroma) ((verdict_of_fits hfresh).trans htens)
  obtain ⟨exact, G, hexactRun, -, -, -, hexact⟩ :=
    run_auto_semidefinite eightBitChroma (.zeros .chroma) ((verdict_of_fits hfresh).trans heights)
  refine ⟨htens, heights, ⟨written, H, hrun, hauto, ?_⟩, exact, G, hexactRun, hexact rfl⟩
  have hones := hbound fun _ ↦ 1
  simp only [one_mul, mul_one] at hones
  exact hones

end WienerRegression.Call
