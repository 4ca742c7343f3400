import WienerRegression.Proofs.LeastSquares

/-!
# Statistics at other bit depths

The bit depth of a call has two parts: the storage format has to hold it, and the statistics are
divided by its divisor. Words hold every depth, so a call on words is accepted at all depths or at
none (`Call.verdict_withDepth`). Nothing is divided before the end, and dividing twice with rounding
toward zero is dividing once by the product (`tdiv_tdiv`), so the statistics at one depth follow
from those at a lower one (`Call.run_entries_of_depths`). The samples may exceed the largest value
of a depth.
-/

namespace WienerRegression

/-- Dividing twice with rounding toward zero is dividing once by the product of the divisors, for
negative values too. -/
theorem tdiv_tdiv (value : Int) (first second : Nat) :
    (value.tdiv first).tdiv second = value.tdiv (first * second : Nat) := by
  obtain ⟨magnitude, rfl | rfl⟩ := Int.eq_nat_or_neg value
  · rw [← Int.ofNat_tdiv, ← Int.ofNat_tdiv, ← Int.ofNat_tdiv, Nat.div_div_eq_div_mul]
  -- both roundings of a negative value are those of its magnitude
  · rw [Int.neg_tdiv, Int.neg_tdiv, Int.neg_tdiv, ← Int.ofNat_tdiv, ← Int.ofNat_tdiv,
      ← Int.ofNat_tdiv, Nat.div_div_eq_div_mul]

/-- Words hold content of every bit depth. -/
theorem BitDepth.heldBy_word (depth : BitDepth) : depth.heldBy .word = .ok () := by
  cases depth <;> rfl

/-- At one position, three outputs hold an entry, its quotient by 4, and its quotient by 16, which
is the quotient by 4 of the second. All quotients are rounded toward zero. -/
def ScaledAt (eights tens twelves : Array Int) (position : Nat) : Prop :=
  ∃ eight ten twelve, eights[position]? = some eight ∧ tens[position]? = some ten ∧
    twelves[position]? = some twelve ∧
    ten = eight.tdiv 4 ∧ twelve = eight.tdiv 16 ∧ twelve = ten.tdiv 4

namespace Call

variable {width : SampleWidth}

/-- The call with its content taken for content of another bit depth. -/
def withDepth (call : Call width) (depth : BitDepth) : Call width :=
  { call with depth := depth }

/-- A call on words gets the same verdict at every bit depth. -/
theorem verdict_withDepth (call : Call .word) (depth : BitDepth) (crossLength autoLength : Nat) :
    (call.withDepth depth).verdict crossLength autoLength =
      call.verdict crossLength autoLength := by
  have hheld : (call.withDepth depth).depth.heldBy .word = call.depth.heldBy .word :=
    depth.heldBy_word.trans call.depth.heldBy_word.symm
  unfold verdict validate validateAt
  rw [hheld]
  rfl

/-- The coefficient of a tap at a bit depth follows from that at a lower one. -/
theorem get_cross_withDepth (call : Call width) {lower higher : BitDepth} {factor : Nat}
    (hfactor : higher.divisor = lower.divisor * factor) (tap : Fin call.window.taps) :
    (call.withDepth higher).normalEquations.cross.get tap =
      ((call.withDepth lower).normalEquations.cross.get tap).tdiv factor := by
  calc (call.withDepth higher).normalEquations.cross.get tap
      = (call.crossSum tap).tdiv higher.divisor := get_cross_eq_tdiv (call.withDepth higher) tap
    _ = ((call.crossSum tap).tdiv lower.divisor).tdiv factor := by rw [tdiv_tdiv, hfactor]
    _ = ((call.withDepth lower).normalEquations.cross.get tap).tdiv factor :=
        congrArg (·.tdiv (factor : Int)) (get_cross_eq_tdiv (call.withDepth lower) tap).symm

/-- The coefficient of two taps at a bit depth follows from that at a lower one. -/
theorem get_auto_withDepth (call : Call width) {lower higher : BitDepth} {factor : Nat}
    (hfactor : higher.divisor = lower.divisor * factor) (first second : Fin call.window.taps) :
    (call.withDepth higher).normalEquations.auto.get (RowMajor.index first second) =
      ((call.withDepth lower).normalEquations.auto.get (RowMajor.index first second)).tdiv
        factor := by
  calc (call.withDepth higher).normalEquations.auto.get (RowMajor.index first second)
      = (call.autoSum first second).tdiv higher.divisor :=
        get_auto_eq_tdiv (call.withDepth higher) first second
    _ = ((call.autoSum first second).tdiv lower.divisor).tdiv factor := by
        rw [tdiv_tdiv, hfactor]
    _ = ((call.withDepth lower).normalEquations.auto.get (RowMajor.index first second)).tdiv
          factor :=
        congrArg (·.tdiv (factor : Int))
          (get_auto_eq_tdiv (call.withDepth lower) first second).symm

/-- A call on words gets the same verdict at every bit depth. If it is accepted, its entries at 10
bits are those at 8 bits divided by 4, and its entries at 12 bits are those at 8 bits divided by 16
and also those at 10 bits divided by 4, rounded toward zero. -/
theorem run_entries_of_depths (call : Call .word) (outputs : Outputs) :
    (∀ depth, (call.withDepth depth).verdict outputs.cross.size outputs.auto.size =
      call.verdict outputs.cross.size outputs.auto.size) ∧
    ∀ method, call.verdict outputs.cross.size outputs.auto.size = .ok method →
      ∃ eights tens twelves : Outputs,
        (call.withDepth .eight).run outputs =
          ⟨.done (), eights, [(call.withDepth .eight).logRecord method]⟩ ∧
        (call.withDepth .ten).run outputs =
          ⟨.done (), tens, [(call.withDepth .ten).logRecord method]⟩ ∧
        (call.withDepth .twelve).run outputs =
          ⟨.done (), twelves, [(call.withDepth .twelve).logRecord method]⟩ ∧
        (∀ tap < call.window.taps, ScaledAt eights.cross tens.cross twelves.cross tap) ∧
        ∀ first < call.window.taps, ∀ second < call.window.taps,
          ScaledAt eights.auto tens.auto twelves.auto (first * call.window.taps + second) := by
  refine ⟨fun depth ↦ call.verdict_withDepth depth _ _, ?_⟩
  intro method haccepted
  have hdepth : ∀ depth, (call.withDepth depth).verdict outputs.cross.size outputs.auto.size =
      .ok method :=
    fun depth ↦ (call.verdict_withDepth depth _ _).trans haccepted
  have hrun := fun depth ↦ run_of_ok (hdepth depth)
  have hwrote := fun depth ↦ wrote_of_ok (hdepth depth)
  refine ⟨_, _, _, hrun .eight, hrun .ten, hrun .twelve, ?_, ?_⟩
  · intro tap htap
    have hentry := fun depth ↦ (hwrote depth).cross_tap ⟨tap, htap⟩
    exact ⟨_, _, _, hentry .eight, hentry .ten, hentry .twelve, call.get_cross_withDepth rfl _,
      call.get_cross_withDepth rfl _, call.get_cross_withDepth rfl _⟩
  · intro first hfirst second hsecond
    have hentry := fun depth ↦
      (hwrote depth).auto_entry (RowMajor.index ⟨first, hfirst⟩ ⟨second, hsecond⟩)
    exact ⟨_, _, _, hentry .eight, hentry .ten, hentry .twelve, call.get_auto_withDepth rfl _ _,
      call.get_auto_withDepth rfl _ _, call.get_auto_withDepth rfl _ _⟩

/-- The call `sparseChroma` is accepted at every depth. At 8 bits its entry for tap 7 is negative,
and at 10 and 12 bits it is rounded up. -/
theorem run_entries_of_depths_sparseChroma :
    sparseChroma.verdict 25 625 = .ok .reference ∧
    (∀ depth, (sparseChroma.withDepth depth).verdict 25 625 = .ok .reference) ∧
    ∃ eights tens twelves : Outputs,
      (sparseChroma.withDepth .eight).run (.zeros .chroma) =
        ⟨.done (), eights, [(sparseChroma.withDepth .eight).logRecord .reference]⟩ ∧
      (sparseChroma.withDepth .ten).run (.zeros .chroma) =
        ⟨.done (), tens, [(sparseChroma.withDepth .ten).logRecord .reference]⟩ ∧
      (sparseChroma.withDepth .twelve).run (.zeros .chroma) =
        ⟨.done (), twelves, [(sparseChroma.withDepth .twelve).logRecord .reference]⟩ ∧
      eights.cross[7]? = some (-5821) ∧ tens.cross[7]? = some (-1455) ∧
      twelves.cross[7]? = some (-363) := by
  have hfits := Outputs.fits_zeros .chroma
  have hown : sparseChroma.verdict 25 625 = .ok .reference := by decide
  obtain ⟨hsame, hruns⟩ := run_entries_of_depths sparseChroma (.zeros .chroma)
  have haccepted : ∀ depth, (sparseChroma.withDepth depth).verdict
      (Outputs.zeros .chroma).cross.size (Outputs.zeros .chroma).auto.size = .ok .reference :=
    fun depth ↦ (hsame depth).trans ((verdict_of_fits hfits).trans hown)
  obtain ⟨eights, tens, twelves, heights, htens, htwelves, hcross, -⟩ :=
    hruns _ ((verdict_of_fits hfits).trans hown)
  obtain ⟨eight, ten, twelve, height, hten, htwelve, rfl, rfl, -⟩ := hcross 7 (by decide)
  -- at 8 bits the entry is the sum itself
  have hvalue : eight = -5821 := by
    have hwrote := wrote_of_ok (haccepted .eight)
    have hwritten : eights = _ :=
      congrArg Run.outputs (heights.symm.trans (run_of_ok (haccepted .eight)))
    rw [hwritten, hwrote.cross_tap ⟨7, by decide⟩] at height
    rw [← Option.some.inj height]
    decide +kernel
  subst hvalue
  exact ⟨hown, fun depth ↦ (sparseChroma.verdict_withDepth depth 25 625).trans hown, eights, tens,
    twelves, heights, htens, htwelves, height, hten, htwelve⟩

end Call

end WienerRegression
