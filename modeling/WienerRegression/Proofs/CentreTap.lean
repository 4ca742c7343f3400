import WienerRegression.Proofs.AlikeUnits
import WienerRegression.Proofs.LeastSquares
import WienerRegression.Proofs.SampleBounds
import WienerRegression.Proofs.ScannedPixels

/-!
# The centre tap

The tap in the middle of the window sees the degraded sample of the pixel itself
(`Call.tapDeviation_centre`), although it is found from the start of the halo and not from the
pixel. Where the source equals the degraded content, the source correlates with every tap as the
centre tap does, so the vector is the row and the column of the matrix that belong to the centre tap
(`Call.run_cross_eq_centre_of_auto`).
-/

namespace WienerRegression

namespace Window

/-- The middle of a side is a position on it. -/
theorem halo_lt_side (window : Window) : window.halo < window.side := by
  have hside := window.side_eq
  omega

/-- The tap in the middle of the window. -/
def centre (window : Window) : Fin window.taps :=
  window.tapOf window.halo_lt_side window.halo_lt_side

end Window

namespace Call

variable {width : SampleWidth} {call : Call width}

/-- The source equals the degraded content at every scanned pixel. -/
def SourceIsDegraded (call : Call width) : Prop :=
  ∀ x y, call.ScansPixel x y → call.source.get? x y = call.degraded.get? x y

/-- The centre tap sees the degraded sample of the pixel itself. -/
theorem tapDeviation_centre (call : Call width) (x y : Nat) :
    call.tapDeviation call.window.centre x y =
      (call.degraded.sampleAt x y).val - call.degraded.mean call.rect := by
  unfold tapDeviation Window.centre
  rw [Window.tapRow_tapOf, Window.tapColumn_tapOf, tapAt_halo]

/-- Where the source equals the degraded content, it deviates from the average as the centre tap
does. -/
theorem Admissible.sourceDeviation_eq (h : call.Admissible) (hsame : call.SourceIsDegraded)
    {x y : Nat} (hpixel : call.ScansPixel x y) :
    call.sourceDeviation x y = call.tapDeviation call.window.centre x y := by
  have hsource : call.source.get? x y = some (call.source.sampleAt x y) :=
    Patch.get?_eq h.lastPixel_lt hpixel.lt_right hpixel.lt_bottom
  have hdegraded : call.degraded.get? x y = some (call.degraded.sampleAt x y) :=
    Patch.get?_eq h.lastDegraded_lt hpixel.lt_right hpixel.lt_bottom
  have hequal := hsame x y hpixel
  rw [hsource, hdegraded] at hequal
  rw [tapDeviation_centre, ← Option.some.inj hequal]
  rfl

/-- The correlation of two taps does not depend on their order. -/
theorem autoSum_comm (call : Call width) (first second : Fin call.window.taps) :
    call.autoSum first second = call.autoSum second first :=
  weightedSum_congr fun _ _ _ ↦ mul_comm _ _

/-- Where the source equals the degraded content, a tap correlates with it as with the centre
tap. -/
theorem Admissible.crossSum_eq_autoSum_centre (h : call.Admissible)
    (hsame : call.SourceIsDegraded) (tap : Fin call.window.taps) :
    call.crossSum tap = call.autoSum tap call.window.centre := by
  refine weightedSum_congr fun x y hpixel ↦ ?_
  rw [h.sourceDeviation_eq hsame hpixel]

/-- If the source equals the degraded content at every scanned pixel, an accepted run leaves the
same entries in the vector, in the row of the centre tap of the matrix, and in its column. -/
theorem run_cross_eq_centre_of_auto (call : Call width) (outputs : Outputs) {method : Method}
    (haccepted : call.verdict outputs.cross.size outputs.auto.size = .ok method)
    (hsame : call.SourceIsDegraded) :
    ∃ written, call.run outputs = ⟨.done (), written, [call.logRecord method]⟩ ∧
      ∀ tap < call.window.taps, ∃ entry,
        written.cross[tap]? = some entry ∧
        written.auto[(call.window.halo * call.window.side + call.window.halo) *
          call.window.taps + tap]? = some entry ∧
        written.auto[tap * call.window.taps +
          (call.window.halo * call.window.side + call.window.halo)]? = some entry := by
  have hcall := (verdict_eq_ok_iff.mp haccepted).1
  have hwrote := wrote_of_ok haccepted
  refine ⟨_, run_of_ok haccepted, ?_⟩
  intro tap htap
  have hcross := hwrote.cross_tap ⟨tap, htap⟩
  have hrow := hwrote.auto_entry (RowMajor.index call.window.centre ⟨tap, htap⟩)
  have hcolumn := hwrote.auto_entry (RowMajor.index ⟨tap, htap⟩ call.window.centre)
  rw [get_cross_eq_tdiv, hcall.crossSum_eq_autoSum_centre hsame] at hcross
  rw [get_auto_eq_tdiv, autoSum_comm] at hrow
  rw [get_auto_eq_tdiv] at hcolumn
  exact ⟨_, hcross, hrow, hcolumn⟩

/-- A sparse call whose source repeats the degraded content of `sparseChroma` in the two scanned
rows, at another stride, and is bright in the three rows between them. -/
def copiedChroma : Call .word :=
  { sparseChroma with
    source := {
      buffer := ((List.range 40).map fun i ↦
        let pixel := 16 + i / 8 * 7 + i % 8
        Sample.truncate .word (if i / 8 % 4 = 0 then pixel * pixel % 101 else 4095)).toArray
      stride := 8
      origin := 0
      stride_pos := Nat.zero_lt_succ _
      origin_lt := by decide } }

/-- The source of `copiedChroma` equals the degraded content in the scanned rows. -/
theorem sourceIsDegraded_copiedChroma : copiedChroma.SourceIsDegraded := by
  have hrows : ∀ visit ∈ (RowScan.ofRows 0 5 true).toList, ∀ x < 3,
      copiedChroma.source.get? x visit.1 = copiedChroma.degraded.get? x visit.1 := by
    decide
  intro x y hpixel
  obtain ⟨weight, hvisit⟩ := hpixel.row_mem
  exact hrows (y, weight) hvisit x hpixel.lt_right

/-- The call `copiedChroma` is accepted, and its vector is the row and the column of tap 12 of its
matrix. -/
theorem run_cross_copiedChroma :
    copiedChroma.verdict 25 626 = .ok .reference ∧ copiedChroma.SourceIsDegraded ∧
    ∃ written, copiedChroma.run ⟨Array.replicate 25 9, Array.replicate 626 9⟩ =
        ⟨.done (), written, [copiedChroma.logRecord .reference]⟩ ∧
      ∀ tap < 25, ∃ entry, written.cross[tap]? = some entry ∧
        written.auto[12 * 25 + tap]? = some entry ∧ written.auto[tap * 25 + 12]? = some entry := by
  have haccepted : copiedChroma.verdict 25 626 = .ok .reference := by decide
  exact ⟨haccepted, sourceIsDegraded_copiedChroma, run_cross_eq_centre_of_auto copiedChroma
    ⟨Array.replicate 25 9, Array.replicate 626 9⟩ (by simpa using haccepted)
    sourceIsDegraded_copiedChroma⟩

end Call

end WienerRegression
