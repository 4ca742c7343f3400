import WienerRegression.Proofs.AlikeUnits
import WienerRegression.Proofs.CentreTap
import WienerRegression.Proofs.SparseScans

/-!
# Transposed units

A full scan treats rows and columns alike in what it computes, although a row is staged two pixels
at a time, buffers have a stride in one direction only, and taps are numbered column by column. If
the unit of one call is that of another one with rows and columns exchanged, and so are the windows
around its pixels, then both have one average (`Call.Transposed.mean_eq`) and the sums over all
pixels agree (`Call.Transposed.unitTotal_eq`). The statistics are those of the other call with rows
and columns of the window exchanged (`Call.run_of_transposed`).
-/

namespace WienerRegression.Call

variable {width : SampleWidth} {call left right : Call width}

/-! ## Sums over all pixels -/

/-- A full scan counts every pixel of the unit once. -/
theorem weightedSum_eq_unitTotal_of_full (hfull : call.options.sparse = false)
    (quantity : Nat → Nat → Int) : call.weightedSum quantity = call.unitTotal quantity := by
  refine weightedSum_eq_unitTotal ?_
  rw [hfull]
  intro visit hvisit y hrow hgroup x _ _
  rw [RowScan.eq_row_of_mem_full hvisit hrow hgroup]

/-- A sum over all pixels of a unit, taken over its own rows and columns. -/
theorem unitTotal_eq_sum_range (call : Call width) (quantity : Nat → Nat → Int) :
    call.unitTotal quantity =
      ∑ row ∈ Finset.range call.rect.height, ∑ column ∈ Finset.range call.rect.width,
        quantity (call.rect.left + column) (call.rect.top + row) := by
  unfold unitTotal
  simp only [Finset.sum_Ico_eq_sum_range]
  rfl

/-! ## Exchanging rows and columns -/

/-- A tap lies in the column of the window that is the row of another tap, and in the row that is
the column of the other tap. -/
structure TapsExchanged (left right : Call width) (tap : Fin left.window.taps)
    (other : Fin right.window.taps) : Prop where
  row_eq : right.window.tapRow other = left.window.tapColumn tap
  column_eq : right.window.tapColumn other = left.window.tapRow tap

instance (tap : Fin left.window.taps) (other : Fin right.window.taps) :
    Decidable (left.TapsExchanged right tap other) :=
  decidable_of_iff (right.window.tapRow other = left.window.tapColumn tap ∧
      right.window.tapColumn other = left.window.tapRow tap)
    ⟨fun h ↦ ⟨h.1, h.2⟩, fun h ↦ ⟨h.row_eq, h.column_eq⟩⟩

/-- Two calls make full scans of units of which one is the other with rows and columns exchanged:
the source sample at each pixel is the one at the exchanged pixel of the other unit, and so are the
degraded samples at the taps, whose rows and columns in the window are exchanged too. Pixels are
counted from the first one of each unit. -/
structure Transposed (left right : Call width) : Prop where
  window_eq : right.window = left.window
  depth_eq : right.depth = left.depth
  left_full : left.options.sparse = false
  right_full : right.options.sparse = false
  width_eq : right.rect.width = left.rect.height
  height_eq : right.rect.height = left.rect.width
  source_eq : ∀ i < right.rect.width, ∀ j < right.rect.height,
    right.source.get? (right.rect.left + i) (right.rect.top + j) =
      left.source.get? (left.rect.left + j) (left.rect.top + i)
  tap_eq : ∀ tap other, left.TapsExchanged right tap other →
    ∀ i < right.rect.width, ∀ j < right.rect.height,
      right.tapSample? (right.rect.top + j) i other = left.tapSample? (left.rect.top + i) j tap

namespace Transposed

/-- The windows of transposed units have one side. -/
theorem side_eq (h : left.Transposed right) : right.window.side = left.window.side :=
  congrArg Window.side h.window_eq

/-- The windows of transposed units have equally many taps. -/
theorem taps_eq (h : left.Transposed right) : right.window.taps = left.window.taps :=
  congrArg Window.taps h.window_eq

/-- A sum over the pixels of a unit is the sum of the exchanged values over the pixels of the
transposed unit. -/
theorem sum_eq {R : Type} [AddCommMonoid R] (h : left.Transposed right)
    {value other : Nat → Nat → R}
    (hvalue : ∀ i < right.rect.width, ∀ j < right.rect.height, other i j = value j i) :
    ∑ row ∈ Finset.range right.rect.height, ∑ column ∈ Finset.range right.rect.width,
        other column row =
      ∑ row ∈ Finset.range left.rect.height, ∑ column ∈ Finset.range left.rect.width,
        value column row := by
  rw [Finset.sum_comm, ← h.width_eq, ← h.height_eq]
  refine Finset.sum_congr rfl fun i hi ↦ Finset.sum_congr rfl fun j hj ↦ ?_
  exact hvalue i (Finset.mem_range.mp hi) j (Finset.mem_range.mp hj)

/-- The sum of a quantity over the pixels of a unit is that of the exchanged quantity over the
pixels of the transposed unit. -/
theorem unitTotal_eq (h : left.Transposed right) {quantity other : Nat → Nat → Int}
    (hquantity : ∀ i < right.rect.width, ∀ j < right.rect.height,
      other (right.rect.left + i) (right.rect.top + j) =
        quantity (left.rect.left + j) (left.rect.top + i)) :
    right.unitTotal other = left.unitTotal quantity := by
  rw [unitTotal_eq_sum_range, unitTotal_eq_sum_range]
  exact h.sum_eq hquantity

/-- The source samples of transposed units are exchanged. -/
theorem source_sampleAt_eq (h : left.Transposed right) (hleft : left.Admissible)
    (hright : right.Admissible) {i j : Nat} (hi : i < right.rect.width)
    (hj : j < right.rect.height) :
    right.source.sampleAt (right.rect.left + i : Nat) (right.rect.top + j : Nat) =
      left.source.sampleAt (left.rect.left + j : Nat) (left.rect.top + i : Nat) := by
  have hread := h.source_eq i hi j hj
  rw [Patch.get?_eq hright.lastPixel_lt (Rect.left_add_lt hi) (Rect.top_add_lt hj),
    Patch.get?_eq hleft.lastPixel_lt (Rect.left_add_lt (h.height_eq ▸ hj))
      (Rect.top_add_lt (h.width_eq ▸ hi))] at hread
  exact Option.some.inj hread

/-- Exchanged taps of transposed units see the same samples. -/
theorem tapAt_eq (h : left.Transposed right) (hleft : left.Admissible)
    (hright : right.Admissible) {i j : Nat} (hi : i < right.rect.width)
    (hj : j < right.rect.height) {tap : Fin left.window.taps} {other : Fin right.window.taps}
    (htaps : left.TapsExchanged right tap other) :
    right.tapAt (right.window.tapRow other) (right.window.tapColumn other) (right.rect.left + i)
        (right.rect.top + j) =
      left.tapAt (left.window.tapRow tap) (left.window.tapColumn tap) (left.rect.left + j)
        (left.rect.top + i) := by
  have hread := h.tap_eq tap other htaps i hi j hj
  rw [hright.tapSample?_eq (Nat.le_add_right _ _) (Rect.top_add_lt hj) hi,
    hleft.tapSample?_eq (Nat.le_add_right _ _) (Rect.top_add_lt (h.width_eq ▸ hi))
      (h.height_eq ▸ hj)] at hread
  exact Option.some.inj hread

/-- The centre taps of transposed units are exchanged. -/
theorem centre_exchanged (h : left.Transposed right) :
    left.TapsExchanged right left.window.centre right.window.centre := by
  have hhalo : right.window.halo = left.window.halo := congrArg Window.halo h.window_eq
  unfold Window.centre
  constructor
  · rw [Window.tapRow_tapOf, Window.tapColumn_tapOf, hhalo]
  · rw [Window.tapRow_tapOf, Window.tapColumn_tapOf, hhalo]

/-- Transposed units have one average, because the centre tap of a pixel sees the pixel itself. -/
theorem mean_eq (h : left.Transposed right) (hleft : left.Admissible) (hright : right.Admissible) :
    right.degraded.mean right.rect = left.degraded.mean left.rect := by
  have hsample : ∀ i < right.rect.width, ∀ j < right.rect.height,
      (right.degraded.sampleAt (right.rect.left + i : Nat) (right.rect.top + j : Nat)).val =
        (left.degraded.sampleAt (left.rect.left + j : Nat) (left.rect.top + i : Nat)).val := by
    intro i hi j hj
    have hcentre := h.tapAt_eq hleft hright hi hj h.centre_exchanged
    unfold Window.centre at hcentre
    simp only [Window.tapRow_tapOf, Window.tapColumn_tapOf, tapAt_halo] at hcentre
    rw [hcentre]
  have hsum : right.degraded.unitSum right.rect = left.degraded.unitSum left.rect := by
    rw [Patch.unitSum_eq_sum_range, Patch.unitSum_eq_sum_range]
    exact h.sum_eq hsample
  unfold Patch.mean Rect.area
  rw [hsum, h.width_eq, h.height_eq, Nat.mul_comm]

/-- Exchanged taps deviate from the average alike. -/
theorem tapDeviation_eq (h : left.Transposed right) (hleft : left.Admissible)
    (hright : right.Admissible) {i j : Nat} (hi : i < right.rect.width)
    (hj : j < right.rect.height) {tap : Fin left.window.taps} {other : Fin right.window.taps}
    (htaps : left.TapsExchanged right tap other) :
    right.tapDeviation other (right.rect.left + i) (right.rect.top + j) =
      left.tapDeviation tap (left.rect.left + j) (left.rect.top + i) := by
  unfold tapDeviation
  rw [h.tapAt_eq hleft hright hi hj htaps, h.mean_eq hleft hright]

/-- Exchanged source samples deviate from the average alike. -/
theorem sourceDeviation_eq (h : left.Transposed right) (hleft : left.Admissible)
    (hright : right.Admissible) {i j : Nat} (hi : i < right.rect.width)
    (hj : j < right.rect.height) :
    right.sourceDeviation (right.rect.left + i) (right.rect.top + j) =
      left.sourceDeviation (left.rect.left + j) (left.rect.top + i) := by
  unfold sourceDeviation
  rw [h.source_sampleAt_eq hleft hright hi hj, h.mean_eq hleft hright]

/-- The coefficients of exchanged taps of transposed units are equal. -/
theorem get_cross_eq (h : left.Transposed right) (hleft : left.Admissible)
    (hright : right.Admissible) {tap : Fin left.window.taps} {other : Fin right.window.taps}
    (htaps : left.TapsExchanged right tap other) :
    right.normalEquations.cross.get other = left.normalEquations.cross.get tap := by
  have hsum : right.crossSum other = left.crossSum tap := by
    unfold crossSum
    rw [weightedSum_eq_unitTotal_of_full h.right_full, weightedSum_eq_unitTotal_of_full h.left_full]
    refine h.unitTotal_eq fun i hi j hj ↦ ?_
    rw [h.tapDeviation_eq hleft hright hi hj htaps, h.sourceDeviation_eq hleft hright hi hj]
  rw [get_cross_eq_tdiv, get_cross_eq_tdiv, hsum, h.depth_eq]

/-- The coefficients of exchanged pairs of taps of transposed units are equal. -/
theorem get_auto_eq (h : left.Transposed right) (hleft : left.Admissible)
    (hright : right.Admissible) {first second : Fin left.window.taps}
    {otherFirst otherSecond : Fin right.window.taps}
    (hfirst : left.TapsExchanged right first otherFirst)
    (hsecond : left.TapsExchanged right second otherSecond) :
    right.normalEquations.auto.get (RowMajor.index otherFirst otherSecond) =
      left.normalEquations.auto.get (RowMajor.index first second) := by
  have hsum : right.autoSum otherFirst otherSecond = left.autoSum first second := by
    unfold autoSum
    rw [weightedSum_eq_unitTotal_of_full h.right_full, weightedSum_eq_unitTotal_of_full h.left_full]
    refine h.unitTotal_eq fun i hi j hj ↦ ?_
    rw [h.tapDeviation_eq hleft hright hi hj hfirst, h.tapDeviation_eq hleft hright hi hj hsecond]
  rw [get_auto_eq_tdiv, get_auto_eq_tdiv, hsum, h.depth_eq]

/-- The numbers of exchanged taps. -/
theorem exists_exchanged (h : left.Transposed right) {r c : Nat} (hr : r < left.window.side)
    (hc : c < left.window.side) :
    ∃ (tap : Fin left.window.taps) (other : Fin right.window.taps),
      left.TapsExchanged right tap other ∧ tap.val = r * left.window.side + c ∧
        other.val = c * left.window.side + r := by
  have hr' : r < right.window.side := h.side_eq ▸ hr
  have hc' : c < right.window.side := h.side_eq ▸ hc
  refine ⟨left.window.tapOf hc hr, right.window.tapOf hr' hc', ⟨?_, ?_⟩, rfl, ?_⟩
  · rw [Window.tapRow_tapOf, Window.tapColumn_tapOf]
  · rw [Window.tapRow_tapOf, Window.tapColumn_tapOf]
  · rw [← h.side_eq]
    rfl

end Transposed

/-- Two accepted calls that make full scans of transposed units leave transposed statistics: the
entry of a tap is the one that the other call leaves for the tap in the exchanged row and column of
the window, and the entry of two taps is the one that it leaves for both exchanged taps. -/
theorem run_of_transposed (h : left.Transposed right) (leftOutputs rightOutputs : Outputs)
    {leftMethod rightMethod : Method}
    (hleft : left.verdict leftOutputs.cross.size leftOutputs.auto.size = .ok leftMethod)
    (hright : right.verdict rightOutputs.cross.size rightOutputs.auto.size = .ok rightMethod) :
    ∃ leftWritten rightWritten,
      left.run leftOutputs = ⟨.done (), leftWritten, [left.logRecord leftMethod]⟩ ∧
      right.run rightOutputs = ⟨.done (), rightWritten, [right.logRecord rightMethod]⟩ ∧
      (∀ r < left.window.side, ∀ c < left.window.side, ∃ entry,
        rightWritten.cross[c * left.window.side + r]? = some entry ∧
        leftWritten.cross[r * left.window.side + c]? = some entry) ∧
      ∀ r < left.window.side, ∀ c < left.window.side,
        ∀ r' < left.window.side, ∀ c' < left.window.side, ∃ entry,
          rightWritten.auto[(c * left.window.side + r) * left.window.taps +
            (c' * left.window.side + r')]? = some entry ∧
          leftWritten.auto[(r * left.window.side + c) * left.window.taps +
            (r' * left.window.side + c')]? = some entry := by
  have hleftCall := (verdict_eq_ok_iff.mp hleft).1
  have hrightCall := (verdict_eq_ok_iff.mp hright).1
  have hleftWrote := wrote_of_ok hleft
  have hrightWrote := wrote_of_ok hright
  refine ⟨_, _, run_of_ok hleft, run_of_ok hright, ?_, ?_⟩
  · intro r hr c hc
    obtain ⟨tap, other, htaps, htap, hother⟩ := h.exists_exchanged hr hc
    rw [← htap, ← hother]
    refine ⟨_, hrightWrote.cross_tap other, ?_⟩
    rw [h.get_cross_eq hleftCall hrightCall htaps]
    exact hleftWrote.cross_tap tap
  · intro r hr c hc r' hr' c' hc'
    obtain ⟨first, otherFirst, hfirst, hfirstVal, hotherFirst⟩ := h.exists_exchanged hr hc
    obtain ⟨second, otherSecond, hsecond, hsecondVal, hotherSecond⟩ := h.exists_exchanged hr' hc'
    rw [← hfirstVal, ← hotherFirst, ← hsecondVal, ← hotherSecond]
    have hentry := hrightWrote.auto_entry (RowMajor.index otherFirst otherSecond)
    rw [h.get_auto_eq hleftCall hrightCall hfirst hsecond] at hentry
    have hindex : otherFirst.val * left.window.taps + otherSecond.val =
        (RowMajor.index otherFirst otherSecond).val := by
      rw [← h.taps_eq]
      rfl
    rw [hindex]
    exact ⟨_, hentry, hleftWrote.auto_entry (RowMajor.index first second)⟩

/-- The unit of `sparseChroma` with rows and columns exchanged, in buffers of other strides and
origins. -/
def turnedChroma : Call .word where
  window := .chroma
  degraded := {
    buffer := ((List.range 81).map fun i ↦
      let pixel := i % 12 * 7 + i / 12
      Sample.truncate .word (pixel * pixel % 101)).toArray
    stride := 12
    origin := 10
    stride_pos := Nat.zero_lt_succ _
    origin_lt := by decide }
  source := {
    buffer := ((List.range 48).map fun i ↦
      let pixel := (i % 13 - 4) * 3 + (i / 13 - 1)
      Sample.truncate .word (pixel * pixel % 89)).toArray
    stride := 13
    origin := 0
    stride_pos := Nat.zero_lt_succ _
    origin_lt := by decide }
  rect := ⟨4, 9, 1, 4, by decide, by decide⟩
  depth := .ten
  options := ⟨false, .auto⟩

/-- The unit of `turnedChroma` is that of a full scan of `sparseChroma`, transposed. -/
theorem transposed_turnedChroma : (sparseChroma.withScan false).Transposed turnedChroma where
  window_eq := rfl
  depth_eq := rfl
  left_full := rfl
  right_full := rfl
  width_eq := rfl
  height_eq := rfl
  source_eq := by decide +kernel
  tap_eq := by decide +kernel

/-- A full scan of `sparseChroma` and the call `turnedChroma` leave transposed statistics. -/
theorem run_turnedChroma :
    (sparseChroma.withScan false).verdict 25 626 = .ok .reference ∧
    turnedChroma.verdict 25 625 = .ok .specialized ∧
    (sparseChroma.withScan false).Transposed turnedChroma ∧
    ∃ left right,
      (sparseChroma.withScan false).run ⟨Array.replicate 25 9, Array.replicate 626 9⟩ =
        ⟨.done (), left, [(sparseChroma.withScan false).logRecord .reference]⟩ ∧
      turnedChroma.run ⟨Array.replicate 25 9, Array.replicate 625 9⟩ =
        ⟨.done (), right, [turnedChroma.logRecord .specialized]⟩ ∧
      (∀ r < 5, ∀ c < 5, ∃ entry,
        right.cross[c * 5 + r]? = some entry ∧ left.cross[r * 5 + c]? = some entry) ∧
      ∀ r < 5, ∀ c < 5, ∀ r' < 5, ∀ c' < 5, ∃ entry,
        right.auto[(c * 5 + r) * 25 + (c' * 5 + r')]? = some entry ∧
        left.auto[(r * 5 + c) * 25 + (r' * 5 + c')]? = some entry := by
  have hleft : (sparseChroma.withScan false).verdict 25 626 = .ok .reference := by decide
  have hright : turnedChroma.verdict 25 625 = .ok .specialized := by decide
  exact ⟨hleft, hright, transposed_turnedChroma, run_of_transposed transposed_turnedChroma
    ⟨Array.replicate 25 9, Array.replicate 626 9⟩ ⟨Array.replicate 25 9, Array.replicate 625 9⟩
    (by simpa using hleft) (by simpa using hright)⟩

end WienerRegression.Call
