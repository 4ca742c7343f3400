import WienerRegression.Proofs.LeastSquares
import WienerRegression.Proofs.ScannedPixels
import WienerRegression.Proofs.Verdicts

/-!
# Brightness shifts

Adding an offset to every sample moves the average of a unit by exactly that offset, although the
average is rounded down: every pixel contributes the offset once, so the sum moves by a multiple of
the number of pixels (`Patch.mean_brighten`). Hence no deviation from the average changes, and an
accepted call leaves the same entries for the brighter samples (`Call.run_brighten`), as long as the
storage format can hold them.
-/

namespace WienerRegression

variable {width : SampleWidth}

/-- The sample that is brighter by an offset, or darker if the offset is negative. -/
def Sample.brighten (sample : Sample width) (offset : Int) : Sample width :=
  truncate width (sample.val + offset).toNat

/-- A brighter sample that the storage format can hold has the moved value. -/
theorem Sample.val_brighten {sample : Sample width} {offset : Int}
    (hlow : 0 ≤ sample.val + offset) (hhigh : sample.val + offset < width.levels) :
    ((sample.brighten offset).val : Int) = sample.val + offset := by
  unfold brighten
  rw [val_truncate, Nat.mod_eq_of_lt (by omega)]
  exact Int.toNat_of_nonneg hlow

namespace Patch

variable {patch : Patch width} {offset : Int}

/-- The storage format can hold every sample of the buffer with the offset added to it. -/
def AllowsOffset (patch : Patch width) (offset : Int) : Prop :=
  ∀ sample ∈ patch.buffer, 0 ≤ sample.val + offset ∧ sample.val + offset < width.levels

/-- The patch whose samples are brighter by an offset, with the same stride and origin. -/
def brighten (patch : Patch width) (offset : Int) : Patch width where
  buffer := patch.buffer.map (·.brighten offset)
  stride := patch.stride
  origin := patch.origin
  stride_pos := patch.stride_pos
  origin_lt := by
    rw [Array.size_map]
    exact patch.origin_lt

/-- A brighter patch addresses its buffer as before. -/
theorem sameLayout_brighten (patch : Patch width) (offset : Int) :
    (patch.brighten offset).SameLayout patch where
  size_eq := Array.size_map
  stride_eq := rfl
  origin_eq := rfl

/-- The samples of a brighter patch have the moved values. -/
theorem AllowsOffset.val_of_getElem? (h : patch.AllowsOffset offset) {index : Nat}
    {sample bright : Sample width} (hsample : patch.buffer[index]? = some sample)
    (hbright : (patch.brighten offset).buffer[index]? = some bright) :
    (bright.val : Int) = sample.val + offset := by
  have hmoved : (patch.buffer.map (·.brighten offset))[index]? = some (sample.brighten offset) := by
    rw [Array.getElem?_map, hsample]
    rfl
  obtain ⟨hlow, hhigh⟩ := h sample (Array.mem_of_getElem? hsample)
  rw [← Option.some.inj (hmoved.symm.trans hbright)]
  exact Sample.val_brighten hlow hhigh

/-- The pixels of a unit have the moved values in a brighter patch. -/
theorem AllowsOffset.val_sampleAt (h : patch.AllowsOffset offset) {rect : Rect}
    (hlast : patch.lastIndex rect < patch.buffer.size) {x y : Nat} (hx : x < rect.right)
    (hy : y < rect.bottom) :
    (((patch.brighten offset).sampleAt x y).val : Int) = (patch.sampleAt x y).val + offset := by
  have hindex := index_lt_size hlast hx hy
  have hbright : (patch.brighten offset).index x y < (patch.brighten offset).buffer.size :=
    Nat.lt_of_lt_of_eq hindex (patch.sameLayout_brighten offset).size_eq.symm
  exact h.val_of_getElem? (getElem?_index hindex) (getElem?_index hbright)

/-- The sum of a unit moves by the offset once for each pixel. -/
theorem unitSum_brighten (h : patch.AllowsOffset offset) {rect : Rect}
    (hlast : patch.lastIndex rect < patch.buffer.size) :
    ((patch.brighten offset).unitSum rect : Int) = patch.unitSum rect + rect.area * offset := by
  have hpixels : ∀ y ∈ Finset.Ico rect.top rect.bottom, ∀ x ∈ Finset.Ico rect.left rect.right,
      (((patch.brighten offset).sampleAt x y).val : Int) = (patch.sampleAt x y).val + offset := by
    intro y hy x hx
    exact h.val_sampleAt hlast (Finset.mem_Ico.mp hx).2 (Finset.mem_Ico.mp hy).2
  calc ((patch.brighten offset).unitSum rect : Int)
      = ∑ y ∈ Finset.Ico rect.top rect.bottom, ∑ x ∈ Finset.Ico rect.left rect.right,
          ((patch.sampleAt x y).val + offset) := by
        unfold unitSum
        push_cast
        exact Finset.sum_congr rfl fun y hy ↦ Finset.sum_congr rfl (hpixels y hy)
    _ = patch.unitSum rect + rect.area * offset := by
        simp only [Finset.sum_add_distrib, rect.sum_const]
        unfold unitSum
        push_cast
        rfl

/-- The average of a unit moves by exactly the offset, although it is rounded down. -/
theorem mean_brighten (h : patch.AllowsOffset offset) {rect : Rect}
    (hlast : patch.lastIndex rect < patch.buffer.size) :
    ((patch.brighten offset).mean rect : Int) = patch.mean rect + offset := by
  have harea : (rect.area : Int) ≠ 0 := by
    have := rect.area_pos
    omega
  unfold mean
  rw [Int.natCast_ediv, unitSum_brighten h hlast, Int.add_mul_ediv_left _ _ harea,
    Int.natCast_ediv]

end Patch

namespace Call

variable {call : Call width} {offset : Int}

/-- The call on samples that are brighter by an offset in both buffers. -/
def brighten (call : Call width) (offset : Int) : Call width :=
  { call with degraded := call.degraded.brighten offset, source := call.source.brighten offset }

/-- The geometry of a call does not depend on how bright its samples are. -/
theorem sameGeometry_brighten (call : Call width) (offset : Int) :
    (call.brighten offset).SameGeometry call where
  window_eq := rfl
  degraded_layout := call.degraded.sameLayout_brighten offset
  source_layout := call.source.sameLayout_brighten offset
  rect_eq := rfl
  depth_eq := rfl
  method_eq := rfl

/-- Both buffers of a call allow for an offset. -/
structure AllowsOffset (call : Call width) (offset : Int) : Prop where
  degraded : call.degraded.AllowsOffset offset
  source : call.source.AllowsOffset offset

/-- No tap of a scanned pixel deviates differently from the average of brighter samples. -/
theorem AllowsOffset.tapDeviation_eq (h : call.AllowsOffset offset) (hcall : call.Admissible)
    (hbright : (call.brighten offset).Admissible) {x y : Nat} (hpixel : call.ScansPixel x y)
    (tap : Fin call.window.taps) :
    (call.brighten offset).tapDeviation tap x y = call.tapDeviation tap x y := by
  obtain ⟨index, hindex, hsample⟩ := hcall.exists_index_tapAt hpixel.left_le hpixel.lt_right
    hpixel.top_le hpixel.lt_bottom (call.window.tapRow_lt tap) (call.window.tapColumn_lt tap)
  obtain ⟨other, hother, hmoved⟩ := hbright.exists_index_tapAt hpixel.left_le hpixel.lt_right
    hpixel.top_le hpixel.lt_bottom (call.window.tapRow_lt tap) (call.window.tapColumn_lt tap)
  -- the geometry is the same, so both calls read the tap at one index
  have hsame : other = index := Nat.add_right_cancel (hother.trans hindex.symm)
  subst hsame
  have hvalue := h.degraded.val_of_getElem? hsample hmoved
  have hmean := Patch.mean_brighten h.degraded hcall.lastDegraded_lt
  show (((call.brighten offset).tapAt (call.window.tapRow tap) (call.window.tapColumn tap)
    x y).val : Int) - (call.degraded.brighten offset).mean call.rect = _
  rw [hmean, hvalue]
  unfold tapDeviation
  omega

/-- No source sample of a scanned pixel deviates differently from the average of brighter
samples. -/
theorem AllowsOffset.sourceDeviation_eq (h : call.AllowsOffset offset) (hcall : call.Admissible)
    {x y : Nat} (hpixel : call.ScansPixel x y) :
    (call.brighten offset).sourceDeviation x y = call.sourceDeviation x y := by
  have hvalue := h.source.val_sampleAt hcall.lastPixel_lt hpixel.lt_right hpixel.lt_bottom
  have hmean := Patch.mean_brighten h.degraded hcall.lastDegraded_lt
  show (((call.source.brighten offset).sampleAt x y).val : Int) -
    (call.degraded.brighten offset).mean call.rect = _
  rw [hvalue, hmean]
  unfold sourceDeviation
  omega

/-- The correlation of a tap with the source is that of the brighter samples. -/
theorem AllowsOffset.crossSum_eq (h : call.AllowsOffset offset) (hcall : call.Admissible)
    (hbright : (call.brighten offset).Admissible) (tap : Fin call.window.taps) :
    (call.brighten offset).crossSum tap = call.crossSum tap := by
  show call.weightedSum (fun x y ↦ (call.brighten offset).tapDeviation tap x y *
    (call.brighten offset).sourceDeviation x y) = _
  refine weightedSum_congr fun x y hpixel ↦ ?_
  rw [h.tapDeviation_eq hcall hbright hpixel, h.sourceDeviation_eq hcall hpixel]

/-- The correlation of two taps is that of the brighter samples. -/
theorem AllowsOffset.autoSum_eq (h : call.AllowsOffset offset) (hcall : call.Admissible)
    (hbright : (call.brighten offset).Admissible) (first second : Fin call.window.taps) :
    (call.brighten offset).autoSum first second = call.autoSum first second := by
  show call.weightedSum (fun x y ↦ (call.brighten offset).tapDeviation first x y *
    (call.brighten offset).tapDeviation second x y) = _
  refine weightedSum_congr fun x y hpixel ↦ ?_
  rw [h.tapDeviation_eq hcall hbright hpixel, h.tapDeviation_eq hcall hbright hpixel]

/-- The coefficients of the normal equations are those of the brighter samples. -/
theorem AllowsOffset.normalEquations_eq (h : call.AllowsOffset offset) (hcall : call.Admissible)
    (hbright : (call.brighten offset).Admissible) :
    (call.brighten offset).normalEquations = call.normalEquations := by
  refine Statistics.ext_get ?_ ?_
  · intro tap
    calc (call.brighten offset).normalEquations.cross.get tap
        = ((call.brighten offset).crossSum tap).tdiv call.depth.divisor := get_cross_eq_tdiv _ tap
      _ = (call.crossSum tap).tdiv call.depth.divisor :=
          congrArg (·.tdiv (call.depth.divisor : Int)) (h.crossSum_eq hcall hbright tap)
      _ = call.normalEquations.cross.get tap := (call.get_cross_eq_tdiv tap).symm
  · intro entry
    obtain ⟨first, second, rfl⟩ : ∃ first second, RowMajor.index first second = entry :=
      ⟨_, _, RowMajor.index_row_column entry⟩
    calc (call.brighten offset).normalEquations.auto.get (RowMajor.index first second)
        = ((call.brighten offset).autoSum first second).tdiv call.depth.divisor :=
          get_auto_eq_tdiv _ first second
      _ = (call.autoSum first second).tdiv call.depth.divisor :=
          congrArg (·.tdiv (call.depth.divisor : Int)) (h.autoSum_eq hcall hbright first second)
      _ = call.normalEquations.auto.get (RowMajor.index first second) :=
          (call.get_auto_eq_tdiv first second).symm

/-- An accepted call is accepted for samples that are brighter by an offset, in both buffers, and
leaves the same entries in the outputs. -/
theorem run_brighten (call : Call width) (outputs : Outputs) (offset : Int) {method : Method}
    (haccepted : call.verdict outputs.cross.size outputs.auto.size = .ok method)
    (hallows : call.AllowsOffset offset) :
    (call.brighten offset).verdict outputs.cross.size outputs.auto.size = .ok method ∧
    ∃ written,
      call.run outputs = ⟨.done (), written, [call.logRecord method]⟩ ∧
      (call.brighten offset).run outputs =
        ⟨.done (), written, [(call.brighten offset).logRecord method]⟩ := by
  have hbright : (call.brighten offset).verdict outputs.cross.size outputs.auto.size =
      .ok method :=
    (verdict_eq_of_sameGeometry (call.sameGeometry_brighten offset) _ _).trans haccepted
  refine ⟨hbright, _, run_of_ok haccepted, ?_⟩
  rw [run_of_ok hbright, hallows.normalEquations_eq (verdict_eq_ok_iff.mp haccepted).1
    (verdict_eq_ok_iff.mp hbright).1]
  rfl

/-- All samples of `sparseChroma` can be brighter by 65435. -/
theorem allowsOffset_sparseChroma : sparseChroma.AllowsOffset 65435 := by
  have hvalue : ∀ value ≤ 100, 0 ≤ ((Sample.truncate .word value).val : Int) + 65435 ∧
      ((Sample.truncate .word value).val : Int) + 65435 < SampleWidth.word.levels := by
    intro value hvalue
    simp only [Sample.val_truncate, SampleWidth.levels]
    omega
  constructor
  · intro sample hsample
    obtain ⟨i, -, rfl⟩ := List.mem_map.mp (List.mem_toArray.mp hsample)
    exact hvalue _ (Nat.le_of_lt_succ (Nat.mod_lt _ (by decide)))
  · intro sample hsample
    obtain ⟨i, -, rfl⟩ := List.mem_map.mp (List.mem_toArray.mp hsample)
    exact hvalue _ (Nat.le_trans (Nat.le_of_lt (Nat.mod_lt _ (by decide))) (by decide))

/-- The call `sparseChroma` leaves the same entries for samples that are brighter by 65435, up to
white. -/
theorem run_brighten_sparseChroma :
    sparseChroma.verdict 25 626 = .ok .reference ∧ sparseChroma.AllowsOffset 65435 ∧
    (sparseChroma.brighten 65435).verdict 25 626 = .ok .reference ∧
    ∃ written,
      sparseChroma.run ⟨Array.replicate 25 9, Array.replicate 626 9⟩ =
        ⟨.done (), written, [sparseChroma.logRecord .reference]⟩ ∧
      (sparseChroma.brighten 65435).run ⟨Array.replicate 25 9, Array.replicate 626 9⟩ =
        ⟨.done (), written, [(sparseChroma.brighten 65435).logRecord .reference]⟩ := by
  have haccepted : sparseChroma.verdict 25 626 = .ok .reference := by decide
  obtain ⟨hbrighter, hruns⟩ := run_brighten sparseChroma
    ⟨Array.replicate 25 9, Array.replicate 626 9⟩ 65435 (by simpa using haccepted)
    allowsOffset_sparseChroma
  exact ⟨haccepted, allowsOffset_sparseChroma, by simpa using hbrighter, hruns⟩

end Call

end WienerRegression
