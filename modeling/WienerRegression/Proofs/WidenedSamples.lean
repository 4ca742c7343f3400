import WienerRegression.Proofs.AlikeUnits

/-!
# Bytes stored as words

Content of 8 bits can be stored in bytes or in words. The row accumulator of a row of bytes has 32
bits and that of a row of words has 64, but no row that is accepted is wide enough to tell them
apart (`StagedSums.ofRow_map_widen`), and the average is the same number in both formats
(`Patch.average_widen`). So an accepted call on bytes is accepted on words as well and leaves the
same entries (`Call.run_widen`).
-/

namespace WienerRegression

/-- A word has more levels than a byte. -/
theorem SampleWidth.levels_byte_le_word : SampleWidth.byte.levels ≤ SampleWidth.word.levels := by
  decide

/-- A row of bytes that is not too wide is not too wide as a row of words. -/
theorem SampleWidth.stagedRowLimit_byte_le_word :
    SampleWidth.byte.stagedRowLimit ≤ SampleWidth.word.stagedRowLimit := by
  decide

/-- The sample of the same value in a word. -/
def Sample.widen (sample : Sample .byte) : Sample .word :=
  ⟨sample.val, Nat.lt_of_lt_of_le sample.isLt SampleWidth.levels_byte_le_word⟩

/-- Widening a sample keeps its value. -/
@[simp] theorem Sample.val_widen (sample : Sample .byte) : sample.widen.val = sample.val := rfl

namespace Observation

variable {window : Window}

/-- The observation of the same samples in words. -/
def widen (pixel : Observation .byte window) : Observation .word window where
  source := pixel.source.widen
  taps := pixel.taps.map Sample.widen

/-- The source sample of a widened observation has the same value. -/
@[simp] theorem source_widen (pixel : Observation .byte window) :
    pixel.widen.source = pixel.source.widen := rfl

/-- The samples at the taps of a widened observation have the same values. -/
@[simp] theorem tap_widen (pixel : Observation .byte window) (tap : Fin window.taps) :
    pixel.widen.tap tap = (pixel.tap tap).widen :=
  Vector.getElem_map Sample.widen tap.isLt

end Observation

namespace StagedSums

variable {window : Window}

/-- A sum over widened pixels of a quantity that depends on the values alone. -/
theorem sumOver_map_widen {pixels : List (Observation .byte window)}
    {narrow : Observation .byte window → Nat} {wide : Observation .word window → Nat}
    (h : ∀ pixel, wide pixel.widen = narrow pixel) :
    sumOver (pixels.map Observation.widen) wide = sumOver pixels narrow := by
  unfold sumOver
  rw [List.map_map]
  simp [Function.comp_def, h]

/-- A row of bytes that is not too wide and the row of the same samples in words are staged to the
same sums, although the accumulator of the one has half as many bits as that of the other. -/
theorem ofRow_map_widen {pixels : List (Observation .byte window)}
    (hfits : pixels.length ≤ SampleWidth.byte.stagedRowLimit) :
    ofRow (pixels.map Observation.widen) = ofRow pixels := by
  have hwide : (pixels.map Observation.widen).length ≤ SampleWidth.word.stagedRowLimit := by
    rw [List.length_map]
    exact Nat.le_trans hfits SampleWidth.stagedRowLimit_byte_le_word
  -- neither accumulator wraps, so both rows are staged exactly
  rw [ofRow_eq hwide, ofRow_eq hfits]
  refine ext_get ?_ ?_ ?_ ?_
  · exact sumOver_map_widen fun pixel ↦ by simp
  · intro tap
    rw [get_taps_ofPixels, get_taps_ofPixels]
    exact sumOver_map_widen fun pixel ↦ by simp
  · intro tap
    rw [get_cross_ofPixels, get_cross_ofPixels]
    exact sumOver_map_widen fun pixel ↦ by simp [Sample.product]
  · intro entry
    rw [get_auto_ofPixels, get_auto_ofPixels]
    exact sumOver_map_widen fun pixel ↦ by simp [Sample.product]

end StagedSums

namespace Patch

/-- The patch on the same samples in words, with the same stride and origin. -/
def widen (patch : Patch .byte) : Patch .word where
  buffer := patch.buffer.map Sample.widen
  stride := patch.stride
  origin := patch.origin
  stride_pos := patch.stride_pos
  origin_lt := by
    rw [Array.size_map]
    exact patch.origin_lt

/-- A widened patch has as many samples. -/
theorem size_widen (patch : Patch .byte) : patch.widen.buffer.size = patch.buffer.size :=
  Array.size_map

/-- The samples of a widened patch have the same values. -/
@[simp] theorem sampleAt_widen (patch : Patch .byte) (x y : Int) :
    patch.widen.sampleAt x y = (patch.sampleAt x y).widen := by
  have hsigned : patch.widen.signedIndex x y = patch.signedIndex x y := rfl
  unfold sampleAt
  rw [hsigned]
  cases patch.signedIndex x y with
  | ofNat index =>
      by_cases hindex : index < patch.buffer.size
      · simp [widen, Array.getD, hindex]
      · simp [widen, Array.getD, hindex, Sample.widen, Sample.zero]
  | negSucc index => rfl

/-- The average of a unit is the same number in bytes and in words. -/
theorem mean_widen (patch : Patch .byte) (rect : Rect) :
    patch.widen.mean rect = patch.mean rect := by
  simp [mean, unitSum]

/-- The average of a unit is found in bytes and in words, and narrowing it to either format keeps
it. -/
theorem average_widen {patch : Patch .byte} {rect : Rect}
    (h : patch.lastIndex rect < patch.buffer.size) :
    ∃ average, patch.average rect = .done average ∧
      patch.widen.average rect = .done average.widen := by
  have hwide : patch.widen.lastIndex rect < patch.widen.buffer.size :=
    Nat.lt_of_lt_of_eq h patch.size_widen.symm
  refine ⟨⟨patch.mean rect, patch.mean_lt_levels rect⟩, ?_, ?_⟩
  · rw [average_eq, if_neg (Nat.not_le.mpr h)]
  · rw [average_eq, if_neg (Nat.not_le.mpr hwide)]
    simp [Sample.widen, mean_widen]

end Patch

namespace Call

/-- The call on the same samples in words. -/
def widen (call : Call .byte) : Call .word where
  window := call.window
  degraded := call.degraded.widen
  source := call.source.widen
  rect := call.rect
  depth := call.depth
  options := call.options

variable {call : Call .byte}

/-- Words hold what bytes hold, their rows may be wider, and the geometry is the same. -/
theorem Admissible.widen (h : call.Admissible) : call.widen.Admissible where
  depth_le := Nat.le_trans h.depth_le (by decide)
  left_even := h.left_even
  width_le := Nat.le_trans h.width_le SampleWidth.stagedRowLimit_byte_le_word
  reach_le := h.reach_le
  lastTap_lt := Nat.lt_of_lt_of_eq h.lastTap_lt call.degraded.size_widen.symm
  lastPixel_lt := Nat.lt_of_lt_of_eq h.lastPixel_lt call.source.size_widen.symm

/-- The units of the call on bytes and of the call on words look alike. -/
theorem unitsAlike_widen (call : Call .byte) : call.UnitsAlike call.widen where
  width_eq := rfl
  height_eq := rfl
  sparse_eq := rfl
  depth_eq := rfl
  degraded_eq := fun _ _ _ _ ↦ by simp [Call.widen]
  source_eq := fun _ _ _ _ ↦ by simp [Call.widen]

/-- Every tap sees the same samples in bytes and in words. -/
theorem tapsAlike_widen (call : Call .byte) (r c : Nat) : call.TapsAlike call.widen r c r c :=
  fun _ _ _ _ ↦ by simp [Call.widen, tapAt]

/-- The coefficients are the same for bytes and for words. -/
theorem normalEquations_widen (call : Call .byte) :
    call.widen.normalEquations = call.normalEquations := by
  refine Statistics.ext_get ?_ ?_
  · intro tap
    exact (call.unitsAlike_widen.get_cross_eq (call.tapsAlike_widen _ _)).symm
  · intro entry
    rw [← RowMajor.index_row_column entry]
    exact (call.unitsAlike_widen.get_auto_eq (call.tapsAlike_widen _ _)
      (call.tapsAlike_widen _ _)).symm

/-- An accepted call on bytes is accepted on the same samples in words and leaves the same entries.
The average is the same number in both formats, and a row of the call is staged to the same sums in
both accumulators, also if it is as wide as a row of bytes may be and all its samples are white. -/
theorem run_widen (call : Call .byte) (outputs : Outputs) {method : Method}
    (haccepted : call.verdict outputs.cross.size outputs.auto.size = .ok method) :
    call.widen.verdict outputs.cross.size outputs.auto.size = .ok method ∧
    (∃ written,
      call.run outputs = ⟨.done (), written, [call.logRecord method]⟩ ∧
      call.widen.run outputs = ⟨.done (), written, [call.widen.logRecord method]⟩) ∧
    (∃ average, call.degraded.average call.rect = .done average ∧
      call.widen.degraded.average call.rect = .done average.widen) ∧
    ∀ pixels : List (Observation .byte call.window),
      pixels.length ≤ SampleWidth.byte.stagedRowLimit →
      StagedSums.ofRow (pixels.map Observation.widen) = StagedSums.ofRow pixels := by
  obtain ⟨hcall, hcross, hauto, hmethod⟩ := verdict_eq_ok_iff.mp haccepted
  have hwide : call.widen.verdict outputs.cross.size outputs.auto.size = .ok method :=
    verdict_eq_ok_iff.mpr ⟨hcall.widen, hcross, hauto, hmethod⟩
  refine ⟨hwide, ⟨_, run_of_ok haccepted, ?_⟩, Patch.average_widen hcall.lastDegraded_lt, ?_⟩
  · rw [run_of_ok hwide, normalEquations_widen]
    rfl
  · intro pixels hfits
    exact StagedSums.ofRow_map_widen hfits

/-- A call on one row of white samples that is as wide as a row of bytes may be. -/
def widestWhite : Call .byte where
  window := .chroma
  degraded := {
    buffer := Array.replicate 165145 (Sample.truncate .byte 255)
    stride := 33029
    origin := 66060
    stride_pos := Nat.zero_lt_succ _
    origin_lt := by simp }
  source := {
    buffer := Array.replicate 33025 (Sample.truncate .byte 255)
    stride := 33025
    origin := 0
    stride_pos := Nat.zero_lt_succ _
    origin_lt := by simp }
  rect := ⟨0, 33025, 0, 1, by decide, Nat.zero_lt_one⟩
  depth := .eight
  options := ⟨false, .specialized⟩

/-- The halo of the widest row fills its buffer, and the row is just not too wide. -/
theorem admissible_widestWhite : widestWhite.Admissible where
  depth_le := by decide
  left_even := by decide
  width_le := by decide
  reach_le := by decide
  lastTap_lt := by
    simp [lastTap, Patch.lastIndex, Patch.index, reach, widestWhite, Window.halo, Window.side]
  lastPixel_lt := by
    simp [Patch.lastIndex, Patch.index, widestWhite]

/-- The widest row of white samples leaves the same entries in bytes and in words. -/
theorem run_widen_widestWhite :
    widestWhite.verdict 25 625 = .ok .specialized ∧
    widestWhite.rect.width = SampleWidth.byte.stagedRowLimit ∧
    ∃ written,
      widestWhite.run ⟨Array.replicate 25 9, Array.replicate 625 9⟩ =
        ⟨.done (), written, [widestWhite.logRecord .specialized]⟩ ∧
      widestWhite.widen.run ⟨Array.replicate 25 9, Array.replicate 625 9⟩ =
        ⟨.done (), written, [widestWhite.widen.logRecord .specialized]⟩ := by
  have haccepted : widestWhite.verdict 25 625 = .ok .specialized :=
    verdict_eq_ok_iff.mpr ⟨admissible_widestWhite, by decide, by decide, rfl⟩
  obtain ⟨-, hruns, -, -⟩ := run_widen widestWhite
    ⟨Array.replicate 25 9, Array.replicate 625 9⟩ (by simpa using haccepted)
  exact ⟨haccepted, rfl, hruns⟩

end Call

end WienerRegression
