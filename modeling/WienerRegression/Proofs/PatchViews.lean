import Mathlib.Tactic.Common
import WienerRegression.Patch

/-!
# Patches as views of a buffer

All reads of a patch go through the index of a pixel, which is linear in the column and the row and
starts at the origin. So a patch whose origin is a pixel of another one shows what the other one
shows from that pixel on, whatever the stride (`showsFrom_of_origin_eq`). The ends of the buffer are
met in two ways: a sample has to be in the buffer, while a row has to end in it. A row of no samples
may therefore start right behind the last sample, where no sample can be read
(`rows_and_origins`).
-/

namespace WienerRegression.Patch

variable {width : SampleWidth} {patch : Patch width}

/-! ## Samples and rows -/

/-- A pixel further right has the index that is as much larger. -/
theorem index_add (patch : Patch width) (x y columns : Nat) :
    patch.index (x + columns) y = patch.index x y + columns :=
  (Nat.add_assoc _ _ _).symm

/-- A sample is read exactly when its index is in the buffer. -/
theorem exists_get?_iff {x y : Nat} :
    (∃ sample, patch.get? x y = some sample) ↔ patch.index x y < patch.buffer.size := by
  constructor
  · rintro ⟨sample, hread⟩
    exact (Array.getElem?_eq_some_iff.mp hread).1
  · exact fun hinside ↦ ⟨_, Array.getElem?_eq_getElem hinside⟩

/-- A row that ends in the buffer is read. -/
theorem row?_of_le {x y length : Nat} (h : patch.index x y + length ≤ patch.buffer.size) :
    patch.row? x y length =
      some (patch.buffer.extract (patch.index x y) (patch.index x y + length)) :=
  if_pos h

/-- A row that ends behind the buffer is not read. -/
theorem row?_of_lt {x y length : Nat} (h : patch.buffer.size < patch.index x y + length) :
    patch.row? x y length = none :=
  if_neg (Nat.not_le.mpr h)

/-- A row is read exactly when it ends in the buffer. -/
theorem exists_row?_iff {x y length : Nat} :
    (∃ samples, patch.row? x y length = some samples) ↔
      patch.index x y + length ≤ patch.buffer.size := by
  constructor
  · rintro ⟨samples, hread⟩
    by_contra hbehind
    rw [row?_of_lt (Nat.not_le.mp hbehind)] at hread
    cases hread
  · exact fun hend ↦ ⟨_, row?_of_le hend⟩

/-- A row of at least one sample is read exactly when its last sample is. -/
theorem exists_row?_iff_last {x y length : Nat} (hlength : 0 < length) :
    (∃ samples, patch.row? x y length = some samples) ↔
      ∃ sample, patch.get? (x + length - 1) y = some sample := by
  rw [exists_row?_iff, exists_get?_iff, Nat.add_sub_assoc hlength, index_add]
  omega

/-- A row that is read has the samples of its pixels and no others. -/
theorem samples_of_row? {x y length : Nat} {samples : Array (Sample width)}
    (h : patch.row? x y length = some samples) :
    samples.size = length ∧ ∀ column < length, samples[column]? = patch.get? (x + column) y := by
  have hend := exists_row?_iff.mp ⟨samples, h⟩
  rw [row?_of_le hend] at h
  cases h
  constructor
  · rw [Array.size_extract]
    omega
  · intro column hcolumn
    rw [Array.getElem?_extract, if_pos (by omega), get?, index_add]

/-- Rows are read like the samples of their pixels. -/
structure ReadsRows (patch : Patch width) : Prop where
  row_iff_end : ∀ x y length, (∃ samples, patch.row? x y length = some samples) ↔
    patch.index x y + length ≤ patch.buffer.size
  row_samples : ∀ x y length samples, patch.row? x y length = some samples →
    samples.size = length ∧ ∀ column < length, samples[column]? = patch.get? (x + column) y
  row_iff_last : ∀ x y length, 0 < length →
    ((∃ samples, patch.row? x y length = some samples) ↔
      ∃ sample, patch.get? (x + length - 1) y = some sample)

/-! ## Origins -/

/-- A patch that could be formed has the given buffer, stride and origin. -/
theorem ofOrigin?_eq_ok {buffer : Array (Sample width)} {stride origin : Nat}
    (h : ofOrigin? buffer stride origin = .ok patch) :
    patch.buffer = buffer ∧ patch.stride = stride ∧ patch.origin = origin := by
  unfold ofOrigin? at h
  split_ifs at h
  cases h
  exact ⟨rfl, rfl, rfl⟩

/-- Every patch can be formed from its buffer, stride and origin. -/
theorem ofOrigin?_self (patch : Patch width) :
    ofOrigin? patch.buffer patch.stride patch.origin = .ok patch := by
  rw [ofOrigin?, dif_pos patch.stride_pos, dif_pos patch.origin_lt]

/-- A patch can be formed if it has a stride and starts in its buffer. -/
theorem exists_ofOrigin?_eq_ok {buffer : Array (Sample width)} {stride origin : Nat}
    (hstride : 0 < stride) (horigin : origin < buffer.size) :
    ∃ patch, ofOrigin? buffer stride origin = .ok patch :=
  ⟨_, ofOrigin?_self ⟨buffer, stride, origin, hstride, horigin⟩⟩

/-- A patch can be formed exactly when it has a stride and starts in its buffer. -/
theorem exists_ofOrigin?_eq_ok_iff {buffer : Array (Sample width)} {stride origin : Nat} :
    (∃ patch, ofOrigin? buffer stride origin = .ok patch) ↔ 0 < stride ∧ origin < buffer.size := by
  constructor
  · rintro ⟨patch, hformed⟩
    obtain ⟨rfl, rfl, rfl⟩ := ofOrigin?_eq_ok hformed
    exact ⟨patch.stride_pos, patch.origin_lt⟩
  · exact fun h ↦ exists_ofOrigin?_eq_ok h.1 h.2

/-- A missing stride is the cause for a refusal whenever there is none. -/
theorem ofOrigin?_eq_zeroStride_iff {buffer : Array (Sample width)} {stride origin : Nat} :
    ofOrigin? buffer stride origin = .error .zeroStride ↔ stride = 0 := by
  unfold ofOrigin?
  split_ifs with hstride horigin
  · simpa using Nat.ne_of_gt hstride
  · simpa using Nat.ne_of_gt hstride
  · simpa using hstride

/-- An origin outside the buffer is the cause for a refusal if there is a stride. -/
theorem ofOrigin?_eq_originOutside_iff {buffer : Array (Sample width)} {stride origin : Nat} :
    ofOrigin? buffer stride origin = .error (.originOutside origin buffer.size) ↔
      0 < stride ∧ buffer.size ≤ origin := by
  unfold ofOrigin?
  split_ifs with hstride horigin
  · simpa [hstride] using horigin
  · simpa [hstride] using horigin
  · simp [hstride]

/-- A patch shows at each pixel what another one shows as many columns and rows further on. -/
structure ShowsFrom (patch whole : Patch width) (left top : Nat) : Prop where
  index_eq : ∀ x y, patch.index x y = whole.index (left + x) (top + y)
  get?_eq : ∀ x y, patch.get? x y = whole.get? (left + x) (top + y)
  row?_eq : ∀ x y length, patch.row? x y length = whole.row? (left + x) (top + y) length

/-- A patch whose origin is a pixel of another one shows what the other one shows from there on. -/
theorem showsFrom_of_origin_eq {whole : Patch width} {left top : Nat}
    (hbuffer : patch.buffer = whole.buffer) (hstride : patch.stride = whole.stride)
    (horigin : patch.origin = whole.index left top) : patch.ShowsFrom whole left top := by
  have hindex : ∀ x y, patch.index x y = whole.index (left + x) (top + y) := by
    intro x y
    calc patch.index x y
        = whole.origin + top * whole.stride + left + y * whole.stride + x := by
          rw [index, horigin, hstride, index]
      _ = whole.origin + (top * whole.stride + y * whole.stride) + (left + x) := by omega
      _ = whole.index (left + x) (top + y) := by rw [index, Nat.add_mul]
  constructor
  case index_eq => exact hindex
  case get?_eq =>
    intro x y
    rw [get?, get?, hbuffer, hindex]
  case row?_eq =>
    intro x y length
    rw [row?, row?, hbuffer, hindex]

/-- Every patch reads its rows like the samples of their pixels. A patch that starts at a pixel of
a buffer shows what the patch of the whole buffer shows from that pixel on. It can be formed if the
stride is not zero and the pixel is in the buffer; else it is refused, for the stride first. -/
theorem rows_and_origins (buffer : Array (Sample width)) (stride left top : Nat) :
    (∀ patch : Patch width, patch.ReadsRows) ∧
    (∀ patch, ofPixel? buffer stride left top = .ok patch →
      ∃ whole, ofBuffer? buffer stride = .ok whole ∧ patch.ShowsFrom whole left top) ∧
    ((∃ patch, ofPixel? buffer stride left top = .ok patch) ↔
      0 < stride ∧ top * stride + left < buffer.size) ∧
    (ofPixel? buffer stride left top = .error .zeroStride ↔ stride = 0) ∧
    (ofPixel? buffer stride left top =
        .error (.originOutside (top * stride + left) buffer.size) ↔
      0 < stride ∧ buffer.size ≤ top * stride + left) := by
  refine ⟨?_, ?_, exists_ofOrigin?_eq_ok_iff, ofOrigin?_eq_zeroStride_iff,
    ofOrigin?_eq_originOutside_iff⟩
  · intro patch
    exact ⟨fun _ _ _ ↦ exists_row?_iff, fun _ _ _ _ ↦ samples_of_row?,
      fun _ _ _ ↦ exists_row?_iff_last⟩
  · intro patch hformed
    obtain ⟨hstride, horigin⟩ := exists_ofOrigin?_eq_ok_iff.mp ⟨patch, hformed⟩
    obtain ⟨whole, hwhole⟩ : ∃ whole, ofBuffer? buffer stride = .ok whole :=
      exists_ofOrigin?_eq_ok hstride (Nat.lt_of_le_of_lt (Nat.zero_le _) horigin)
    obtain ⟨hbuffer, hpitch, hfirst⟩ := ofOrigin?_eq_ok hformed
    obtain ⟨hsame, hsamePitch, hzero⟩ := ofOrigin?_eq_ok hwhole
    refine ⟨whole, hwhole, showsFrom_of_origin_eq (hbuffer.trans hsame.symm)
      (hpitch.trans hsamePitch.symm) ?_⟩
    rw [hfirst, index, hzero, hsamePitch, Nat.zero_add]

example :
    (ofPixel? #[.zero .byte, .zero .byte, .zero .byte] 2 1 0).toOption.map (fun patch ↦
      (patch.get? 0 1, patch.row? 0 1 0, patch.row? 1 1 0)) = some (none, some #[], none) := by
  decide

end WienerRegression.Patch
