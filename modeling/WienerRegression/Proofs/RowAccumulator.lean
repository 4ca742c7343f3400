import WienerRegression.Proofs.Intermediates
import WienerRegression.Proofs.WidenedSamples

/-!
# The row accumulator of bytes

The sums along a row of bytes are staged in an accumulator of 32 bits. A row is taken in steps of
two pixels, with a step of one pixel at the end if their number is odd (`StagedSums.steps`). Along a
row that is not too wide, the accumulator holds the exact sums after every step, and neither they
nor the terms of a step leave its range (`StagedSums.foldl_take_steps`,
`StagedSums.each_fitsAccumulator`). The limit on the width cannot be raised: in every wider row of
white samples the exact sums of products are out of range (`StagedSums.lt_sumOver_white`).
-/

namespace WienerRegression

/-- A value that is not negative and that a signed 32-bit integer can hold. -/
def FitsAccumulator (value : Int) : Prop :=
  0 ≤ value ∧ value ≤ 2 ^ 31 - 1

/-- The row accumulator of bytes holds no larger value than a signed 32-bit integer. -/
theorem SampleWidth.stage_byte_le (value : Int) : SampleWidth.byte.stage value ≤ 2 ^ 31 - 1 :=
  Int32.toInt_le _

/-- No sample of a byte observation exceeds 255. -/
theorem Observation.atMost_byte {window : Window} (pixel : Observation .byte window) :
    pixel.AtMost 255 where
  source_le := Nat.le_of_lt_succ pixel.source.isLt
  tap_le := fun tap ↦ Nat.le_of_lt_succ (pixel.tap tap).isLt

/-- An observation of white samples. -/
def Observation.white (window : Window) : Observation .byte window where
  source := Sample.truncate .byte 255
  taps := Vector.replicate _ (Sample.truncate .byte 255)

/-- Every tap of a white observation is white. -/
theorem Observation.tap_white {window : Window} (tap : Fin window.taps) :
    (white window).tap tap = Sample.truncate .byte 255 :=
  Vector.getElem_replicate tap.isLt

namespace StagedSums

variable {width : SampleWidth} {window : Window}

/-! ## Steps along a row -/

/-- The steps in which a row is taken: two pixels at a time, then a last one that has no partner. -/
def steps {α : Type} : List α → List (List α)
  | first :: second :: rest => [first, second] :: steps rest
  | [last] => [[last]]
  | [] => []

/-- Add the terms of the pixels of a step to the staged sums. -/
def stageGroup (staged : StagedSums window) (group : List (Observation width window)) :
    StagedSums window :=
  stageStep (fun quantity ↦ (group.map quantity).sum) staged

/-- A row is staged step by step. -/
theorem stagePixels_eq_foldl (pixels : List (Observation width window))
    (staged : StagedSums window) :
    stagePixels pixels staged = (steps pixels).foldl stageGroup staged := by
  match pixels with
  | first :: second :: rest =>
      have hgroup : stageStep (fun quantity ↦ quantity first + quantity second) staged =
          stageGroup staged [first, second] := by
        simp [stageGroup]
      rw [stagePixels, hgroup, stagePixels_eq_foldl rest, steps, List.foldl_cons]
  | [last] => simp [stagePixels, steps, stageGroup]
  | [] => rfl

/-- The first steps along a row are those along its first pixels, two for each step. -/
theorem steps_take {α : Type} (pixels : List α) (count : Nat) :
    steps (pixels.take (2 * count)) = (steps pixels).take count := by
  match pixels, count with
  | _, 0 => simp [steps]
  | first :: second :: rest, count + 1 =>
      have hrest := steps_take rest count
      simp only [Nat.mul_succ, List.take_succ_cons, steps, hrest]
  | [last], count + 1 => simp [Nat.mul_succ, steps]
  | [], count + 1 => simp [steps]

/-- A step takes one pixel or two. -/
theorem length_le_two_of_mem_steps {α : Type} {pixels group : List α}
    (hgroup : group ∈ steps pixels) : group.length ≤ 2 := by
  match pixels with
  | first :: second :: rest =>
      rcases List.mem_cons.mp hgroup with rfl | hrest
      · exact Nat.le_refl 2
      · exact length_le_two_of_mem_steps hrest
  | [last] =>
      obtain rfl := List.mem_singleton.mp hgroup
      exact Nat.le_succ 1
  | [] => cases hgroup

/-- After any number of steps along a row that is not too wide, the staged sums are the exact sums
over the pixels so far. -/
theorem foldl_take_steps {pixels : List (Observation width window)}
    (hfits : pixels.length ≤ width.stagedRowLimit) (count : Nat) :
    ((steps pixels).take count).foldl stageGroup (zero window) =
      ofPixels (pixels.take (2 * count)) := by
  rw [← steps_take, ← stagePixels_eq_foldl]
  exact ofRow_eq (Nat.le_trans (List.length_take_le' _ _) hfits)

/-! ## The range of the accumulator -/

/-- A condition that follows from another one holds of all sums of which the other one does. -/
theorem Each.imp {condition other : Int → Prop} {sums : StagedSums window}
    (h : sums.Each condition) (himp : ∀ value, condition value → other value) :
    sums.Each other where
  source := himp _ h.source
  taps := fun tap ↦ himp _ (h.taps tap)
  cross := fun tap ↦ himp _ (h.cross tap)
  auto := fun entry ↦ himp _ (h.auto entry)

/-- All exact sums over as many bytes as a row may have are in the range of the accumulator. -/
theorem each_fitsAccumulator {pixels : List (Observation .byte window)}
    (hfits : pixels.length ≤ SampleWidth.byte.stagedRowLimit) :
    (ofPixels pixels).Each FitsAccumulator := by
  refine each_ofPixels (fun pixel _ ↦ pixel.atMost_byte) ?_
  intro quantity hquantity
  have hsum : (pixels.map quantity).sum ≤ 33025 * 255 ^ 2 :=
    Nat.le_trans (sum_le_length_mul hquantity) (Nat.mul_le_mul_right _ hfits)
  unfold FitsAccumulator sumOver
  omega

/-- What a step leaves in the accumulator of a row of bytes is no larger than it can hold, whether
it is exact or not. -/
theorem each_stageGroup_le (staged : StagedSums window)
    (group : List (Observation .byte window)) :
    (stageGroup staged group).Each (· ≤ 2 ^ 31 - 1) where
  source := by
    rw [stageGroup, source_stageStep]
    exact SampleWidth.stage_byte_le _
  taps := by
    intro tap
    rw [stageGroup, get_taps_stageStep]
    exact SampleWidth.stage_byte_le _
  cross := by
    intro tap
    rw [stageGroup, get_cross_stageStep]
    exact SampleWidth.stage_byte_le _
  auto := by
    intro entry
    rw [stageGroup, get_auto_stageStep]
    exact SampleWidth.stage_byte_le _

/-- The steps along a row of bytes leave nothing larger than the accumulator can hold. -/
theorem each_foldl_stageGroup_le {groups : List (List (Observation .byte window))}
    {staged : StagedSums window} (h : staged.Each (· ≤ 2 ^ 31 - 1)) :
    (groups.foldl stageGroup staged).Each (· ≤ 2 ^ 31 - 1) := by
  induction groups generalizing staged with
  | nil => exact h
  | cons group rest ih => exact ih (each_stageGroup_le staged group)

/-- The staged sums of a row of bytes are no larger than the accumulator can hold, however wide the
row is. -/
theorem each_ofRow_le (pixels : List (Observation .byte window)) :
    (ofRow pixels).Each (· ≤ 2 ^ 31 - 1) := by
  have hzero : (zero window).Each FitsAccumulator := by
    rw [← @ofPixels_nil .byte window]
    exact each_fitsAccumulator (Nat.zero_le _)
  show (stagePixels pixels (zero window)).Each (· ≤ 2 ^ 31 - 1)
  rw [stagePixels_eq_foldl]
  exact each_foldl_stageGroup_le (hzero.imp fun _ hvalue ↦ hvalue.2)

/-- The products of white samples add up to more than the accumulator can hold in every row that is
too wide. -/
theorem lt_sumOver_white {count : Nat} (hcount : SampleWidth.byte.stagedRowLimit < count)
    {quantity : Observation .byte window → Nat} (hquantity : quantity (.white window) = 255 * 255) :
    2 ^ 31 - 1 < sumOver (List.replicate count (.white window)) quantity := by
  have hcount : 33025 < count := hcount
  unfold sumOver
  rw [List.map_replicate, List.sum_replicate_nat, hquantity]
  omega

/-- The products of a tap and the source in a row of white samples that is too wide. -/
theorem lt_get_cross_white {count : Nat} (hcount : SampleWidth.byte.stagedRowLimit < count)
    (tap : Fin window.taps) :
    2 ^ 31 - 1 < (ofPixels (List.replicate count (.white window))).cross.get tap := by
  rw [get_cross_ofPixels]
  refine lt_sumOver_white hcount ?_
  rw [Observation.tap_white]
  rfl

/-- The products of two taps in a row of white samples that is too wide. -/
theorem lt_get_auto_white {count : Nat} (hcount : SampleWidth.byte.stagedRowLimit < count)
    (entry : Fin (window.taps * window.taps)) :
    2 ^ 31 - 1 < (ofPixels (List.replicate count (.white window))).auto.get entry := by
  rw [get_auto_ofPixels]
  refine lt_sumOver_white hcount ?_
  rw [Observation.tap_white, Observation.tap_white]
  rfl

end StagedSums

namespace Call

/-- In every scanned row of a valid call on bytes, the sums are staged exactly: what each step along
the row adds is in the range of the accumulator, and after any number of steps the accumulator holds
the exact sums over the pixels so far, which are in its range too. No wider rows can be allowed: if
all samples of a wider row are white, then the exact sums of its products are larger than what the
accumulator can hold, and the staged sums are not. -/
theorem staging_exact_on_bytes (call : Call .byte) {crossLength autoLength : Nat}
    (hvalid : call.validate crossLength autoLength = .ok ()) :
    (∃ rows, call.rows? = some rows ∧ ∀ row ∈ rows,
      StagedSums.ofRow row.pixels =
        (StagedSums.steps row.pixels).foldl StagedSums.stageGroup (.zero call.window) ∧
      (∀ group ∈ StagedSums.steps row.pixels,
        (StagedSums.ofPixels group).Each FitsAccumulator) ∧
      ∀ count,
        ((StagedSums.steps row.pixels).take count).foldl StagedSums.stageGroup
          (.zero call.window) = StagedSums.ofPixels (row.pixels.take (2 * count)) ∧
        (StagedSums.ofPixels (row.pixels.take (2 * count))).Each FitsAccumulator) ∧
    ∀ (window : Window) (count : Nat), SampleWidth.byte.stagedRowLimit < count →
      (∀ tap,
        (StagedSums.ofRow (List.replicate count (.white window))).cross.get tap ≤ 2 ^ 31 - 1 ∧
        2 ^ 31 - 1 <
          (StagedSums.ofPixels (List.replicate count (.white window))).cross.get tap) ∧
      ∀ entry,
        (StagedSums.ofRow (List.replicate count (.white window))).auto.get entry ≤ 2 ^ 31 - 1 ∧
        2 ^ 31 - 1 <
          (StagedSums.ofPixels (List.replicate count (.white window))).auto.get entry := by
  have hcall := (validate_eq_ok_iff.mp hvalid).1
  refine ⟨⟨_, hcall.rows?_eq, ?_⟩, ?_⟩
  · intro row hrow
    have hfits : row.pixels.length ≤ SampleWidth.byte.stagedRowLimit := by
      rw [length_of_mem_observations hrow]
      exact hcall.width_le
    refine ⟨StagedSums.stagePixels_eq_foldl _ _, ?_, ?_⟩
    · intro group hgroup
      exact StagedSums.each_fitsAccumulator
        (Nat.le_trans (StagedSums.length_le_two_of_mem_steps hgroup) (by decide))
    · intro count
      exact ⟨StagedSums.foldl_take_steps hfits count,
        StagedSums.each_fitsAccumulator (Nat.le_trans (List.length_take_le' _ _) hfits)⟩
  · intro window count hcount
    have hstaged := StagedSums.each_ofRow_le (List.replicate count (.white window))
    exact ⟨fun tap ↦ ⟨hstaged.cross tap, StagedSums.lt_get_cross_white hcount tap⟩,
      fun entry ↦ ⟨hstaged.auto entry, StagedSums.lt_get_auto_white hcount entry⟩⟩

/-- The row of `widestWhite` is as wide as a row of bytes may be, and its sums are staged exactly.
In a row of white samples with one pixel more, no sum of products is. -/
theorem staging_exact_widestWhite :
    widestWhite.validate 25 625 = .ok () ∧
    (∃ rows, widestWhite.rows? = some rows ∧ ∀ row ∈ rows, ∀ count,
      ((StagedSums.steps row.pixels).take count).foldl StagedSums.stageGroup (.zero .chroma) =
        StagedSums.ofPixels (row.pixels.take (2 * count)) ∧
      (StagedSums.ofPixels (row.pixels.take (2 * count))).Each FitsAccumulator) ∧
    SampleWidth.byte.stagedRowLimit < 33026 ∧
    ∀ tap, 2 ^ 31 - 1 <
      (StagedSums.ofPixels (List.replicate 33026 (.white .luma))).cross.get tap := by
  have hvalid : widestWhite.validate 25 625 = .ok () :=
    validate_eq_ok_iff.mpr ⟨admissible_widestWhite, by decide, by decide⟩
  have hwider : SampleWidth.byte.stagedRowLimit < 33026 := by decide
  obtain ⟨⟨rows, hrows, hstaged⟩, hwhite⟩ := staging_exact_on_bytes widestWhite hvalid
  exact ⟨hvalid, ⟨rows, hrows, fun row hrow ↦ (hstaged row hrow).2.2⟩, hwider,
    fun tap ↦ ((hwhite .luma 33026 hwider).1 tap).2⟩

end Call

end WienerRegression
