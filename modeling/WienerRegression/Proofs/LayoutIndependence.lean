import WienerRegression.Proofs.AlikeUnits
import WienerRegression.Proofs.SampleBounds

/-!
# Statistics do not depend on the layout

What a run leaves in the outputs is decided by the samples in the footprint of its unit: the
degraded samples at all pixels, which are averaged, and the tap samples and the source samples at
the pixels of the scanned rows. Two accepted calls with one footprint leave identical entries
(`run_entries_of_sameFootprint`), wherever their units lie, whatever their strides and origins are,
and whatever samples their buffers hold outside the footprint.
-/

namespace WienerRegression.Call

variable {leftWidth rightWidth : SampleWidth} {left : Call leftWidth} {right : Call rightWidth}

/-- A tap of a pixel further right and further down is one at the first pixel that lies as much
further right and further down. -/
theorem tapAt_add {width : SampleWidth} (call : Call width) (r c x y column row : Nat) :
    call.tapAt r c (x + column) (y + row) = call.tapAt (row + r) (column + c) x y := by
  unfold tapAt
  congr 1 <;> push_cast <;> ring

/-- Two calls have one footprint: their units look alike, they have one window, and every tap sees
the same samples in both. -/
structure SameFootprint (left : Call leftWidth) (right : Call rightWidth) : Prop
    extends UnitsAlike left right where
  window_eq : left.window = right.window
  tap_eq : ∀ r < left.window.side, ∀ c < left.window.side, left.TapsAlike right r c r c

namespace SameFootprint

/-- Calls with one footprint have equally many taps. -/
theorem taps_eq (h : left.SameFootprint right) : left.window.taps = right.window.taps :=
  congrArg Window.taps h.window_eq

/-- Taps of one number see the same samples. -/
theorem tapsAlike (h : left.SameFootprint right) {tap : Fin left.window.taps}
    {other : Fin right.window.taps} (hnumber : tap.val = other.val) :
    left.TapsAlike right (left.window.tapRow tap) (left.window.tapColumn tap)
      (right.window.tapRow other) (right.window.tapColumn other) := by
  have hside : left.window.side = right.window.side := congrArg Window.side h.window_eq
  have hrow : right.window.tapRow other = left.window.tapRow tap := by
    simp [Window.tapRow, hnumber, hside]
  have hcolumn : right.window.tapColumn other = left.window.tapColumn tap := by
    simp [Window.tapColumn, hnumber, hside]
  rw [hrow, hcolumn]
  exact h.tap_eq _ (left.window.tapRow_lt tap) _ (left.window.tapColumn_lt tap)

/-- The coefficient of a tap is the same in calls with one footprint. -/
theorem cross_entry_eq (h : left.SameFootprint right) {tap : Nat} (hleft : tap < left.window.taps)
    (hright : tap < right.window.taps) :
    left.normalEquations.cross.get ⟨tap, hleft⟩ =
      right.normalEquations.cross.get ⟨tap, hright⟩ :=
  h.get_cross_eq (h.tapsAlike rfl)

/-- The coefficient of a pair of taps is the same in calls with one footprint. -/
theorem auto_entry_eq (h : left.SameFootprint right) {pair : Nat}
    (hleft : pair < left.window.taps * left.window.taps)
    (hright : pair < right.window.taps * right.window.taps) :
    left.normalEquations.auto.get ⟨pair, hleft⟩ =
      right.normalEquations.auto.get ⟨pair, hright⟩ := by
  have hfirst : (RowMajor.row ⟨pair, hleft⟩).val = (RowMajor.row ⟨pair, hright⟩).val := by
    simp [RowMajor.row, h.taps_eq]
  have hsecond : (RowMajor.column ⟨pair, hleft⟩).val = (RowMajor.column ⟨pair, hright⟩).val := by
    simp [RowMajor.column, h.taps_eq]
  rw [← RowMajor.index_row_column ⟨pair, hleft⟩, ← RowMajor.index_row_column ⟨pair, hright⟩]
  exact h.get_auto_eq (h.tapsAlike hfirst) (h.tapsAlike hsecond)

end SameFootprint

/-- Two accepted calls with one footprint leave identical entries for all taps and for all pairs of
taps, also in outputs of different lengths and contents. -/
theorem run_entries_of_sameFootprint (h : left.SameFootprint right)
    (leftOutputs rightOutputs : Outputs) {leftMethod rightMethod : Method}
    (hleft : left.verdict leftOutputs.cross.size leftOutputs.auto.size = .ok leftMethod)
    (hright : right.verdict rightOutputs.cross.size rightOutputs.auto.size = .ok rightMethod) :
    ∃ leftWritten rightWritten,
      left.run leftOutputs = ⟨.done (), leftWritten, [left.logRecord leftMethod]⟩ ∧
      right.run rightOutputs = ⟨.done (), rightWritten, [right.logRecord rightMethod]⟩ ∧
      (∀ tap < left.window.taps, ∃ entry,
        leftWritten.cross[tap]? = some entry ∧ rightWritten.cross[tap]? = some entry) ∧
      ∀ pair < left.window.tapPairs, ∃ entry,
        leftWritten.auto[pair]? = some entry ∧ rightWritten.auto[pair]? = some entry := by
  have hleftWrote := Outputs.wrote_replace (hasRoom_of_verdict hleft) left.normalEquations
  have hrightWrote := Outputs.wrote_replace (hasRoom_of_verdict hright) right.normalEquations
  refine ⟨_, _, run_of_ok hleft, run_of_ok hright, ?_, ?_⟩
  · intro tap htap
    have hother : tap < right.window.taps := h.taps_eq ▸ htap
    refine ⟨_, hleftWrote.cross_tap ⟨tap, htap⟩, ?_⟩
    rw [h.cross_entry_eq htap hother]
    exact hrightWrote.cross_tap ⟨tap, hother⟩
  · intro pair hpair
    have hother : pair < right.window.taps * right.window.taps := h.taps_eq ▸ hpair
    refine ⟨_, hleftWrote.auto_entry ⟨pair, hpair⟩, ?_⟩
    rw [h.auto_entry_eq hpair hother]
    exact hrightWrote.auto_entry ⟨pair, hother⟩

/-- The footprint of `sparseChroma` at another position in wider buffers, with samples of other
values around it and between its rows. -/
def paddedChroma : Call .word where
  window := .chroma
  degraded := {
    buffer := ((List.range 90).map fun i ↦
      let inner := (i / 9 - 1) * 7 + i % 9
      Sample.truncate .word (if i % 9 < 7 then inner * inner % 101 else 4095)).toArray
    stride := 9
    origin := 7
    stride_pos := Nat.zero_lt_succ _
    origin_lt := by decide }
  source := {
    buffer := ((List.range 43).map fun i ↦
      let inner := (i - 16) / 6 * 3 + (i - 16) % 6
      Sample.truncate .word (if (i - 16) % 6 < 3 then inner * inner % 89 else 4095)).toArray
    stride := 6
    origin := 0
    stride_pos := Nat.zero_lt_succ _
    origin_lt := by decide }
  rect := ⟨4, 7, 2, 7, by decide, by decide⟩
  depth := .ten
  options := ⟨true, .auto⟩

/-- The calls `sparseChroma` and `paddedChroma` have one footprint. -/
theorem sameFootprint_paddedChroma : sparseChroma.SameFootprint paddedChroma := by
  -- the halo of the unit is seven columns wide and nine rows high
  have htaps : ∀ r < 9, ∀ c < 7, (sparseChroma.tapAt r c 0 0).val =
      (paddedChroma.tapAt r c 4 2).val := by
    decide +kernel
  constructor
  case window_eq => rfl
  case tap_eq =>
    intro r hr c hc row hrow column hcolumn
    have hrow : row < 5 := hrow.lt_height
    have hcolumn : column < 3 := hcolumn
    have hr : r < 5 := hr
    have hc : c < 5 := hc
    rw [tapAt_add, tapAt_add]
    exact htaps (row + r) (by omega) (column + c) (by omega)
  case toUnitsAlike =>
    constructor
    case width_eq => rfl
    case height_eq => rfl
    case sparse_eq => rfl
    case depth_eq => rfl
    case degraded_eq =>
      intro row hrow column hcolumn
      have hrow : row < 5 := hrow
      have hcolumn : column < 3 := hcolumn
      rw [← tapAt_halo, ← tapAt_halo, tapAt_add, tapAt_add]
      exact htaps (row + 2) (by omega) (column + 2) (by omega)
    case source_eq =>
      intro row hrow column hcolumn
      have hsource : ∀ row < 5, ∀ column < 3,
          (sparseChroma.source.sampleAt (0 + column : Nat) (0 + row : Nat)).val =
            (paddedChroma.source.sampleAt (4 + column : Nat) (2 + row : Nat)).val := by
        decide +kernel
      exact hsource row hrow.lt_height column hcolumn

/-- The calls `sparseChroma` and `paddedChroma` are accepted and leave identical entries. -/
theorem run_entries_paddedChroma :
    sparseChroma.verdict 25 626 = .ok .reference ∧
    paddedChroma.verdict 27 625 = .ok .specialized ∧
    ∃ left right,
      sparseChroma.run ⟨Array.replicate 25 9, Array.replicate 626 9⟩ =
        ⟨.done (), left, [sparseChroma.logRecord .reference]⟩ ∧
      paddedChroma.run ⟨Array.replicate 27 0, Array.replicate 625 0⟩ =
        ⟨.done (), right, [paddedChroma.logRecord .specialized]⟩ ∧
      (∀ tap < 25, ∃ entry, left.cross[tap]? = some entry ∧ right.cross[tap]? = some entry) ∧
      ∀ pair < 625, ∃ entry, left.auto[pair]? = some entry ∧ right.auto[pair]? = some entry := by
  have hsparse : sparseChroma.verdict 25 626 = .ok .reference := by decide
  have hpadded : paddedChroma.verdict 27 625 = .ok .specialized := by decide
  exact ⟨hsparse, hpadded, run_entries_of_sameFootprint sameFootprint_paddedChroma
    ⟨Array.replicate 25 9, Array.replicate 626 9⟩ ⟨Array.replicate 27 0, Array.replicate 625 0⟩
    (by simpa using hsparse) (by simpa using hpadded)⟩

end WienerRegression.Call
