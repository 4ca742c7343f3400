import Mathlib.Data.Nat.ModEq
import WienerRegression.Proofs.FixtureChanges
import WienerRegression.Proofs.Footprint

/-!
# Buffers whose rows repeat

If every row of a buffer repeats the one above it, then a pixel of a patch on the buffer depends on
its column alone (`Patch.RowsRepeat.sampleAt_eq`), wherever the patch starts. The buffers of a
fixture that is filled with columns are such (`Fixture.WellFormed.rowsRepeat_fillColumns`).
-/

namespace WienerRegression

namespace Patch

variable {width : SampleWidth} {patch : Patch width}

/-- Every row of the buffer repeats the one above it: samples that lie a whole number of rows apart
are equal. -/
def RowsRepeat (patch : Patch width) : Prop :=
  ∀ first second : Nat, first < patch.buffer.size → second < patch.buffer.size →
    first ≡ second [MOD patch.stride] → patch.buffer[first]? = patch.buffer[second]?

/-- The pixels of a column lie a whole number of rows apart. -/
theorem index_modEq (patch : Patch width) (x y other : Nat) :
    patch.index x y ≡ patch.index x other [MOD patch.stride] := by
  have hcolumn : ∀ y, patch.index x y ≡ patch.origin + x [MOD patch.stride] := by
    intro y
    have hindex : patch.index x y = patch.origin + x + y * patch.stride := by
      unfold index
      omega
    rw [hindex]
    exact Nat.add_mul_mod_self_right _ _ _
  exact (hcolumn y).trans (hcolumn other).symm

/-- The pixels of a column are equal if the rows repeat. -/
theorem RowsRepeat.sampleAt_eq (h : patch.RowsRepeat) {x y other : Nat}
    (hy : patch.index x y < patch.buffer.size) (hother : patch.index x other < patch.buffer.size) :
    patch.sampleAt x y = patch.sampleAt x other := by
  have hequal := h _ _ hy hother (patch.index_modEq x y other)
  rw [getElem?_index hy, getElem?_index hother] at hequal
  exact Option.some.inj hequal

end Patch

namespace Fixture

variable {width : SampleWidth}

/-- The rows of a buffer that holds whole rows only repeat after a row has been repeated in it, if a
patch has the length of the row as its stride. -/
theorem rowsRepeat_of_repeatRow {side length : Nat} {row : Vector (Sample width) side}
    {samples : Vector (Sample width) length} {patch : Patch width}
    (hlength : length = side * side) (hbuffer : patch.buffer = (repeatRow row samples).toArray)
    (hstride : patch.stride = side) : patch.RowsRepeat := by
  have hread : ∀ index < patch.buffer.size,
      patch.buffer[index]? = row.toArray[index % side]? := by
    intro index hindex
    rw [hbuffer, Vector.size_toArray, hlength] at hindex
    have hside : 0 < side := Nat.pos_of_lt_mul_left hindex
    rw [hbuffer]
    refine getElem?_repeatRow_of_lt ?_
    rwa [hlength, Nat.mul_div_cancel _ hside]
  intro first second hfirst hsecond hmod
  rw [hstride] at hmod
  rw [hread first hfirst, hread second hsecond, hmod]

/-- The rows of a fixture that is filled with columns repeat in both patches, if the stride of the
degraded patch is the side. -/
theorem WellFormed.rowsRepeat_fillColumns {fixture : Fixture width} {window : Window} {side : Nat}
    (h : fixture.WellFormed window side) (hstride : fixture.stride = side) (depth : BitDepth)
    (generator : Generator) {degraded source : Patch width}
    (hdegraded : (fixture.fillColumns depth generator).1.degradedPatch? = .ok degraded)
    (hsource : (fixture.fillColumns depth generator).1.sourcePatch? = .ok source) :
    degraded.RowsRepeat ∧ source.RowsRepeat := by
  obtain ⟨hbuffer, hdegradedStride, -⟩ := degradedPatch?_eq_ok_iff.mp hdegraded
  obtain ⟨hsourceBuffer, hsourceStride, -⟩ := sourcePatch?_eq_ok_iff.mp hsource
  have hlength : fixture.length = fixture.side * fixture.side := by
    rw [h.length_eq, h.side_eq]
  have hequal : fixture.stride = fixture.side := hstride.trans h.side_eq.symm
  have hequalSource : fixture.sourceStride = fixture.side :=
    h.sourceStride_eq.trans h.side_eq.symm
  exact ⟨rowsRepeat_of_repeatRow hlength hbuffer (hdegradedStride.trans hequal),
    rowsRepeat_of_repeatRow hlength hsourceBuffer (hsourceStride.trans hequalSource)⟩

end Fixture

end WienerRegression
