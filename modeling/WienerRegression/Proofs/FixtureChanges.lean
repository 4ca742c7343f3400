import Mathlib.Tactic.Common
import WienerRegression.Fixture
import WienerRegression.Proofs.PatchViews
import WienerRegression.RowMajor

/-!
# What changes of a fixture keep

The patches of a fixture are its two buffers, each with its stride (`degradedPatch?_eq_ok_iff`,
`sourcePatch?_eq_ok_iff`).

A fixture can be made if its side exceeds that of the window and an array can hold the samples of
the square (`ofSide?_of_fits`). Its buffers then hold the whole square, the source patch has the
side as its stride, and the stride of the degraded patch does not exceed the side. Every change
keeps this, one that is refused included (`WellFormed.changes`).
-/

namespace WienerRegression.Fixture

variable {width : SampleWidth} {fixture : Fixture width} {window : Window} {side : Nat}

/-! ## The two patches -/

/-- A patch is formed from a buffer, a stride and an origin exactly when these are its own. -/
theorem mapError_ofOrigin?_eq_ok_iff {buffer : Array (Sample width)} {stride origin : Nat}
    {patch : Patch width} :
    (Patch.ofOrigin? buffer stride origin).mapError FixtureError.model = .ok patch ↔
      patch.buffer = buffer ∧ patch.stride = stride ∧ patch.origin = origin := by
  constructor
  · intro h
    cases hformed : Patch.ofOrigin? buffer stride origin with
    | error cause =>
        rw [hformed] at h
        cases h
    | ok formed =>
        rw [hformed] at h
        cases h
        exact Patch.ofOrigin?_eq_ok hformed
  · rintro ⟨rfl, rfl, rfl⟩
    rw [Patch.ofOrigin?_self]
    rfl

/-- The degraded patch is the degraded buffer with its stride and its origin. -/
theorem degradedPatch?_eq_ok_iff {patch : Patch width} :
    fixture.degradedPatch? = .ok patch ↔
      patch.buffer = fixture.degraded.toArray ∧ patch.stride = fixture.stride ∧
        patch.origin = fixture.degradedOrigin :=
  mapError_ofOrigin?_eq_ok_iff

/-- The source patch is the source buffer with its stride, from the first sample on. -/
theorem sourcePatch?_eq_ok_iff {patch : Patch width} :
    fixture.sourcePatch? = .ok patch ↔
      patch.buffer = fixture.source.toArray ∧ patch.stride = fixture.sourceStride ∧
        patch.origin = 0 :=
  mapError_ofOrigin?_eq_ok_iff

/-! ## Well-formed fixtures -/

/-- A fixture for a window: its square exceeds the window, words can count the samples of the
square, the buffers hold all of them, and no stride exceeds the side. -/
structure WellFormed (fixture : Fixture width) (window : Window) (side : Nat) : Prop where
  window_eq : fixture.window = window
  side_eq : fixture.side = side
  length_eq : fixture.length = side * side
  sourceStride_eq : fixture.sourceStride = side
  side_lt : window.side < side
  square_lt : side * side < UInt64.size
  stride_le : fixture.stride ≤ side

/-- A row and a column of a square give the number of one of its samples. -/
theorem pixel_lt {row column : Nat} (hrow : row < side) (hcolumn : column < side) :
    row * side + column < side * side :=
  (RowMajor.index ⟨row, hrow⟩ ⟨column, hcolumn⟩).isLt

/-- Words can count the samples of a square that an array can hold. -/
theorem square_lt_of_fits (h : side * side * width.bytes ≤ largestArray) :
    side * side < UInt64.size := by
  have hbytes : 1 ≤ width.bytes := by
    cases width <;> decide
  have hsquare := Nat.le_mul_of_pos_right (side * side) hbytes
  exact Nat.lt_of_le_of_lt (Nat.le_trans hsquare h) (by decide)

/-- A black fixture is well formed if its square exceeds the window and words can count it. -/
theorem wellFormed_black (hside : window.side < side) (hsquare : side * side < UInt64.size) :
    (black width window side).WellFormed window side :=
  ⟨rfl, rfl, toWord_of_lt hsquare, rfl, hside, hsquare, Nat.le_refl side⟩

/-- A side that exceeds that of the window makes a fixture if an array can hold the square. -/
theorem ofSide?_of_fits (hside : window.side < side)
    (hfits : side * side * width.bytes ≤ largestArray) :
    ofSide? width window side = .done (black width window side) := by
  unfold ofSide?
  rw [if_neg (Nat.not_le.mpr hside), toWord_of_lt (square_lt_of_fits hfits),
    if_neg (Nat.not_lt.mpr hfits)]

/-- A stride that is not refused is at most the side, and it alone changes. -/
theorem WellFormed.withStride? {changed : Fixture width} (h : fixture.WellFormed window side)
    {stride : Nat} (hstride : fixture.withStride? stride = .ok changed) :
    changed.WellFormed window side := by
  unfold Fixture.withStride? at hstride
  split_ifs at hstride with hwide
  cases hstride
  exact { h with stride_le := h.side_eq ▸ Nat.not_lt.mp hwide }

/-- A stride that is at most the side is not refused. -/
theorem WellFormed.exists_withStride (h : fixture.WellFormed window side) {stride : Nat}
    (hstride : stride ≤ side) :
    ∃ changed, fixture.withStride? stride = .ok changed ∧ changed.stride = stride ∧
      changed.WellFormed window side := by
  have hnarrow : ¬ fixture.side < stride := by
    rw [h.side_eq]
    exact Nat.not_lt.mpr hstride
  have hchanged : fixture.withStride? stride = .ok { fixture with stride := stride } :=
    if_neg hnarrow
  exact ⟨_, hchanged, rfl, h.withStride? hchanged⟩

/-- New samples in the buffers keep a fixture well formed. -/
theorem WellFormed.withSamples (h : fixture.WellFormed window side)
    (degraded source : Vector (Sample width) fixture.length) :
    { fixture with degraded := degraded, source := source }.WellFormed window side :=
  ⟨h.window_eq, h.side_eq, h.length_eq, h.sourceStride_eq, h.side_lt, h.square_lt, h.stride_le⟩

/-- A change keeps a fixture well formed, with the same window and the same side. -/
theorem WellFormed.change (h : fixture.WellFormed window side) (generator : Generator)
    (change : Change width) : (fixture.change generator change).2.1.WellFormed window side := by
  cases change with
  | stride stride =>
      simp only [Fixture.change]
      cases hchanged : fixture.withStride? stride with
      | error cause => exact h
      | ok changed => exact h.withStride? hchanged
  | random depth => exact h.withSamples _ _
  | columns depth => exact h.withSamples _ _
  | alternating depth => exact h.withSamples _ _
  | constant degraded source => exact h.withSamples _ _
  | overflow depth blackened => exact h.withSamples _ _
  | setDegraded index sample =>
      simp only [Fixture.change]
      split
      · exact h.withSamples _ _
      · exact h
  | setSource index sample =>
      simp only [Fixture.change]
      split
      · exact h.withSamples _ _
      · exact h

/-- Hence any list of changes does. -/
theorem WellFormed.changes (h : fixture.WellFormed window side) (generator : Generator)
    (list : List (Change width)) : (fixture.changes generator list).1.WellFormed window side := by
  induction list generalizing fixture generator with
  | nil => exact h
  | cons first rest ih => exact ih (h.change generator first) _

end WienerRegression.Fixture
