import WienerRegression.Proofs.FixtureChanges
import WienerRegression.Proofs.RepeatedRows
import WienerRegression.Proofs.Verdicts

/-!
# The units that a fixture serves

The degraded patch of a fixture starts one halo inside a square, but its rows advance by a stride
of their own, which is at most the side of the square. With a narrower stride the halo reaches less
far back than the origin lies (`Fixture.reach_le_origin`), and the last tap comes no later than it
would with the side as the stride (`Fixture.tap_lt`). So every unit that leaves room for two halos
in the square has all its taps in the buffer, whatever the stride is
(`Fixture.WellFormed.admissible`), and a fixture serves its units after any number of changes
(`Fixture.changes_provide`). All this needs a square that an array can hold. A larger side makes no
fixture, or one without samples that serves nothing (`Fixture.side_without_square`).
-/

namespace WienerRegression

/-- The halo of a smaller window is no wider. -/
theorem Window.halo_le_halo {inner outer : Window} (h : inner.side ≤ outer.side) :
    inner.halo ≤ outer.halo :=
  Nat.div_le_div_right h

namespace Fixture

variable {width : SampleWidth} {fixture : Fixture width} {window : Window} {side : Nat}

/-! ## The square and the two patches on it -/

/-- From an origin one halo inside a square, a narrower halo at any stride up to the side reaches no
further back than to the first sample. -/
theorem reach_le_origin {inner outer stride : Nat} (hhalo : inner ≤ outer)
    (hstride : stride ≤ side) : inner * stride + inner ≤ outer * side + outer := by
  have hrows := Nat.mul_le_mul hhalo hstride
  omega

/-- From an origin one halo inside a square, the last tap of a pixel that is two halos away from the
end of the square is in the square, at any stride up to the side. -/
theorem tap_lt {inner outer stride row column : Nat} (hhalo : inner ≤ outer)
    (hstride : stride ≤ side) (hrow : row + 2 * outer < side)
    (hcolumn : column + 2 * outer < side) :
    outer * side + outer + row * stride + column + (inner * stride + inner) < side * side := by
  have hreach := reach_le_origin hhalo hstride
  have hrows := Nat.mul_le_mul_left row hstride
  -- the pixel two halos further right and further down in the square comes no earlier than the tap
  have hpixel := pixel_lt hrow hcolumn
  rw [Nat.add_mul, Nat.mul_assoc] at hpixel
  omega

/-- A pixel one halo inside the square is in it. -/
theorem WellFormed.halo_lt (h : fixture.WellFormed window side) :
    window.halo * side + window.halo < side * side := by
  have hwindow := window.side_eq
  have hside := h.side_lt
  exact pixel_lt (by omega) (by omega)

/-- The degraded patch starts one halo inside the square. -/
theorem WellFormed.degradedOrigin_eq (h : fixture.WellFormed window side) :
    fixture.degradedOrigin = window.halo * side + window.halo := by
  rw [degradedOrigin, h.window_eq, h.side_eq]
  exact toWord_of_lt (Nat.lt_trans h.halo_lt h.square_lt)

/-- The degraded patch of a well formed fixture is on the whole square and starts one halo
inside. -/
theorem WellFormed.degraded_layout (h : fixture.WellFormed window side) {degraded : Patch width}
    (hdegraded : fixture.degradedPatch? = .ok degraded) :
    degraded.buffer.size = side * side ∧ degraded.stride = fixture.stride ∧
      degraded.origin = window.halo * side + window.halo := by
  obtain ⟨hbuffer, hstride, horigin⟩ := degradedPatch?_eq_ok_iff.mp hdegraded
  rw [hbuffer, Vector.size_toArray, hstride, horigin]
  exact ⟨h.length_eq, rfl, h.degradedOrigin_eq⟩

/-- The source patch of a well formed fixture is the whole square. -/
theorem WellFormed.source_layout (h : fixture.WellFormed window side) {source : Patch width}
    (hsource : fixture.sourcePatch? = .ok source) :
    source.buffer.size = side * side ∧ source.stride = side ∧ source.origin = 0 := by
  obtain ⟨hbuffer, hstride, horigin⟩ := sourcePatch?_eq_ok_iff.mp hsource
  rw [hbuffer, Vector.size_toArray, hstride, horigin]
  exact ⟨h.length_eq, h.sourceStride_eq, rfl⟩

/-- The degraded patch of a well formed fixture can be formed if it has a stride. -/
theorem WellFormed.exists_degradedPatch (h : fixture.WellFormed window side)
    (hstride : 1 ≤ fixture.stride) : ∃ degraded, fixture.degradedPatch? = .ok degraded := by
  have horigin : fixture.degradedOrigin < fixture.degraded.toArray.size := by
    rw [Vector.size_toArray, h.length_eq, h.degradedOrigin_eq]
    exact h.halo_lt
  exact ⟨⟨fixture.degraded.toArray, fixture.stride, fixture.degradedOrigin, hstride, horigin⟩,
    degradedPatch?_eq_ok_iff.mpr ⟨rfl, rfl, rfl⟩⟩

/-- The source patch of a well formed fixture can be formed. -/
theorem WellFormed.exists_sourcePatch (h : fixture.WellFormed window side) :
    ∃ source, fixture.sourcePatch? = .ok source := by
  have hside : 0 < side := Nat.zero_lt_of_lt h.side_lt
  have hstride : 0 < fixture.sourceStride := by
    rw [h.sourceStride_eq]
    exact hside
  have horigin : 0 < fixture.source.toArray.size := by
    rw [Vector.size_toArray, h.length_eq]
    exact Nat.mul_pos hside hside
  exact ⟨⟨fixture.source.toArray, fixture.sourceStride, 0, hstride, horigin⟩,
    sourcePatch?_eq_ok_iff.mpr ⟨rfl, rfl, rfl⟩⟩

/-! ## The units -/

/-- A unit that starts in an even column and leaves room for two halos in a square. -/
structure LeavesRoom (rect : Rect) (window : Window) (side : Nat) : Prop where
  left_even : rect.left % 2 = 0
  right_le : rect.right ≤ side - 2 * window.halo
  bottom_le : rect.bottom ≤ side - 2 * window.halo

/-- A fixture serves a unit: both its patches can be formed, and every call on them for the unit is
answered if its window is no larger than that of the fixture, the storage format holds the content,
there is a method, and the outputs have room. -/
def Serves (fixture : Fixture width) (rect : Rect) : Prop :=
  ∃ degraded source, fixture.degradedPatch? = .ok degraded ∧ fixture.sourcePatch? = .ok source ∧
    ∀ (window : Window) (depth : BitDepth) (options : CallOptions) (outputs : Outputs),
      window.side ≤ fixture.window.side → depth.bits ≤ width.bits → options.method ≠ .simd →
      outputs.HasRoom window →
      (Call.run ⟨window, degraded, source, rect, depth, options⟩ outputs).outcome = .done ()

/-- The inputs of a call on the patches of a fixture fit together if its unit leaves room for the
halo of the fixture and its window is no larger than that of the fixture. -/
theorem WellFormed.admissible (h : fixture.WellFormed window side) {call : Call width}
    (hdegraded : fixture.degradedPatch? = .ok call.degraded)
    (hsource : fixture.sourcePatch? = .ok call.source) (hroom : LeavesRoom call.rect window side)
    (hwindow : call.window.side ≤ window.side) (hdepth : call.depth.bits ≤ width.bits)
    (hwidth : call.rect.width ≤ width.stagedRowLimit) : call.Admissible := by
  obtain ⟨hdegradedSize, hdegradedStride, hdegradedOrigin⟩ := h.degraded_layout hdegraded
  obtain ⟨hsourceSize, hsourceStride, hsourceOrigin⟩ := h.source_layout hsource
  have hhalo := Window.halo_le_halo hwindow
  have hstride := h.stride_le
  have hleft := call.rect.left_lt_right
  have htop := call.rect.top_lt_bottom
  have hright := hroom.right_le
  have hbottom := hroom.bottom_le
  refine ⟨hdepth, hroom.left_even, hwidth, ?_, ?_, ?_⟩
  -- the first tap of the first pixel
  · have hreach := reach_le_origin hhalo hstride
    rw [Call.reach, Patch.index, hdegradedStride, hdegradedOrigin]
    omega
  -- the last tap of the last pixel
  · rw [Call.lastTap, Patch.lastIndex, Patch.index, Call.reach, hdegradedStride, hdegradedOrigin,
      hdegradedSize]
    exact tap_lt hhalo hstride (by omega) (by omega)
  -- the last source pixel
  · rw [Patch.lastIndex, Patch.index, hsourceStride, hsourceOrigin, hsourceSize, Nat.zero_add]
    exact pixel_lt (by omega) (by omega)

/-- A well formed fixture whose degraded patch has a stride serves every unit that leaves room for
the halo and is not too wide for the row accumulator. -/
theorem WellFormed.serves (h : fixture.WellFormed window side) (hstride : 1 ≤ fixture.stride)
    {rect : Rect} (hroom : LeavesRoom rect window side)
    (hwidth : rect.width ≤ width.stagedRowLimit) : fixture.Serves rect := by
  obtain ⟨degraded, hdegraded⟩ := h.exists_degradedPatch hstride
  obtain ⟨source, hsource⟩ := h.exists_sourcePatch
  refine ⟨degraded, source, hdegraded, hsource, ?_⟩
  intro callWindow depth options outputs hwindow hdepth hmethod houtputs
  rw [h.window_eq] at hwindow
  obtain ⟨method, hresolve⟩ := MethodRequest.exists_resolve_eq_ok_iff.mpr hmethod
  have hcall : Call.Admissible ⟨callWindow, degraded, source, rect, depth, options⟩ :=
    h.admissible hdegraded hsource hroom hwindow hdepth hwidth
  exact Call.run_outcome_eq_done_iff.mpr
    ⟨method, Call.verdict_eq_ok_iff.mpr ⟨hcall, houtputs.cross_le, houtputs.auto_le, hresolve⟩⟩

/-- What a fixture for a window, with a square of a given side, is good for: its buffers are that
square, the source patch can be formed and has the side as its stride, and if the degraded patch has
a stride, it can be formed too and every unit that leaves room for the halo is served. -/
structure Provides (fixture : Fixture width) (window : Window) (side : Nat) : Prop
    extends fixture.WellFormed window side where
  degraded_size : fixture.degraded.toArray.size = side * side
  source_size : fixture.source.toArray.size = side * side
  source_formed : ∃ source, fixture.sourcePatch? = .ok source ∧ source.stride = side
  degraded_formed : 1 ≤ fixture.stride →
    ∃ degraded, fixture.degradedPatch? = .ok degraded ∧ degraded.stride = fixture.stride
  serves : 1 ≤ fixture.stride → ∀ rect, LeavesRoom rect window side →
    rect.width ≤ width.stagedRowLimit → fixture.Serves rect

/-- A well formed fixture provides what it is for. -/
theorem WellFormed.provides (h : fixture.WellFormed window side) :
    fixture.Provides window side where
  toWellFormed := h
  degraded_size := by rw [Vector.size_toArray, h.length_eq]
  source_size := by rw [Vector.size_toArray, h.length_eq]
  source_formed := by
    obtain ⟨source, hsource⟩ := h.exists_sourcePatch
    exact ⟨source, hsource, (h.source_layout hsource).2.1⟩
  degraded_formed := by
    intro hstride
    obtain ⟨degraded, hdegraded⟩ := h.exists_degradedPatch hstride
    exact ⟨degraded, hdegraded, (h.degraded_layout hdegraded).2.1⟩
  serves := fun hstride _ hroom hwidth ↦ h.serves hstride hroom hwidth

/-! ## The fixture for the largest unit -/

/-- The square for the largest unit exceeds every window. -/
theorem side_lt_largestSide (window : Window) : window.side < largestSide := by
  cases window <;> decide

/-- The square for the largest unit has room for the unit and two halos of any window. -/
theorem largestUnit_le (window : Window) : largestUnit ≤ largestSide - 2 * window.halo := by
  cases window <;> decide

/-- No row of the largest unit is too wide for the row accumulator. -/
theorem largestUnit_le_stagedRowLimit (width : SampleWidth) :
    largestUnit ≤ width.stagedRowLimit := by
  cases width <;> decide

/-- Every side that exceeds that of the window makes a fixture if an array can hold the samples of
the square, and it provides what it is for after any changes, those that were refused included. The
fixture for the largest unit serves, whatever has been changed in it, every unit in the first 384
columns and rows that starts in an even column, at every stride from 1 to 391. -/
theorem changes_provide (width : SampleWidth) (window : Window) {side : Nat}
    (hside : window.side < side) (hfits : side * side * width.bytes ≤ largestArray) :
    (∃ start : Fixture width, ofSide? width window side = .done start ∧
      ∀ generator list, (start.changes generator list).1.Provides window side) ∧
    ∀ generator list, ((ofWindow width window).changes generator list).1.Provides window 391 ∧
      ∀ stride, 1 ≤ stride → stride ≤ 391 → ∃ fixture,
        ((ofWindow width window).changes generator list).1.withStride? stride = .ok fixture ∧
        fixture.stride = stride ∧
        ∀ rect : Rect, rect.left % 2 = 0 → rect.right ≤ 384 → rect.bottom ≤ 384 →
          fixture.Serves rect := by
  refine ⟨⟨_, ofSide?_of_fits hside hfits, ?_⟩, ?_⟩
  · intro generator list
    have hstart : (black width window side).WellFormed window side :=
      wellFormed_black hside (square_lt_of_fits hfits)
    exact (hstart.changes generator list).provides
  · intro generator list
    have hfixture : ((ofWindow width window).changes generator list).1.WellFormed window
        largestSide :=
      (wellFormed_black (side_lt_largestSide window) (by decide)).changes generator list
    refine ⟨hfixture.provides, ?_⟩
    intro stride hpos hle
    obtain ⟨fixture, hstride, hequal, hchanged⟩ := hfixture.exists_withStride hle
    refine ⟨fixture, hstride, hequal, ?_⟩
    intro rect hleft hright hbottom
    have hunit := largestUnit_le window
    refine hchanged.serves (hequal ▸ hpos) ⟨hleft, hright.trans hunit, hbottom.trans hunit⟩ ?_
    exact (Nat.sub_le rect.right rect.left).trans
      (hright.trans (largestUnit_le_stagedRowLimit width))

/-- Changes of a fixture with a square of nine by nine. The first is refused. -/
def nineByNine : List (Change .byte) :=
  [.stride 20, .stride 4, .random .eight, .setDegraded 5 (Sample.truncate .byte 200)]

/-- A fixture with a square of nine by nine serves three by three pixels at a stride of four. A
stride of twenty has been refused before. -/
theorem changes_provide_nineByNine :
    Window.luma.side < 9 ∧ 9 * 9 * SampleWidth.byte.bytes ≤ largestArray ∧
      ∃ start, ofSide? .byte .luma 9 = .done start ∧
      (start.changes ⟨7⟩ nineByNine).1.stride = 4 ∧
      (start.changes ⟨7⟩ nineByNine).1.Serves ⟨0, 3, 0, 3, by decide, by decide⟩ := by
  have hside : Window.luma.side < 9 := by decide
  have hfits : 9 * 9 * SampleWidth.byte.bytes ≤ largestArray := by decide
  obtain ⟨⟨start, hstart, hchanges⟩, -⟩ := changes_provide .byte .luma hside hfits
  have hstride : (start.changes ⟨7⟩ nineByNine).1.stride = 4 := by
    cases hstart
    rfl
  have hunit : LeavesRoom ⟨0, 3, 0, 3, by decide, by decide⟩ .luma 9 :=
    ⟨by decide, by decide, by decide⟩
  have hserves := (hchanges ⟨7⟩ nineByNine).serves (by rw [hstride]; decide) _ hunit (by decide)
  exact ⟨hside, hfits, start, hstart, hstride, hserves⟩

/-- A side of `2 ^ 32` makes a fixture, but words count no sample in its square: the buffers are
empty, and neither patch can be formed, although the degraded one has a stride. A side of `2 ^ 31`
makes no fixture for words, because no array can hold the square. -/
theorem side_without_square :
    (∃ start : Fixture .byte, ofSide? .byte .luma (2 ^ 32) = .done start ∧
      start.degraded.toArray.size ≠ 2 ^ 32 * 2 ^ 32 ∧ 1 ≤ start.stride ∧
      (∀ patch, start.degradedPatch? ≠ .ok patch) ∧ ∀ patch, start.sourcePatch? ≠ .ok patch) ∧
    ofSide? .word .luma (2 ^ 31) = .outside := by
  -- a patch starts in its buffer, so it has a sample
  have hempty : ∀ (samples : Vector (Sample .byte) (toWord (2 ^ 32 * 2 ^ 32)))
      (patch : Patch .byte), patch.buffer ≠ samples.toArray := by
    intro samples patch hbuffer
    have horigin := patch.origin_lt
    rw [hbuffer, Vector.size_toArray] at horigin
    exact Nat.not_lt_zero _ horigin
  refine ⟨⟨black .byte .luma (2 ^ 32), rfl, ?_, by decide, ?_, ?_⟩, rfl⟩
  · rw [Vector.size_toArray]
    decide
  · exact fun patch hpatch ↦ hempty _ patch (degradedPatch?_eq_ok_iff.mp hpatch).1
  · exact fun patch hpatch ↦ hempty _ patch (sourcePatch?_eq_ok_iff.mp hpatch).1

end Fixture

end WienerRegression
