import WienerRegression.Call
import WienerRegression.Generator

/-!
# Fixtures

A fixture is a square buffer of degraded samples and one of source samples, with a patch on each.
The degraded patch starts far enough inside its buffer that the taps of every pixel are in it; its
stride may be narrower than the side of the square. Each way of filling a fixture is a function
from fixtures to fixtures, and the random ones also advance a generator.

The number of samples of a square is computed as a word. A side of `2 ^ 32` or more makes it wrap
around, and then the buffers are no square: they have fewer samples, or none.
-/

namespace WienerRegression

/-- The side of the largest restoration unit that a fixture serves. -/
def largestUnit : Nat := 384

/-- The side of a fixture that serves the largest unit with its halo. -/
def largestSide : Nat := largestUnit + Window.luma.side

/-- Why a fixture cannot be made or used. -/
inductive FixtureError where
  /-- A patch on the fixture cannot be formed. -/
  | model (cause : ModelError)
  /-- The side does not exceed that of the window. -/
  | tooSmall (side windowSide : Nat)
  /-- The stride exceeds the side. -/
  | strideTooWide (stride side : Nat)
  deriving DecidableEq

/-- The text that reports a cause. -/
def FixtureError.message : FixtureError → String
  | .model cause => "fixture error: " ++ cause.message
  | .tooSmall side windowSide =>
      s!"fixture side {side} too small for a {windowSide}x{windowSide} window"
  | .strideTooWide stride side => s!"stride {stride} exceeds fixture side {side}"

/-- The number of bytes of a stored sample. -/
def SampleWidth.bytes (width : SampleWidth) : Nat :=
  width.bits / 8

/-- The largest number of bytes that an array can have: no two of them are further apart than a
signed word can tell. -/
def largestArray : Nat := 0x7fffffffffffffff

/-- Two buffers of samples of the same length and the strides of the patches on them. -/
structure Fixture (width : SampleWidth) where
  window : Window
  side : Nat
  /-- The stride of the degraded patch. -/
  stride : Nat
  /-- The stride of the source patch. -/
  sourceStride : Nat
  length : Nat
  degraded : Vector (Sample width) length
  source : Vector (Sample width) length

namespace Fixture

variable {width : SampleWidth}

/-- A black fixture of any side. -/
def black (width : SampleWidth) (window : Window) (side : Nat) : Fixture width where
  window := window
  side := side
  stride := side
  sourceStride := side
  length := toWord (side * side)
  degraded := Vector.replicate _ (Sample.zero width)
  source := Vector.replicate _ (Sample.zero width)

/-- The samples of a black fixture are black. -/
theorem getElem?_black {window : Window} {side index : Nat}
    (h : index < (black width window side).length) :
    (black width window side).degraded.toArray[index]? = some (Sample.zero width) := by
  have h : index < toWord (side * side) := h
  simp [black, h]

/-- A black fixture that serves the largest unit. -/
def ofWindow (width : SampleWidth) (window : Window) : Fixture width :=
  black width window largestSide

/-- A black fixture whose side exceeds that of the window. There is none if the buffers would be
longer than an array can be. -/
def ofSide? (width : SampleWidth) (window : Window) (side : Nat) :
    Outcome FixtureError (Fixture width) :=
  if side ≤ window.side then .refused (.tooSmall side window.side)
  else if largestArray < toWord (side * side) * width.bytes then .outside
  else .done (black width window side)

/-- The fixture with another stride of the degraded patch, at most its side. -/
def withStride? (fixture : Fixture width) (stride : Nat) : Except FixtureError (Fixture width) :=
  if fixture.side < stride then .error (.strideTooWide stride fixture.side)
  else .ok { fixture with stride := stride }

/-- The index of the first pixel of the degraded patch. -/
def degradedOrigin (fixture : Fixture width) : Nat :=
  toWord (fixture.window.halo * fixture.side + fixture.window.halo)

/-- The degraded patch. -/
def degradedPatch? (fixture : Fixture width) : Except FixtureError (Patch width) :=
  (Patch.ofOrigin? fixture.degraded.toArray fixture.stride fixture.degradedOrigin).mapError .model

/-- The source patch. -/
def sourcePatch? (fixture : Fixture width) : Except FixtureError (Patch width) :=
  (Patch.ofBuffer? fixture.source.toArray fixture.sourceStride).mapError .model

/-- A stretch of both buffers, unless it runs past their end. -/
def slice? (fixture : Fixture width) (start length : Nat) :
    Option (Array (Sample width) × Array (Sample width)) := do
  let degraded ← Patch.slice? fixture.degraded.toArray start length
  let source ← Patch.slice? fixture.source.toArray start length
  pure (degraded, source)

/-! ## Filling -/

/-- Draw a sample of the content. -/
def drawSample (width : SampleWidth) (depth : BitDepth) (generator : Generator) :
    Sample width × Generator :=
  let (value, generator) := generator.drawSample depth.bits
  (Sample.truncate width value, generator)

/-- Make `count` draws in order. -/
def drawMany {α : Type} (count : Nat) (draw : Generator → α × Generator) (generator : Generator) :
    Vector α count × Generator :=
  count.dfold (α := fun drawn _ ↦ Vector α drawn × Generator)
    (fun _ _ (values, generator) ↦
      let (value, generator) := draw generator
      (values.push value, generator))
    (#v[], generator)

/-- The last of several draws is made by the generator that the earlier ones leave. -/
theorem drawMany_succ {α : Type} (count : Nat) (draw : Generator → α × Generator)
    (generator : Generator) :
    drawMany (count + 1) draw generator =
      ((drawMany count draw generator).1.push (draw (drawMany count draw generator).2).1,
        (draw (drawMany count draw generator).2).2) := by
  simp only [drawMany, Nat.dfold_succ]

/-- Draw the samples for one position of both buffers, the degraded one first. -/
def drawPair (width : SampleWidth) (depth : BitDepth) (generator : Generator) :
    (Sample width × Sample width) × Generator :=
  let (degraded, generator) := drawSample width depth generator
  let (source, generator) := drawSample width depth generator
  ((degraded, source), generator)

/-- Random samples, position by position. -/
def fillRandom (fixture : Fixture width) (depth : BitDepth) (generator : Generator) :
    Fixture width × Generator :=
  let pairs := drawMany fixture.length (drawPair width depth) generator
  ({ fixture with degraded := pairs.1.map Prod.fst, source := pairs.1.map Prod.snd }, pairs.2)

/-- Replace the entries by a row as often as the whole row fits. The entries after the last whole
row stay as they are. -/
def repeatRow {α : Type} {side length : Nat} (row : Vector α side) (entries : Vector α length) :
    Vector α length :=
  Vector.ofFn fun index ↦
    if h : index.val < length / side * side then
      have hside : 0 < side := Nat.pos_of_lt_mul_left h
      row.get ⟨index.val % side, Nat.mod_lt _ hside⟩
    else
      entries.get index

section RepeatRow

variable {α : Type} {side length : Nat} {row : Vector α side} {entries : Vector α length}
variable {index : Nat}

/-- In the whole rows every entry is the one of its column. -/
theorem getElem?_repeatRow_of_lt (h : index < length / side * side) :
    (repeatRow row entries).toArray[index]? = row.toArray[index % side]? := by
  have hside : 0 < side := Nat.pos_of_lt_mul_left h
  have hindex : index < length := Nat.lt_of_lt_of_le h (Nat.div_mul_le_self length side)
  have hcolumn : index % side < side := Nat.mod_lt _ hside
  simp [repeatRow, h, hindex, hcolumn, Vector.get]

/-- The entries after the whole rows are the old ones. -/
theorem getElem?_repeatRow_of_le (h : length / side * side ≤ index) :
    (repeatRow row entries).toArray[index]? = entries.toArray[index]? := by
  by_cases hindex : index < length
  · simp [repeatRow, Nat.not_lt.mpr h, hindex, Vector.get]
  · rw [Array.getElem?_eq_none (by simpa using hindex),
      Array.getElem?_eq_none (by simpa using hindex)]

end RepeatRow

/-- Random samples in the first row of the degraded buffer, then in that of the source buffer; the
other rows repeat them. -/
def fillColumns (fixture : Fixture width) (depth : BitDepth) (generator : Generator) :
    Fixture width × Generator :=
  let degraded := drawMany fixture.side (drawSample width depth) generator
  let source := drawMany fixture.side (drawSample width depth) degraded.2
  ({ fixture with
      degraded := repeatRow degraded.1 fixture.degraded
      source := repeatRow source.1 fixture.source }, source.2)

/-- Black at even positions and the largest value at odd ones. -/
def fillAlternating (fixture : Fixture width) (depth : BitDepth) : Fixture width :=
  let samples : Vector (Sample width) fixture.length := Vector.ofFn fun index ↦
    if index.val % 2 = 1 then Sample.truncate width depth.maxValue else Sample.zero width
  { fixture with degraded := samples, source := samples }

/-- One value in each buffer. -/
def fillConstant (fixture : Fixture width) (degraded source : Nat) : Fixture width :=
  { fixture with
    degraded := Vector.replicate _ (Sample.truncate width degraded)
    source := Vector.replicate _ (Sample.truncate width source) }

/-- The largest value in the degraded buffer but for the first `blackened` samples, which are black
like the source buffer. -/
def fillOverflow (fixture : Fixture width) (depth : BitDepth) (blackened : Nat) : Fixture width :=
  { fixture with
    degraded := Vector.ofFn fun index ↦
      if index.val < blackened then Sample.zero width
      else Sample.truncate width depth.maxValue
    source := Vector.replicate _ (Sample.zero width) }

/-! ## Operations -/

/-- An operation that changes a fixture. -/
inductive Change (width : SampleWidth) where
  /-- Change the stride of the degraded patch. -/
  | stride (stride : Nat)
  /-- Fill with random samples. -/
  | random (depth : BitDepth)
  /-- Fill with random columns. -/
  | columns (depth : BitDepth)
  /-- Fill with black and white in turn. -/
  | alternating (depth : BitDepth)
  /-- Fill with one value in each buffer. -/
  | constant (degraded source : Nat)
  /-- Fill with white after a number of black samples. -/
  | overflow (depth : BitDepth) (blackened : Nat)
  /-- Set one degraded sample. -/
  | setDegraded (index : Nat) (sample : Sample width)
  /-- Set one source sample. -/
  | setSource (index : Nat) (sample : Sample width)

/-- Make a change. A change that is refused or that falls outside a buffer leaves the fixture and
the generator as they are. -/
def change (fixture : Fixture width) (generator : Generator) :
    Change width → Outcome FixtureError Unit × Fixture width × Generator
  | .stride stride =>
      match fixture.withStride? stride with
      | .ok changed => (.done (), changed, generator)
      | .error cause => (.refused cause, fixture, generator)
  | .random depth => (.done (), fixture.fillRandom depth generator)
  | .columns depth => (.done (), fixture.fillColumns depth generator)
  | .alternating depth => (.done (), fixture.fillAlternating depth, generator)
  | .constant degraded source => (.done (), fixture.fillConstant degraded source, generator)
  | .overflow depth blackened => (.done (), fixture.fillOverflow depth blackened, generator)
  | .setDegraded index sample =>
      if h : index < fixture.length then
        (.done (), { fixture with degraded := fixture.degraded.set index sample h }, generator)
      else
        (.outside, fixture, generator)
  | .setSource index sample =>
      if h : index < fixture.length then
        (.done (), { fixture with source := fixture.source.set index sample h }, generator)
      else
        (.outside, fixture, generator)

/-- The fixture and the generator after a list of changes. -/
def changes (fixture : Fixture width) (generator : Generator) (list : List (Change width)) :
    Fixture width × Generator :=
  list.foldl (fun state change ↦ (state.1.change state.2 change).2) (fixture, generator)

end Fixture

end WienerRegression
