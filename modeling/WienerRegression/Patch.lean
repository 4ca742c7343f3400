import WienerRegression.ModelError
import WienerRegression.Sample
import WienerRegression.Words

/-!
# Patches

A patch addresses a buffer of samples by columns and rows. The pixel at `(x, y)` is the sample
`origin + y * stride + x` of the buffer. The stride is independent of how many columns are in use:
with a stride narrower than a row, neighbouring rows share samples. The methods work on words, where
the index of a pixel far outside the buffer can wrap around and name a sample (`wordIndex`).
-/

namespace WienerRegression

/-- A buffer of samples addressed by column and row. -/
structure Patch (width : SampleWidth) where
  buffer : Array (Sample width)
  stride : Nat
  origin : Nat
  stride_pos : 0 < stride
  origin_lt : origin < buffer.size

namespace Patch

variable {width : SampleWidth}

/-- The patch whose pixel `(0, 0)` is a given sample of the buffer. -/
def ofOrigin? (buffer : Array (Sample width)) (stride origin : Nat) :
    Except ModelError (Patch width) :=
  if hstride : 0 < stride then
    if horigin : origin < buffer.size then
      .ok ⟨buffer, stride, origin, hstride, horigin⟩
    else
      .error (.originOutside origin buffer.size)
  else
    .error .zeroStride

/-- The patch whose pixel `(0, 0)` is the first sample of the buffer. -/
def ofBuffer? (buffer : Array (Sample width)) (stride : Nat) : Except ModelError (Patch width) :=
  ofOrigin? buffer stride 0

/-- The patch whose pixel `(0, 0)` is the pixel `(x, y)` of the whole buffer. -/
def ofPixel? (buffer : Array (Sample width)) (stride x y : Nat) :
    Except ModelError (Patch width) :=
  ofOrigin? buffer stride (y * stride + x)

/-- The number of the buffer sample at a pixel. -/
def index (patch : Patch width) (x y : Nat) : Nat :=
  patch.origin + y * patch.stride + x

/-- The number of the buffer sample at a pixel as a word. -/
def wordIndex (patch : Patch width) (x y : Nat) : Nat :=
  toWord (patch.index x y)

/-- The sample at a pixel, if the buffer has it. -/
def get? (patch : Patch width) (x y : Nat) : Option (Sample width) :=
  patch.buffer[patch.index x y]?

/-- A stretch of an array, unless it runs past the end. -/
def slice? {α : Type} (entries : Array α) (start length : Nat) : Option (Array α) :=
  if start + length ≤ entries.size then some (entries.extract start (start + length)) else none

/-- The samples of `length` consecutive pixels from `(x, y)` on, if the buffer has them all. -/
def row? (patch : Patch width) (x y length : Nat) : Option (Array (Sample width)) :=
  slice? patch.buffer (patch.index x y) length

/-- The `length` consecutive samples from the word that is the index of `(x, y)` on, if the buffer
has them all. -/
def wordRow? (patch : Patch width) (x y length : Nat) : Option (Array (Sample width)) :=
  slice? patch.buffer (patch.wordIndex x y) length

end Patch

end WienerRegression
