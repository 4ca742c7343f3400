/-!
# Stored samples

A sample is stored in a byte or in a 16-bit word. Everything that depends on the choice is here:
the number of levels, the row accumulator, and the widest row that accumulator can hold. The
lemma `val_truncate` says that narrowing keeps a value modulo the number of levels, and
`stage_of_fits` that a value which fits the row accumulator is kept as it is.
-/

namespace WienerRegression

/-- The two storage formats of a sample. -/
inductive SampleWidth where
  /-- One byte, for 8-bit content. -/
  | byte
  /-- A 16-bit word, for 8-bit, 10-bit and 12-bit content. -/
  | word
  deriving DecidableEq

namespace SampleWidth

/-- The number of bits of the storage format. -/
def bits : SampleWidth → Nat
  | .byte => 8
  | .word => 16

/-- The number of values that the storage format can hold. -/
def levels : SampleWidth → Nat
  | .byte => 256
  | .word => 65536

/-- A storage format holds at least one value. -/
theorem levels_pos (width : SampleWidth) : 0 < width.levels := by
  cases width <;> decide

/-- The widest row whose sums of sample products fit the row accumulator. A byte product is at
most `255 * 255` and its accumulator holds 31 bits and a sign; a row of words is limited only by
the largest length that an address can express. -/
def stagedRowLimit : SampleWidth → Nat
  | .byte => 2147483647 / (255 * 255)
  | .word => 18446744073709551615

/-- Hold a row sum in the row accumulator. The accumulator of a byte row has 32 bits and wraps
around; that of a word row is as wide as the running totals, which are exact. -/
@[inline] def stage : SampleWidth → Int → Int
  | .byte, value => (Int32.ofInt value).toInt
  | .word, value => value

/-- A value between the bounds of a signed 32-bit integer is held unchanged. -/
theorem stage_of_fits (width : SampleWidth) (value : Int)
    (hlow : -2147483648 ≤ value) (hhigh : value ≤ 2147483647) :
    width.stage value = value := by
  cases width with
  | byte => exact Int32.toInt_ofInt_of_le hlow (by omega)
  | word => rfl

end SampleWidth

/-- A sample of the given storage format: a number below its number of levels. -/
abbrev Sample (width : SampleWidth) := Fin width.levels

namespace Sample

/-- The sample that keeps the low bits of a number. -/
def truncate (width : SampleWidth) (value : Nat) : Sample width :=
  ⟨value % width.levels, Nat.mod_lt _ width.levels_pos⟩

/-- Narrowing keeps a number modulo the number of levels. -/
@[simp] theorem val_truncate (width : SampleWidth) (value : Nat) :
    (truncate width value).val = value % width.levels := rfl

/-- The black level. -/
def zero (width : SampleWidth) : Sample width :=
  ⟨0, width.levels_pos⟩

/-- The product of two samples. -/
def product {width : SampleWidth} (left right : Sample width) : Nat :=
  left.val * right.val

/-- The samples as bytes, which only byte storage offers. -/
def bytes? {width : SampleWidth} (samples : Array (Sample width)) : Option (Array UInt8) :=
  match width with
  | .byte => some (samples.map fun sample ↦ UInt8.ofNat sample.val)
  | .word => none

end Sample

end WienerRegression
