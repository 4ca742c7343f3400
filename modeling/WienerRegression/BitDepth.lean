import WienerRegression.ModelError
import WienerRegression.Sample

/-!
# Bit depths

Content has 8, 10 or 12 bits per sample. The statistics of deeper content are divided by the power
of two that brings them back to the scale of 8-bit content.
-/

namespace WienerRegression

/-- The bit depth of the content. -/
inductive BitDepth where
  | eight
  | ten
  | twelve
  deriving DecidableEq

namespace BitDepth

/-- Content has 8 bits unless stated otherwise. -/
instance : Inhabited BitDepth := ⟨.eight⟩

/-- The bit depths in increasing order. -/
def all : List BitDepth := [.eight, .ten, .twelve]

/-- The number of bits of a sample. -/
def bits : BitDepth → Nat
  | .eight => 8
  | .ten => 10
  | .twelve => 12

/-- The bit depth with this number of bits. -/
def ofBits? : Nat → Except ModelError BitDepth
  | 8 => .ok .eight
  | 10 => .ok .ten
  | 12 => .ok .twelve
  | bits => .error (.invalidDepth bits)

/-- The largest sample value. -/
def maxValue (depth : BitDepth) : Nat :=
  (1 <<< depth.bits) - 1

/-- The divisor that brings statistics to the scale of 8-bit content: 1, 4 or 16. -/
def divisor (depth : BitDepth) : Nat :=
  1 <<< (depth.bits - 8)

/-- The name of a bit depth in running text. -/
def text (depth : BitDepth) : String :=
  s!"{depth.bits}-bit"

/-- Require that a storage format has at least as many bits as the content. -/
def heldBy (depth : BitDepth) (width : SampleWidth) : Except ModelError Unit :=
  if width.bits < depth.bits then .error (.depthTooWide width.bits depth.bits) else .ok ()

end BitDepth

end WienerRegression
