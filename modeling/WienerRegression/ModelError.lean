/-!
# Malformed inputs

The causes for which a window, a bit depth, a rectangle or a patch cannot be formed, and the text
of each. A value that has been formed is well formed from then on.
-/

namespace WienerRegression

/-- Why a window, bit depth, rectangle or patch cannot be formed. -/
inductive ModelError where
  /-- No tap window has this side. -/
  | invalidWindow (side : Nat)
  /-- No content has this bit depth. -/
  | invalidDepth (bits : Nat)
  /-- The rectangle has no column or no row. -/
  | emptyRect (left right top bottom : Nat)
  /-- Consecutive rows of a patch would start at the same sample. -/
  | zeroStride
  /-- The origin of a patch is no sample of its buffer. -/
  | originOutside (origin size : Nat)
  /-- The storage format has fewer bits than the bit depth. -/
  | depthTooWide (storage depth : Nat)
  deriving DecidableEq

/-- The text that reports a cause. -/
def ModelError.message : ModelError → String
  | .invalidWindow side => s!"invalid Wiener window size: {side} (expected 5 or 7)"
  | .invalidDepth bits => s!"invalid bit depth: {bits} (expected 8, 10 or 12)"
  | .emptyRect left right top bottom =>
      s!"empty rectangle: h {left}..{right}, v {top}..{bottom}"
  | .zeroStride => "invalid stride: 0"
  | .originOutside origin size =>
      s!"patch origin {origin} outside buffer of length {size}"
  | .depthTooWide storage depth =>
      s!"unsupported depth: {storage}-bit samples cannot hold {depth}-bit values"

end WienerRegression
