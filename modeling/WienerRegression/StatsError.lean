import WienerRegression.ModelError

/-!
# Refused statistics calls

The causes for which a statistics call is refused, and the text of each.
-/

namespace WienerRegression

/-- The two outputs of a statistics call. -/
inductive Output where
  /-- The correlation of each tap with the source. -/
  | cross
  /-- The correlation of each tap with each tap. -/
  | auto
  deriving DecidableEq

/-- The letter that stands for an output in the normal equations. -/
def Output.letter : Output → String
  | .cross => "M"
  | .auto => "H"

/-- Why a statistics call is refused. -/
inductive StatsError where
  /-- The inputs do not fit together as a model of the content. -/
  | model (cause : ModelError)
  /-- The first column of the unit is odd. -/
  | oddLeft (left : Nat)
  /-- A tap would be read outside the degraded buffer. The lowest index is absent when it lies
  before the first sample. -/
  | haloOutside (first : Option Nat) (last size : Nat)
  /-- A pixel would be read outside the source buffer. -/
  | sourceOutside (last size : Nat)
  /-- A pixel would be averaged outside its buffer. -/
  | rectOutside (last size : Nat)
  /-- An output has too few entries. -/
  | outputTooSmall (output : Output) (needed got : Nat)
  /-- A row has more pixels than its accumulator can take. -/
  | rowTooWide (width limit : Nat)
  /-- Vector instructions are asked for and there are none. -/
  | vectorUnavailable
  deriving DecidableEq

/-- The text of an index that may be absent. -/
def indexText : Option Nat → String
  | none => "None"
  | some index => s!"Some({index})"

/-- The text that reports a cause. -/
def StatsError.message : StatsError → String
  | .model cause => "core error: " ++ cause.message
  | .oddLeft left => s!"h_start must be even, got {left}"
  | .haloOutside first last size =>
      s!"degraded halo spans {indexText first}..={last}, buffer length {size}"
  | .sourceOutside last size =>
      s!"source rectangle ends at index {last}, buffer length {size}"
  | .rectOutside last size => s!"rectangle ends at index {last}, buffer length {size}"
  | .outputTooSmall output needed got =>
      s!"{output.letter} output too small: need {needed}, got {got}"
  | .rowTooWide width limit => s!"row width {width} exceeds staging limit {limit}"
  | .vectorUnavailable =>
      "statistics path unavailable: simd feature not enabled for this target"

end WienerRegression
