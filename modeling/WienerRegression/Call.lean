import WienerRegression.Average
import WienerRegression.BitDepth
import WienerRegression.Method
import WienerRegression.Patch
import WienerRegression.RowScan
import WienerRegression.Window

/-!
# Statistics calls

A call asks for the statistics of one restoration unit: how the samples around each degraded pixel
correlate with the source pixel and with each other. `verdict` says whether a call is accepted,
and if it is not, which of its faults comes first. No sample is read before the verdict.
`wordVerdict` finds the indices of the corners with arithmetic on words.
-/

namespace WienerRegression

/-- A request for the statistics of one restoration unit. -/
structure Call (width : SampleWidth) where
  window : Window
  degraded : Patch width
  source : Patch width
  rect : Rect
  depth : BitDepth
  options : CallOptions

namespace Call

variable {width : SampleWidth}

/-- How far before the sample of a pixel its first tap lies in the degraded buffer, and how far
after it its last tap. -/
def reach (call : Call width) : Nat :=
  call.window.halo * call.degraded.stride + call.window.halo

/-- The index of the first tap of the unit, unless it lies before the first sample. -/
def firstTap? (call : Call width) : Option Nat :=
  let start := call.degraded.index call.rect.left call.rect.top
  if call.reach ≤ start then some (start - call.reach) else none

/-- The index of the last tap of the unit. -/
def lastTap (call : Call width) : Nat :=
  call.degraded.lastIndex call.rect + call.reach

/-- The index of the first tap of the unit as a word, unless it lies before the first sample. -/
def wordFirstTap? (call : Call width) : Option Nat :=
  let start := call.degraded.wordIndex call.rect.left call.rect.top
  if toWord call.reach ≤ start then some (start - toWord call.reach) else none

/-- Check the inputs of the call and the lengths of the two outputs, up to the first fault. The
indices of the first and the last tap of the unit and of its last source pixel are given. -/
def validateAt (call : Call width) (firstTap? : Option Nat) (lastTap lastPixel : Nat)
    (crossLength autoLength : Nat) : Except StatsError Unit :=
  match call.depth.heldBy width with
  | .error cause => .error (.model cause)
  | .ok () =>
      if call.rect.left % 2 ≠ 0 then
        .error (.oddLeft call.rect.left)
      else if width.stagedRowLimit < call.rect.width then
        .error (.rowTooWide call.rect.width width.stagedRowLimit)
      else if crossLength < call.window.taps then
        .error (.outputTooSmall .cross call.window.taps crossLength)
      else if autoLength < call.window.tapPairs then
        .error (.outputTooSmall .auto call.window.tapPairs autoLength)
      else if firstTap? = none ∨ call.degraded.buffer.size ≤ lastTap then
        .error (.haloOutside firstTap? lastTap call.degraded.buffer.size)
      else if call.source.buffer.size ≤ lastPixel then
        .error (.sourceOutside lastPixel call.source.buffer.size)
      else
        .ok ()

/-- Check the inputs of the call and the lengths of the two outputs, up to the first fault. -/
def validate (call : Call width) (crossLength autoLength : Nat) : Except StatsError Unit :=
  call.validateAt call.firstTap? call.lastTap (call.source.lastIndex call.rect) crossLength
    autoLength

/-- The method by which the call is answered, or the first of its faults. A method is chosen only
for valid inputs. -/
def verdict (call : Call width) (crossLength autoLength : Nat) : Except StatsError Method :=
  match call.validate crossLength autoLength with
  | .error cause => .error cause
  | .ok () => call.options.method.resolve

/-- The verdict that arithmetic on words finds. -/
def wordVerdict (call : Call width) (crossLength autoLength : Nat) : Except StatsError Method := do
  call.validateAt call.wordFirstTap? (toWord call.lastTap)
    (call.source.wordIndex (call.rect.right - 1) (call.rect.bottom - 1)) crossLength autoLength
  call.options.method.resolve

end Call

end WienerRegression
