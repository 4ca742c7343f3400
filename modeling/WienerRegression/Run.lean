import WienerRegression.CenteredSums
import WienerRegression.StagedSums

/-!
# Running a call

An accepted call leaves one record in the log and writes its statistics to the first entries of the
outputs. A refused call leaves the outputs and the log alone. `Call.wordRun` holds indices and
totals in words, as the program does; `Call.run` holds them in numbers of any size.
-/

namespace WienerRegression

/-- What the log keeps of an accepted call. -/
structure CallRecord where
  requested : MethodRequest
  method : Method
  window : Window
  depth : BitDepth
  rect : Rect
  sparse : Bool
  deriving DecidableEq

namespace CallRecord

/-- The level at which a call is logged. -/
def level : String := "DEBUG"

/-- The message under which a call is logged. -/
def message : String := "wiener stats"

end CallRecord

/-- How a call ended, what its outputs hold afterwards, and what it logged. -/
structure Run where
  outcome : Outcome StatsError Unit
  outputs : Outputs
  log : List CallRecord
  deriving DecidableEq

namespace Call

variable {width : SampleWidth}

/-- What the outputs hold after a method has answered the call into them, unless a read or a write
falls outside an array. The reference method accumulates in the outputs, the specialized method
writes to them once at the end. -/
def answer? (call : Call width) (method : Method) (outputs : Outputs) : Option Outputs := do
  let average ← call.degraded.average? call.rect
  let rows ← call.rows?
  match method with
  | .reference =>
      let storage ← outputs.read? call.window
      outputs.write? (CenteredSums.accumulate call.depth average.val rows storage)
  | .specialized =>
      outputs.write?
        ((StagedSums.ofRows rows).statistics call.depth average.val call.rect.area)

/-- What the outputs hold after a method has answered the call into them with arithmetic on words.
Content of 8 bits is not divided, so the totals are found as if the content had 8 bits. -/
def wordAnswer? (call : Call width) (method : Method) (outputs : Outputs) : Option Outputs := do
  let average ← call.degraded.wordAverage? call.rect
  let rows ← call.wordRows?
  match method with
  | .reference =>
      let storage ← outputs.read? call.window
      outputs.write?
        (.ofTotals call.depth (CenteredSums.accumulate .eight average.val rows storage))
  | .specialized =>
      outputs.write? (.ofTotals call.depth
        ((StagedSums.ofRows rows).statistics .eight average.val call.rect.area))

/-- The record of the call in the log. -/
def logRecord (call : Call width) (method : Method) : CallRecord where
  requested := call.options.method
  method := method
  window := call.window
  depth := call.depth
  rect := call.rect
  sparse := call.options.sparse

/-- Refuse the call or answer it into the outputs, as a verdict says. -/
def conclude (call : Call width) (outputs : Outputs) (verdict : Except StatsError Method)
    (answer? : Method → Option Outputs) : Run :=
  match verdict with
  | .error cause => ⟨.refused cause, outputs, []⟩
  | .ok method =>
      match answer? method with
      | some written => ⟨.done (), written, [call.logRecord method]⟩
      | none => ⟨.outside, outputs, [call.logRecord method]⟩

/-- Answer the call into the outputs. -/
def run (call : Call width) (outputs : Outputs) : Run :=
  call.conclude outputs (call.verdict outputs.cross.size outputs.auto.size)
    fun method ↦ call.answer? method outputs

/-- Answer the call into the outputs with arithmetic on words. -/
def wordRun (call : Call width) (outputs : Outputs) : Run :=
  call.conclude outputs (call.wordVerdict outputs.cross.size outputs.auto.size)
    fun method ↦ call.wordAnswer? method outputs

end Call

end WienerRegression
