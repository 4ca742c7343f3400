import WienerRegression.StatsError

/-!
# Accumulation methods and options

Two methods accumulate the statistics: the reference method sums centred products pixel by pixel,
and the specialized method stages raw sums row by row and centres them once at the end. A caller
may name a method, leave the choice open, or ask for vector instructions, which this library does
not have.
-/

namespace WienerRegression

/-- A method of accumulation. -/
inductive Method where
  /-- Sums of centred products. -/
  | reference
  /-- Raw sums, centred at the end. -/
  | specialized
  deriving DecidableEq

/-- The name of a method. -/
def Method.name : Method → String
  | .reference => "reference"
  | .specialized => "specialized"

/-- What a caller asks for. -/
inductive MethodRequest where
  /-- The fastest method there is. -/
  | auto
  /-- The reference method. -/
  | reference
  /-- The specialized method. -/
  | specialized
  /-- A method that uses vector instructions. -/
  | simd
  deriving DecidableEq

namespace MethodRequest

/-- The name of a request. -/
def name : MethodRequest → String
  | .auto => "auto"
  | .reference => "reference"
  | .specialized => "specialized"
  | .simd => "simd"

/-- Whether vector instructions can be used. -/
def simdAvailable : Bool := false

/-- The method that a request stands for. -/
def resolve : MethodRequest → Except StatsError Method
  | .auto => .ok .specialized
  | .reference => .ok .reference
  | .specialized => .ok .specialized
  | .simd => .error .vectorUnavailable

end MethodRequest

/-- The options of a statistics call. -/
structure CallOptions where
  /-- Whether only every fourth row is scanned. -/
  sparse : Bool
  /-- The requested method. -/
  method : MethodRequest
  deriving DecidableEq

/-- A call makes a full scan by the fastest method unless it says otherwise. -/
instance : Inhabited CallOptions := ⟨⟨false, .auto⟩⟩

end WienerRegression
