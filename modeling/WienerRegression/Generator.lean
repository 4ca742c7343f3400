/-!
# A reproducible generator

A linear congruential generator on 64-bit words gives the same numbers on every run. Its state is
its last draw; narrower numbers are cut from the high bits of a draw.
-/

namespace WienerRegression

/-- A generator, which is its current state. -/
structure Generator where
  state : UInt64
  deriving DecidableEq

namespace Generator

/-- The factor of the recurrence. -/
def multiplier : UInt64 := 6364136223846793005

/-- The summand of the recurrence. -/
def increment : UInt64 := 1442695040888963407

/-- The generator that starts from a seed. -/
def ofSeed (seed : UInt32) : Generator := ⟨seed.toUInt64⟩

/-- The generator after one draw. -/
def next (generator : Generator) : Generator :=
  ⟨generator.state * multiplier + increment⟩

/-- Draw a 64-bit word. -/
def draw (generator : Generator) : UInt64 × Generator :=
  (generator.next.state, generator.next)

/-- Draw the high half of a word. -/
def drawHigh (generator : Generator) : UInt32 × Generator :=
  ((generator.next.state >>> 32).toUInt32, generator.next)

/-- Draw a sample of `bits` bits, where `bits` is between 1 and 16. -/
def drawSample (bits : Nat) (generator : Generator) : Nat × Generator :=
  ((generator.drawHigh.1 >>> UInt32.ofNat (32 - bits)).toNat, generator.drawHigh.2)

/-- Draw a number below a bound. There is nothing to draw below zero. -/
def drawBelow (bound : Nat) (generator : Generator) : Nat × Generator :=
  if bound = 0 then (0, generator)
  else (generator.drawHigh.1.toNat % bound, generator.drawHigh.2)

/-- A draw of any kind. -/
inductive Draw where
  /-- A 64-bit word. -/
  | word
  /-- The high half of a word. -/
  | high
  /-- A sample of so many bits. -/
  | sample (bits : Nat)
  /-- A number below a bound. -/
  | below (bound : Nat)
  deriving DecidableEq

/-- Make a draw: its number and the generator after it. -/
def make (generator : Generator) : Draw → Nat × Generator
  | .word => (generator.draw.1.toNat, generator.draw.2)
  | .high => (generator.drawHigh.1.toNat, generator.drawHigh.2)
  | .sample bits => generator.drawSample bits
  | .below bound => generator.drawBelow bound

/-- The generator after a list of draws. -/
def makeAll (generator : Generator) (draws : List Draw) : Generator :=
  draws.foldl (fun generator draw ↦ (generator.make draw).2) generator

end Generator

end WienerRegression
