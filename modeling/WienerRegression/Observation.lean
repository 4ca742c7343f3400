import WienerRegression.Call
import WienerRegression.Entries

/-!
# Observations

The regression sees a unit as rows of observations. An observation is a source sample together with
the degraded samples at the taps around it; a row has a weight, the number of rows it stands for.
`Call.rows?` reads the observations of a call, and has no answer if a read falls outside a buffer;
`Call.wordRows?` does so with arithmetic on words. The lemma `collect?_eq_some_iff` says when the
taps of an observation are all read.
-/

namespace WienerRegression

/-- The values that a family of reads gives, unless one of them gives none. -/
def collect? {α : Type} {n : Nat} (read : Fin n → Option α) : Option (Vector α n) :=
  if h : ∀ i, (read i).isSome then some (Vector.ofFn fun i ↦ (read i).get (h i)) else none

/-- The values are collected exactly when each read gives its value. -/
theorem collect?_eq_some_iff {α : Type} {n : Nat} {read : Fin n → Option α} {values : Vector α n} :
    collect? read = some values ↔ ∀ i : Fin n, read i = some (values.get i) := by
  unfold collect?
  split
  · next h =>
      constructor
      · intro heq i
        cases heq
        rw [Entries.get_ofFn, Option.some_get]
      · intro hread
        congr 1
        apply Vector.ext
        intro i hi
        have hentry := hread ⟨i, hi⟩
        simp [hentry, Vector.get]
  · next h =>
      constructor
      · intro heq
        cases heq
      · intro hread
        exact absurd (fun i ↦ by rw [hread i]; rfl) h

/-- A source sample and the degraded samples at the taps around it. -/
structure Observation (width : SampleWidth) (window : Window) where
  source : Sample width
  taps : Vector (Sample width) window.taps

/-- The degraded sample at a tap. -/
@[inline] def Observation.tap {width : SampleWidth} {window : Window}
    (observation : Observation width window) (tap : Fin window.taps) : Sample width :=
  observation.taps.get tap

/-- A row of observations and the number of rows it stands for. -/
structure WeightedRow (width : SampleWidth) (window : Window) where
  weight : Nat
  pixels : List (Observation width window)

namespace Call

variable {width : SampleWidth}

/-- The index of a tap of the pixel in a row and a column of the unit, where columns count from the
left side of the unit. A tap before the first sample has none. -/
def tapIndex? (call : Call width) (row column : Nat) (tap : Fin call.window.taps) : Option Nat :=
  let start := call.degraded.index call.rect.left row
  if call.reach ≤ start then
    some (start - call.reach + column
      + call.window.tapRow tap * call.degraded.stride + call.window.tapColumn tap)
  else
    none

/-- The degraded sample at a tap. -/
def tapSample? (call : Call width) (row column : Nat) (tap : Fin call.window.taps) :
    Option (Sample width) :=
  match call.tapIndex? row column tap with
  | some index => call.degraded.buffer[index]?
  | none => none

/-- The observation at a pixel of a row of the unit, given the source samples of the row. -/
def pixel? (call : Call width) (sources : Array (Sample width)) (row column : Nat) :
    Option (Observation width call.window) := do
  let source ← sources[column]?
  let taps ← collect? (call.tapSample? row column)
  pure ⟨source, taps⟩

/-- The observations of one row of the unit. -/
def row? (call : Call width) (row weight : Nat) : Option (WeightedRow width call.window) := do
  let sources ← call.source.row? call.rect.left row call.rect.width
  let pixels ← (List.range call.rect.width).mapM (call.pixel? sources row)
  pure ⟨weight, pixels⟩

/-- The observations of all scanned rows of the unit. -/
def rows? (call : Call width) : Option (List (WeightedRow width call.window)) :=
  (RowScan.ofRect call.rect call.options.sparse).toList.mapM fun visit ↦ call.row? visit.1 visit.2

/-! ## Arithmetic on words -/

/-- The index of a tap as a word. -/
def wordTapIndex (call : Call width) (row column : Nat) (tap : Fin call.window.taps) : Nat :=
  (UInt64.ofNat (call.degraded.index call.rect.left row) - UInt64.ofNat call.reach +
    UInt64.ofNat (column + call.window.tapRow tap * call.degraded.stride
      + call.window.tapColumn tap)).toNat

/-- The observation at a pixel of a row of the unit, whose taps are read at words. -/
def wordPixel? (call : Call width) (sources : Array (Sample width)) (row column : Nat) :
    Option (Observation width call.window) := do
  let source ← sources[column]?
  let taps ← collect? fun tap ↦ call.degraded.buffer[call.wordTapIndex row column tap]?
  pure ⟨source, taps⟩

/-- The observations of one row of the unit, which are read at words. -/
def wordRow? (call : Call width) (row weight : Nat) :
    Option (WeightedRow width call.window) := do
  let sources ← call.source.wordRow? call.rect.left row call.rect.width
  let pixels ← (List.range call.rect.width).mapM (call.wordPixel? sources row)
  pure ⟨weight, pixels⟩

/-- The observations of all scanned rows of the unit, which are read at words. A scan that steps
over the largest word starts again at the first rows and has no end. -/
def wordRows? (call : Call width) : Option (List (WeightedRow width call.window)) :=
  let scan := RowScan.ofRect call.rect call.options.sparse
  if scan.next + scan.remaining * scan.step < UInt64.size then
    scan.toList.mapM fun visit ↦ call.wordRow? visit.1 visit.2
  else
    none

end Call

end WienerRegression
