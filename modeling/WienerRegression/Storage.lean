import WienerRegression.Run

/-!
# Storage for statistics

A storage has room for the statistics of the larger window and is tagged with the window that its
statistics belong to. The statistics of a window are the first entries of the two arrays, so
changing the tag changes which entries are meant and none of their values.
-/

namespace WienerRegression

/-- Room for the statistics of any window, and the window they belong to. -/
structure Storage where
  window : Window
  cross : Vector Int Window.luma.taps
  auto : Vector Int Window.luma.tapPairs
  deriving DecidableEq

namespace Storage

/-- A storage of zeros that belongs to a window. -/
def ofWindow (window : Window) : Storage where
  window := window
  cross := Vector.replicate _ 0
  auto := Vector.replicate _ 0

/-- The storage with the same entries, belonging to a window. -/
def retag (storage : Storage) (window : Window) : Storage :=
  { storage with window := window }

/-- The entries that belong to the window. -/
def outputs (storage : Storage) : Outputs where
  cross := storage.cross.toArray.extract 0 storage.window.taps
  auto := storage.auto.toArray.extract 0 storage.window.tapPairs

/-- Replace the first entries of both arrays. -/
def withOutputs (storage : Storage) (outputs : Outputs) : Storage :=
  { storage with
    cross := storage.cross.mapIdx fun index entry ↦ outputs.cross.getD index entry
    auto := storage.auto.mapIdx fun index entry ↦ outputs.auto.getD index entry }

/-- The matrix entry for two taps, numbered by the window of the storage. The whole array is in
reach, also beyond the entries of the window. -/
def autoAt? (storage : Storage) (first second : Nat) : Option Int :=
  storage.auto[first * storage.window.taps + second]?

/-- Whether the matrix of the window equals its transpose. -/
def isSymmetric? (storage : Storage) : Option Bool :=
  RowMajor.isSymmetric? storage.outputs.auto storage.window.taps

/-- A one-line description: the window, the vector, and the length of the matrix. -/
def description (storage : Storage) : String :=
  let entries := ", ".intercalate (storage.outputs.cross.toList.map toString)
  "WienerStats \x7b window: " ++ storage.window.name ++ ", m: [" ++ entries ++ "], h_len: "
    ++ toString storage.outputs.auto.size ++ " \x7d"

/-- Write numbered entries in order, up to the first whose number is out of range. -/
def writeEntries : List (Nat × Int) → Array Int → Bool × Array Int
  | [], entries => (true, entries)
  | (index, value) :: rest, entries =>
      if h : index < entries.size then writeEntries rest (entries.set index value h)
      else (false, entries)

/-- Retag the storage for a window and write numbered entries through its outputs, those of the
vector first. A number out of range cuts the writing short; what was written before it stays. -/
def write (storage : Storage) (window : Window) (cross auto : List (Nat × Int)) :
    Outcome StatsError Unit × Storage :=
  let tagged := storage.retag window
  match writeEntries cross tagged.outputs.cross with
  | (false, written) => (.outside, tagged.withOutputs ⟨written, tagged.outputs.auto⟩)
  | (true, written) =>
      match writeEntries auto tagged.outputs.auto with
      | (false, matrix) => (.outside, tagged.withOutputs ⟨written, matrix⟩)
      | (true, matrix) => (.done (), tagged.withOutputs ⟨written, matrix⟩)

/-- Answer a call into the storage. The storage then belongs to the window of the call, unless the
call is refused: then it keeps its window. -/
def compute {width : SampleWidth} (storage : Storage) (call : Call width) :
    Outcome StatsError Unit × Storage :=
  let tagged := storage.retag call.window
  let run := call.run tagged.outputs
  let answered := tagged.withOutputs run.outputs
  match run.outcome with
  | .refused cause => (.refused cause, answered.retag storage.window)
  | outcome => (outcome, answered)

end Storage

end WienerRegression
