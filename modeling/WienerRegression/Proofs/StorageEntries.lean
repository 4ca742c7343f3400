import WienerRegression.Proofs.Runs
import WienerRegression.Storage

/-!
# What a call leaves in a storage

A storage lends a call exactly as many entries as the window of the call has, so whether the call
is accepted and what it writes depends on the call alone (`verdict_of_fits`, `replace_of_fits`). A
refused call leaves the storage as it was (`compute_of_error`). An accepted one tags the storage
with its window and writes the coefficients of the normal equations over the first entries
(`compute_of_ok`); the entries after them stay (`getElem?_withOutputs`).
-/

namespace WienerRegression

/-- The number of entries of a window in an output. -/
def Output.length (window : Window) : Output → Nat
  | .cross => window.taps
  | .auto => window.tapPairs

/-- No window has more entries than the larger one. -/
theorem Output.length_le_luma (output : Output) (window : Window) :
    output.length window ≤ output.length .luma := by
  cases output <;> cases window <;> decide

namespace Outputs

/-- The entries of an output. -/
def entries (outputs : Outputs) : Output → Array Int
  | .cross => outputs.cross
  | .auto => outputs.auto

/-- The outputs have exactly the entries of a window. -/
def Fits (outputs : Outputs) (window : Window) : Prop :=
  ∀ output, (outputs.entries output).size = output.length window

/-- Outputs with the same entries are the same. -/
theorem ext_entries {left right : Outputs}
    (h : ∀ (output : Output) (position : Nat),
      (left.entries output)[position]? = (right.entries output)[position]?) : left = right := by
  cases left
  cases right
  congr 1
  · exact Array.ext_getElem? (h .cross)
  · exact Array.ext_getElem? (h .auto)

/-- Fresh outputs for a window. -/
def zeros (window : Window) : Outputs where
  cross := Array.replicate window.taps 0
  auto := Array.replicate window.tapPairs 0

/-- Fresh outputs have the entries of their window. -/
theorem fits_zeros (window : Window) : (zeros window).Fits window := by
  intro output
  cases output <;> exact Array.size_replicate

end Outputs

/-- Outputs that hold statistics and nothing else. -/
def Statistics.outputs {window : Window} (statistics : Statistics window) : Outputs where
  cross := statistics.cross.toArray
  auto := statistics.auto.toArray

/-- Statistics have the entries of their window. -/
theorem Statistics.fits_outputs {window : Window} (statistics : Statistics window) :
    statistics.outputs.Fits window := by
  intro output
  cases output with
  | cross => exact statistics.cross.size_toArray
  | auto => exact statistics.auto.size_toArray

/-- Overwriting as many entries as there are leaves the given values. -/
theorem overwrite_of_size_eq {values entries : Array Int} (h : values.size = entries.size) :
    overwrite values entries = values := by
  unfold overwrite
  rw [h, Array.extract_eq_empty_of_le (by omega), Array.append_empty]

/-- Statistics replace all that outputs for their window hold. -/
theorem Outputs.replace_of_fits {window : Window} {outputs : Outputs} (h : outputs.Fits window)
    (statistics : Statistics window) : outputs.replace statistics = statistics.outputs := by
  have hcross : statistics.cross.toArray.size = outputs.cross.size :=
    (statistics.fits_outputs .cross).trans (h .cross).symm
  have hauto : statistics.auto.toArray.size = outputs.auto.size :=
    (statistics.fits_outputs .auto).trans (h .auto).symm
  unfold replace
  rw [overwrite_of_size_eq hcross, overwrite_of_size_eq hauto]
  rfl

namespace Call

variable {width : SampleWidth} {call : Call width} {outputs : Outputs}

/-- The verdict on a call that is given exactly the entries of its window. -/
def ownVerdict (call : Call width) : Except StatsError Method :=
  call.verdict call.window.taps call.window.tapPairs

/-- Outputs for the window of the call leave the verdict to the call. -/
theorem verdict_of_fits (h : outputs.Fits call.window) :
    call.verdict outputs.cross.size outputs.auto.size = call.ownVerdict := by
  have hcross : outputs.cross.size = call.window.taps := h .cross
  have hauto : outputs.auto.size = call.window.tapPairs := h .auto
  rw [hcross, hauto, ownVerdict]

/-- A refused run on outputs for the window of the call leaves them as they were. -/
theorem run_of_fits_error {cause : StatsError} (h : outputs.Fits call.window)
    (hverdict : call.ownVerdict = .error cause) :
    call.run outputs = ⟨.refused cause, outputs, []⟩ :=
  run_of_error ((verdict_of_fits h).trans hverdict)

/-- An accepted run on outputs for the window of the call leaves the same in all of them. -/
theorem run_of_fits_ok {method : Method} (h : outputs.Fits call.window)
    (hverdict : call.ownVerdict = .ok method) :
    call.run outputs =
      ⟨.done (), call.normalEquations.outputs, [call.logRecord method]⟩ := by
  rw [run_of_ok ((verdict_of_fits h).trans hverdict), Outputs.replace_of_fits h]

end Call

namespace Storage

variable {storage : Storage}

/-- The entries that a storage has for an output, whatever its window. -/
def entries (storage : Storage) : Output → Array Int
  | .cross => storage.cross.toArray
  | .auto => storage.auto.toArray

/-- A storage has the entries of the larger window. -/
theorem size_entries (storage : Storage) (output : Output) :
    (storage.entries output).size = output.length .luma := by
  cases output with
  | cross => exact storage.cross.size_toArray
  | auto => exact storage.auto.size_toArray

/-- Storages with one tag and the same entries are the same. -/
theorem ext_entries {left right : Storage} (hwindow : left.window = right.window)
    (hentries : ∀ (output : Output) (position : Nat),
      (left.entries output)[position]? = (right.entries output)[position]?) : left = right := by
  cases left
  cases right
  congr 1
  · exact Vector.toArray_inj.mp (Array.ext_getElem? (hentries .cross))
  · exact Vector.toArray_inj.mp (Array.ext_getElem? (hentries .auto))

/-- A new tag leaves all entries as they are. -/
theorem entries_retag (storage : Storage) (window : Window) (output : Output) :
    (storage.retag window).entries output = storage.entries output := by
  cases output <;> rfl

/-- Outputs written to a storage replace the entries that they have and no others. -/
theorem getElem?_withOutputs (storage : Storage) (outputs : Outputs) (output : Output)
    (position : Nat) :
    ((storage.withOutputs outputs).entries output)[position]? =
      (storage.entries output)[position]?.map fun entry ↦
        (outputs.entries output)[position]?.getD entry := by
  cases output <;>
    simp only [entries, withOutputs, Outputs.entries, Vector.toArray_mapIdx, Array.getElem?_mapIdx,
      Array.getD_eq_getD_getElem?]

/-- A storage lends the first of its entries. -/
theorem entries_outputs (storage : Storage) (output : Output) :
    storage.outputs.entries output =
      (storage.entries output).extract 0 (output.length storage.window) := by
  cases output <;> rfl

/-- The entries that a storage lends are those of its window. -/
theorem getElem?_outputs (storage : Storage) (output : Output) (position : Nat) :
    (storage.outputs.entries output)[position]? =
      if position < output.length storage.window then (storage.entries output)[position]?
      else none := by
  have hlength := output.length_le_luma storage.window
  rw [entries_outputs, Array.getElem?_extract, size_entries, Nat.min_eq_left hlength,
    Nat.sub_zero, Nat.zero_add]

/-- A storage lends as many entries as its window has. -/
theorem fits_outputs (storage : Storage) : storage.outputs.Fits storage.window := by
  intro output
  have hlength := output.length_le_luma storage.window
  rw [entries_outputs, Array.size_extract, size_entries]
  omega

/-- Outputs for a window that are written to a storage become its first entries; the entries after
them stay. -/
theorem getElem?_withOutputs_of_fits {window : Window} {written : Outputs}
    (h : written.Fits window) (storage : Storage) (output : Output) (position : Nat) :
    ((storage.withOutputs written).entries output)[position]? =
      if position < output.length window then (written.entries output)[position]?
      else (storage.entries output)[position]? := by
  have hsize := h output
  have hlength := output.length_le_luma window
  have hroom := storage.size_entries output
  rw [getElem?_withOutputs]
  by_cases hposition : position < output.length window
  · rw [if_pos hposition, Array.getElem?_eq_getElem (by omega),
      Array.getElem?_eq_getElem (by omega)]
    rfl
  · rw [if_neg hposition, Array.getElem?_eq_none (by omega)]
    exact Option.map_id'

/-- A storage lends what was written for its window. -/
theorem outputs_withOutputs {written : Outputs} (h : written.Fits storage.window) :
    (storage.withOutputs written).outputs = written := by
  refine Outputs.ext_entries ?_
  intro output position
  rw [getElem?_outputs, getElem?_withOutputs_of_fits h]
  show (if position < output.length storage.window then _ else _) = _
  by_cases hposition : position < output.length storage.window
  · rw [if_pos hposition, if_pos hposition]
  · rw [if_neg hposition, Array.getElem?_eq_none]
    rw [h output]
    omega

/-- Writing back what a storage lends changes nothing. -/
theorem withOutputs_outputs (storage : Storage) :
    storage.withOutputs storage.outputs = storage := by
  refine ext_entries rfl ?_
  intro output position
  rw [getElem?_withOutputs, getElem?_outputs]
  cases hentry : (storage.entries output)[position]? with
  | none => rfl
  | some entry =>
      split
      · rfl
      · rfl

/-- A refused call leaves the storage as it was, its tag included. -/
theorem compute_of_error {width : SampleWidth} {call : Call width} {cause : StatsError}
    (hverdict : call.ownVerdict = .error cause) :
    storage.compute call = (.refused cause, storage) := by
  have hrun := Call.run_of_fits_error (storage.retag call.window).fits_outputs hverdict
  simp only [compute, hrun, withOutputs_outputs]
  rfl

/-- An accepted call tags the storage with its window and writes its statistics. -/
theorem compute_of_ok {width : SampleWidth} {call : Call width} {method : Method}
    (hverdict : call.ownVerdict = .ok method) :
    storage.compute call =
      (.done (), (storage.retag call.window).withOutputs call.normalEquations.outputs) := by
  have hrun := Call.run_of_fits_ok (storage.retag call.window).fits_outputs hverdict
  simp only [compute, hrun]

end Storage

end WienerRegression
