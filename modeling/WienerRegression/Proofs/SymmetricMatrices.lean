import WienerRegression.Proofs.StorageEntries
import WienerRegression.Proofs.TransposeComparison
import WienerRegression.Storage.Session

/-!
# Symmetric matrices

The matrix of a call equals its transpose, because the product of two deviations does not depend on
their order and both of its positions are rounded alike (`symmetric_normalEquations`). A storage
keeps the tag of its last call that was done, and with it the row length of the matrix that it
holds. So the matrix of a storage is symmetric after any sequence of calls, whatever their windows
and outcomes, as long as nobody else writes or tags (`steps_symmetric`).
-/

namespace WienerRegression

namespace RowMajor

/-- The first entries of an array are a square matrix that equals its transpose. -/
def Symmetric (entries : Array Int) (side : Nat) : Prop :=
  ∀ row column : Fin side, ∃ value, entries[row.val * side + column.val]? = some value ∧
    entries[column.val * side + row.val]? = some value

/-- A symmetric matrix passes the comparison. -/
theorem Symmetric.isSymmetric? {entries : Array Int} {side : Nat} (h : Symmetric entries side) :
    isSymmetric? entries side = some true := by
  refine isSymmetric?_eq_true_iff.mpr fun position ↦ Upper.compare?_eq_true_iff.mpr ?_
  exact h ⟨position.row, Nat.lt_trans position.row_lt_column position.column_lt_side⟩
    ⟨position.column, position.column_lt_side⟩

/-- Whether a matrix is symmetric is told by its own entries. -/
theorem Symmetric.congr {left right : Array Int} {side : Nat} (h : Symmetric left side)
    (hequal : ∀ position < side * side, left[position]? = right[position]?) :
    Symmetric right side := by
  intro row column
  obtain ⟨value, hupper, hlower⟩ := h row column
  exact ⟨value, (hequal _ (index row column).isLt).symm.trans hupper,
    (hequal _ (index column row).isLt).symm.trans hlower⟩

end RowMajor

namespace Call

variable {width : SampleWidth}

/-- The coefficients of the normal equations are a symmetric matrix. -/
theorem symmetric_normalEquations (call : Call width) :
    RowMajor.Symmetric call.normalEquations.auto.toArray call.window.taps := by
  intro first second
  have hentry : ∀ entry : Fin (call.window.taps * call.window.taps),
      call.normalEquations.auto.toArray[entry.val]? =
        some (call.normalEquations.auto.get entry) := by
    intro entry
    exact Array.getElem?_eq_getElem (by simp)
  refine ⟨_, hentry (RowMajor.index first second), ?_⟩
  refine (hentry (RowMajor.index second first)).trans (congrArg some ?_)
  rw [get_auto_normalEquations, get_auto_normalEquations]
  simp only [mul_comm]

end Call

namespace Storage

variable {storage : Storage}

/-- The matrix of the storage equals its transpose. -/
def Symmetric (storage : Storage) : Prop :=
  RowMajor.Symmetric (storage.entries .auto) storage.window.taps

/-- The entry for two taps is found by the row length of the window. -/
theorem autoAt?_eq (storage : Storage) (first second : Nat) :
    storage.autoAt? first second =
      (storage.entries .auto)[first * storage.window.taps + second]? :=
  Vector.getElem?_toArray.symm

/-- A fresh storage holds a matrix of zeros. -/
theorem symmetric_ofWindow (window : Window) : (ofWindow window).Symmetric := by
  have hzero : ∀ position < window.taps * window.taps,
      ((ofWindow window).entries .auto)[position]? = some 0 := by
    intro position hposition
    have hroom : position < Window.luma.tapPairs :=
      Nat.lt_of_lt_of_le hposition (Output.auto.length_le_luma window)
    show (Array.replicate Window.luma.tapPairs (0 : Int))[position]? = some 0
    rw [Array.getElem?_replicate, if_pos hroom]
  intro first second
  exact ⟨0, hzero _ (RowMajor.index first second).isLt,
    hzero _ (RowMajor.index second first).isLt⟩

/-- A call leaves a symmetric matrix: its own if it is done, and the one before if it is refused. -/
theorem Symmetric.compute {width : SampleWidth} (h : storage.Symmetric) (call : Call width) :
    (storage.compute call).2.Symmetric := by
  cases hverdict : call.ownVerdict with
  | error cause =>
      rw [compute_of_error hverdict]
      exact h
  | ok method =>
      rw [compute_of_ok hverdict]
      refine call.symmetric_normalEquations.congr ?_
      intro position hposition
      have hlength : position < Output.auto.length call.window := hposition
      rw [getElem?_withOutputs_of_fits call.normalEquations.fits_outputs, if_pos hlength]
      rfl

/-- The comparison of the matrix with its transpose succeeds, and the entry for any two taps of the
window is there and does not depend on their order. -/
structure PassesSymmetry (storage : Storage) : Prop where
  isSymmetric : storage.isSymmetric? = some true
  autoAt_comm : ∀ first second : Fin storage.window.taps, ∃ value,
    storage.autoAt? first second = some value ∧ storage.autoAt? second first = some value

/-- A symmetric matrix is seen as one. -/
theorem Symmetric.passes (h : storage.Symmetric) : storage.PassesSymmetry where
  isSymmetric := by
    refine RowMajor.Symmetric.isSymmetric? (h.congr ?_)
    intro position hposition
    have hlength : position < Output.auto.length storage.window := hposition
    exact ((storage.getElem?_outputs .auto position).trans (if_pos hlength)).symm
  autoAt_comm := by
    intro first second
    obtain ⟨value, hupper, hlower⟩ := h first second
    exact ⟨value, (storage.autoAt?_eq first second).trans hupper,
      (storage.autoAt?_eq second first).trans hlower⟩

/-- The step answers a call, saves a copy or restores it. It neither tags the storage nor writes to
it in any other way. -/
def Step.AnswersOrCopies : Step → Prop
  | .compute _ _ | .save | .restore => True
  | .prepare _ | .write _ _ _ => False

/-- Both storages of a session hold symmetric matrices. -/
structure Session.Symmetric (session : Session) : Prop where
  current : session.current.Symmetric
  saved : session.saved.Symmetric

/-- Calls and copies keep the matrices symmetric. -/
theorem Session.Symmetric.step {session : Session} (h : session.Symmetric) {step : Step}
    (hstep : step.AnswersOrCopies) : (session.step step).2.Symmetric := by
  cases step with
  | prepare window => exact hstep.elim
  | write window cross auto => exact hstep.elim
  | compute width call => exact ⟨h.current.compute call, h.saved⟩
  | save => exact ⟨h.current, h.current⟩
  | restore => exact ⟨h.saved, h.saved⟩

/-- Hence they keep them symmetric in any number. -/
theorem Session.Symmetric.steps {session : Session} (h : session.Symmetric) {list : List Step}
    (hlist : ∀ step ∈ list, step.AnswersOrCopies) : (session.steps list).Symmetric := by
  induction list generalizing session with
  | nil => exact h
  | cons step rest ih =>
      obtain ⟨hstep, hrest⟩ := List.forall_mem_cons.mp hlist
      exact ih (h.step hstep) hrest

/-- The matrix of a storage that was fresh is symmetric after any sequence of calls, accepted or
refused, for whichever windows, and of copies saved and restored between them. -/
theorem steps_symmetric (window : Window) {list : List Step}
    (hlist : ∀ step ∈ list, step.AnswersOrCopies) :
    ((Session.ofWindow window).steps list).current.PassesSymmetry := by
  have hfresh : (Session.ofWindow window).Symmetric :=
    ⟨symmetric_ofWindow window, symmetric_ofWindow window⟩
  exact (hfresh.steps hlist).current.passes

/-- A call for the larger window around one pixel of the content of `sparseChroma`. -/
def lumaPixel : Call .word :=
  { Call.sparseChroma with
    window := .luma
    rect := ⟨2, 3, 1, 2, Nat.lt_succ_self _, Nat.lt_succ_self _⟩ }

/-- The call `sparseChroma` for the larger window, whose halo begins before the first sample. -/
def lumaBeforeStart : Call .word :=
  { Call.sparseChroma with window := .luma }

/-- A session that turns from the larger window to the smaller one, before and after it goes back to
a copy, with a refused call between. -/
def mixedSteps : List Step :=
  [.compute .word lumaPixel, .save, .compute .word lumaBeforeStart,
    .compute .word Call.sparseChroma, .restore, .compute .word Call.sparseChroma]

/-- The matrix that the session `mixedSteps` ends with is symmetric. -/
theorem steps_symmetric_mixedSteps :
    lumaPixel.ownVerdict = .ok .reference ∧
    lumaBeforeStart.ownVerdict = .error (.haloOutside none 70 63) ∧
    Call.sparseChroma.ownVerdict = .ok .reference ∧
    (∀ step ∈ mixedSteps, step.AnswersOrCopies) ∧
    ((Session.ofWindow .luma).steps mixedSteps).current.PassesSymmetry := by
  have hlist : ∀ step ∈ mixedSteps, step.AnswersOrCopies := by
    simp [mixedSteps, Step.AnswersOrCopies]
  exact ⟨by decide, by decide, by decide, hlist, steps_symmetric .luma hlist⟩

end Storage

end WienerRegression
