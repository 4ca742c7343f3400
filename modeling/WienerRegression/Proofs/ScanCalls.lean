import Mathlib.Order.Iterate
import WienerRegression.Proofs.ScannedRows

/-!
# Scans call by call

A scan is used up by calls of `next?`. After any number of calls, the visits still to come are the
ones that further calls give, and they cut the rows that are left into groups of whole steps with at
most one shorter group at the end (`calls_cut_rows`). The last step of a sparse scan may lead past
the end of its rows, so the weight of a visit and the number of visits to come are computed from the
rows that are left, not from the steps.
-/

namespace WienerRegression.RowScan

/-! ## Calls -/

/-- The scan after one call of `next?`. A scan at its end stays as it is. -/
def afterCall (scan : RowScan) : RowScan :=
  (scan.next?.map Prod.snd).getD scan

/-- The scan after any number of calls of `next?`. -/
def afterCalls (scan : RowScan) (calls : Nat) : RowScan :=
  afterCall^[calls] scan

/-- A scan before its end gives its next row and steps over the rows of the visit. -/
theorem next?_of_lt {scan : RowScan} (h : scan.next < scan.stop) :
    scan.next? = some ((scan.next, min scan.step (scan.stop - scan.next)),
      { scan with next := scan.next + scan.step }) :=
  if_pos h

/-- A scan at its end gives no row. -/
theorem next?_of_le {scan : RowScan} (h : scan.stop ≤ scan.next) : scan.next? = none :=
  if_neg (Nat.not_lt.mpr h)

/-- A call before the end moves the scan one step on. -/
theorem afterCall_of_lt {scan : RowScan} (h : scan.next < scan.stop) :
    scan.afterCall = { scan with next := scan.next + scan.step } := by
  rw [afterCall, next?_of_lt h]
  rfl

/-- A call at the end changes nothing. -/
theorem afterCall_of_le {scan : RowScan} (h : scan.stop ≤ scan.next) : scan.afterCall = scan := by
  rw [afterCall, next?_of_le h]
  rfl

/-- One more call is a call on the scan after the calls before it. -/
theorem afterCalls_succ (scan : RowScan) (calls : Nat) :
    scan.afterCalls (calls + 1) = (scan.afterCalls calls).afterCall :=
  Function.iterate_succ_apply' afterCall calls scan

/-- No call moves the end of a scan, changes its step or leads back. -/
theorem afterCalls_keeps (scan : RowScan) (calls : Nat) :
    (scan.afterCalls calls).stop = scan.stop ∧ (scan.afterCalls calls).step = scan.step ∧
      scan.next ≤ (scan.afterCalls calls).next := by
  induction calls with
  | zero => exact ⟨rfl, rfl, Nat.le_refl _⟩
  | succ calls ih =>
      obtain ⟨hstop, hstep, hnext⟩ := ih
      rw [afterCalls_succ]
      by_cases h : (scan.afterCalls calls).next < (scan.afterCalls calls).stop
      · rw [afterCall_of_lt h]
        exact ⟨hstop, hstep, Nat.le_trans hnext (Nat.le_add_right _ _)⟩
      · rw [afterCall_of_le (Nat.not_lt.mp h)]
        exact ⟨hstop, hstep, hnext⟩

/-- A scan at its end gives no row, however often it is called. -/
theorem next?_afterCalls_of_none {scan : RowScan} (h : scan.next? = none) (calls : Nat) :
    (scan.afterCalls calls).next? = none := by
  have hfixed : scan.afterCall = scan := by
    rw [afterCall, h]
    rfl
  rw [afterCalls, Function.iterate_fixed hfixed]
  exact h

/-! ## The visits to come -/

/-- A call gives the first of the visits to come. -/
theorem next?_eq_head? (scan : RowScan) : scan.next?.map Prod.fst = scan.toList.head? := by
  by_cases h : scan.next < scan.stop
  · rw [next?_of_lt h, toList_of_lt h]
    rfl
  · rw [next?_of_le (Nat.not_lt.mp h), toList_of_le (Nat.not_lt.mp h)]
    rfl

/-- A call leaves the visits after the first one. -/
theorem toList_afterCall (scan : RowScan) : scan.afterCall.toList = scan.toList.tail := by
  by_cases h : scan.next < scan.stop
  · rw [afterCall_of_lt h, toList_of_lt h]
    rfl
  · rw [afterCall_of_le (Nat.not_lt.mp h), toList_of_le (Nat.not_lt.mp h)]
    rfl

/-- Calls leave the visits that they have not given. -/
theorem toList_afterCalls (scan : RowScan) (calls : Nat) :
    (scan.afterCalls calls).toList = scan.toList.drop calls := by
  induction calls with
  | zero => rfl
  | succ calls ih => rw [afterCalls_succ, toList_afterCall, ih, List.tail_drop]

/-- A call after others gives the visit whose turn it is, or nothing if there is none. -/
theorem next?_afterCalls (scan : RowScan) (calls : Nat) :
    (scan.afterCalls calls).next?.map Prod.fst = scan.toList[calls]? := by
  rw [next?_eq_head?, toList_afterCalls, List.head?_drop]

/-- The number of visits to come is computed without making them. -/
theorem remaining_eq_length (scan : RowScan) : scan.remaining = scan.toList.length := by
  have hstep := scan.step_pos
  by_cases h : scan.next < scan.stop
  · rw [remaining_of_lt h, toList_of_lt h, List.length_cons,
      remaining_eq_length { scan with next := scan.next + scan.step }]
  · rw [toList_of_le (Nat.not_lt.mp h)]
    exact Nat.div_eq_of_lt (by omega)
termination_by scan.stop - scan.next

/-- A call that gives a visit leaves one visit less to come. -/
theorem remaining_of_next? {scan rest : RowScan} {visit : Nat × Nat}
    (h : scan.next? = some (visit, rest)) : rest.remaining + 1 = scan.remaining := by
  by_cases hlt : scan.next < scan.stop
  · rw [next?_of_lt hlt] at h
    cases h
    exact (remaining_of_lt hlt).symm
  · rw [next?_of_le (Nat.not_lt.mp hlt)] at h
    cases h

/-! ## The rows that are left -/

/-- How many of some visits stand for a row. -/
def timesRepresented (visits : List (Nat × Nat)) (row : Nat) : Nat :=
  visits.countP fun visit ↦ visit.1 ≤ row ∧ row < visit.1 + visit.2

/-- Exactly one visit stands for each row from `start` up to `stop`, and none for any other row. -/
theorem Tiles.timesRepresented_eq {visits : List (Nat × Nat)} {start stop : Nat}
    (h : Tiles visits start stop) (row : Nat) :
    timesRepresented visits row = if start ≤ row ∧ row < stop then 1 else 0 := by
  induction visits generalizing start with
  | nil =>
      have hend : stop ≤ start := h
      rw [if_neg (by omega)]
      rfl
  | cons head rest ih =>
      obtain ⟨rfl, hweight, hle, hrest⟩ := h
      have hcount := ih hrest
      unfold timesRepresented at hcount ⊢
      rw [List.countP_cons, hcount]
      simp only [decide_eq_true_eq]
      split_ifs <;> omega

/-- Every visit but the last stands for all rows that the scan steps over. -/
theorem weight_eq_step (scan : RowScan) {visit : Nat × Nat}
    (hvisit : visit ∈ scan.toList.dropLast) : visit.2 = scan.step := by
  have hstep := scan.step_pos
  by_cases h : scan.next < scan.stop
  · by_cases hlast : scan.next + scan.step < scan.stop
    · have hrest : { scan with next := scan.next + scan.step }.toList ≠ [] := by
        rw [toList_of_lt hlast]
        exact List.cons_ne_nil _ _
      rw [toList_of_lt h, List.dropLast_cons_of_ne_nil hrest] at hvisit
      rcases List.mem_cons.mp hvisit with rfl | hvisit
      · exact Nat.min_eq_left (by omega)
      · exact weight_eq_step { scan with next := scan.next + scan.step } hvisit
    -- the scan is at its end after this visit
    · rw [toList_of_lt h, toList_of_le (Nat.not_lt.mp hlast)] at hvisit
      cases hvisit
  · rw [toList_of_le (Nat.not_lt.mp h)] at hvisit
    cases hvisit
termination_by scan.stop - scan.next

/-- Visits cut the rows from `start` up to `stop` into consecutive groups without gap or overlap.
Each group has as many rows as the weight of its visit says. That is at least one row and at most
`step` of them, and only the last group may have fewer than `step`. -/
structure Cuts (visits : List (Nat × Nat)) (start stop step : Nat) : Prop where
  consecutive : Tiles visits start stop
  group_within : ∀ visit ∈ visits, start ≤ visit.1 ∧ visit.1 + visit.2 ≤ stop
  represented_once : ∀ row,
    timesRepresented visits row = if start ≤ row ∧ row < stop then 1 else 0
  sum_weights : (visits.map Prod.snd).sum = stop - start
  weight_within : ∀ visit ∈ visits, 1 ≤ visit.2 ∧ visit.2 ≤ step
  weight_full : ∀ visit ∈ visits.dropLast, visit.2 = step

/-- The visits to come cut the rows that are left. -/
theorem cuts_toList (scan : RowScan) : Cuts scan.toList scan.next scan.stop scan.step := by
  have htiles := scan.tiles_toList
  constructor
  case consecutive => exact htiles
  case group_within =>
    exact fun visit hvisit ↦ ⟨(htiles.row_mem hvisit).1, htiles.group_le hvisit⟩
  case represented_once => exact htiles.timesRepresented_eq
  case sum_weights => exact htiles.sum_weights
  case weight_within =>
    exact fun visit hvisit ↦ ⟨htiles.weight_pos hvisit, scan.weight_le_step hvisit⟩
  case weight_full => exact fun visit hvisit ↦ scan.weight_eq_step hvisit

/-- The visits that calls have given stand for the rows before the ones that are left. -/
theorem timesRepresented_take (scan : RowScan) (calls row : Nat) :
    timesRepresented (scan.toList.take calls) row =
      if scan.next ≤ row ∧ row < min (scan.afterCalls calls).next scan.stop then 1 else 0 := by
  obtain ⟨hstop, -, hnext⟩ := scan.afterCalls_keeps calls
  have hall := scan.tiles_toList.timesRepresented_eq row
  have hleft := (scan.afterCalls calls).tiles_toList.timesRepresented_eq row
  rw [toList_afterCalls, hstop] at hleft
  unfold timesRepresented at hall hleft ⊢
  rw [← List.take_append_drop calls scan.toList, List.countP_append, hleft] at hall
  split_ifs at hall ⊢ <;> omega

/-- After any number of calls, a scan of the rows from `start` up to `stop` gives the visits of a
list one by one, and nothing from then on. The list is what the calls have left of the visits of
all rows. It cuts the rows that are left, and the visits given before stand for all other rows, each
row once. The number of visits to come is known, and a call that gives a visit lowers it by one. -/
theorem calls_cut_rows (start stop : Nat) (sparse : Bool) (calls : Nat) :
    ∃ scan, (ofRows start stop sparse).afterCalls calls = scan ∧
      scan.toList = (ofRows start stop sparse).toList.drop calls ∧
      (∀ further, (scan.afterCalls further).next?.map Prod.fst = scan.toList[further]?) ∧
      Cuts scan.toList scan.next stop (if sparse then sparseStep else 1) ∧
      (∀ row, timesRepresented ((ofRows start stop sparse).toList.take calls) row =
        if start ≤ row ∧ row < min scan.next stop then 1 else 0) ∧
      (stop ≤ start → scan.toList = []) ∧
      scan.remaining = scan.toList.length ∧
      scan.sizeBounds = (scan.toList.length, some scan.toList.length) ∧
      (∀ visit rest, scan.next? = some (visit, rest) → rest.remaining + 1 = scan.remaining) ∧
      (scan.next? = none → ∀ further, (scan.afterCalls further).next? = none) := by
  have hnext : (ofRows start stop sparse).next = start := by cases sparse <;> rfl
  have hstop : (ofRows start stop sparse).stop = stop := by cases sparse <;> rfl
  have hstep : (ofRows start stop sparse).step = if sparse then sparseStep else 1 := by
    cases sparse <;> rfl
  obtain ⟨hkeptStop, hkeptStep, -⟩ := (ofRows start stop sparse).afterCalls_keeps calls
  have hremaining := ((ofRows start stop sparse).afterCalls calls).remaining_eq_length
  refine ⟨_, rfl, toList_afterCalls _ calls, next?_afterCalls _, ?_, ?_, ?_, hremaining, ?_,
    fun _ _ ↦ remaining_of_next?, next?_afterCalls_of_none⟩
  · have hcuts := ((ofRows start stop sparse).afterCalls calls).cuts_toList
    rwa [hkeptStop, hkeptStep, hstop, hstep] at hcuts
  · intro row
    have hgiven := (ofRows start stop sparse).timesRepresented_take calls row
    rwa [hnext, hstop] at hgiven
  · intro hempty
    rw [toList_afterCalls, toList_of_le (by omega), List.drop_nil]
  · rw [sizeBounds, hremaining]

end WienerRegression.RowScan
