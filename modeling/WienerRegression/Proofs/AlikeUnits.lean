import WienerRegression.Proofs.Runs

/-!
# Units that look alike

The rows and columns of a unit can be counted from its own first pixel. Counted so, a scan visits
the same rows of all units of one height (`RowScan.toList_ofRect`), and the average and the weighted
sums of a unit depend on its size and on the samples at its pixels, not on where it lies or on how
its buffers are laid out (`UnitsAlike.mean_eq`, `UnitsAlike.weightedSum_eq`). So two calls on units
that look alike have the same coefficients for taps that see the same samples
(`UnitsAlike.get_cross_eq`, `UnitsAlike.get_auto_eq`). The samples may be stored in different
formats, and the taps may belong to different windows.
-/

namespace WienerRegression

namespace RowScan

/-- The scan of rows that lie further down. -/
def moveDown (scan : RowScan) (rows : Nat) : RowScan :=
  { scan with next := rows + scan.next, stop := rows + scan.stop }

/-- A scan that is moved down visits the rows that lie as much further down, with equal weights. -/
theorem toList_moveDown (scan : RowScan) (rows : Nat) :
    (scan.moveDown rows).toList = scan.toList.map fun visit ↦ (rows + visit.1, visit.2) := by
  have hstep := scan.step_pos
  by_cases h : scan.next < scan.stop
  · have hmoved : (scan.moveDown rows).next < (scan.moveDown rows).stop := by
      simpa [moveDown] using h
    have hrest := toList_moveDown { scan with next := scan.next + scan.step } rows
    rw [toList_of_lt h, toList_of_lt hmoved, List.map_cons, ← hrest]
    simp [moveDown, Nat.add_assoc, Nat.add_sub_add_left]
  · have hmoved : (scan.moveDown rows).stop ≤ (scan.moveDown rows).next := by
      simpa [moveDown] using h
    rw [toList_of_le (Nat.not_lt.mp h), toList_of_le hmoved, List.map_nil]
termination_by scan.stop - scan.next

/-- The scan of a unit visits the rows that a scan of its height visits, below its top. -/
theorem toList_ofRect (rect : Rect) (sparse : Bool) :
    (ofRect rect sparse).toList =
      (ofRows 0 rect.height sparse).toList.map fun visit ↦ (rect.top + visit.1, visit.2) := by
  have hbottom : rect.top + rect.height = rect.bottom := by
    have := rect.top_lt_bottom
    unfold Rect.height
    omega
  rw [← toList_moveDown]
  cases sparse <;> simp [ofRect, ofRows, moveDown, hbottom]

end RowScan

namespace Window

/-- The tap in a row and a column of a window. -/
def tapOf (window : Window) {r c : Nat} (hr : r < window.side) (hc : c < window.side) :
    Fin window.taps :=
  ⟨window.tapIndex r c, window.tapIndex_lt hr hc⟩

/-- The tap in a row and a column lies in that row. -/
@[simp] theorem tapRow_tapOf (window : Window) {r c : Nat} (hr : r < window.side)
    (hc : c < window.side) : window.tapRow (window.tapOf hr hc) = r :=
  window.tapRow_tapIndex hr hc

/-- The tap in a row and a column lies in that column. -/
@[simp] theorem tapColumn_tapOf (window : Window) {r c : Nat} (hr : r < window.side)
    (hc : c < window.side) : window.tapColumn (window.tapOf hr hc) = c :=
  window.tapColumn_tapIndex hr hc

end Window

/-- The sum of the samples of a unit, taken over its own rows and columns. -/
theorem Patch.unitSum_eq_sum_range {width : SampleWidth} (patch : Patch width) (rect : Rect) :
    patch.unitSum rect =
      ∑ row ∈ Finset.range rect.height, ∑ column ∈ Finset.range rect.width,
        (patch.sampleAt (rect.left + column : Nat) (rect.top + row : Nat)).val := by
  unfold unitSum
  simp only [Finset.sum_Ico_eq_sum_range]
  rfl

namespace Call

variable {leftWidth rightWidth : SampleWidth} {left : Call leftWidth} {right : Call rightWidth}

/-- The scan of the unit visits the row that lies so many rows below its top. -/
def Scans {width : SampleWidth} (call : Call width) (row : Nat) : Prop :=
  ∃ weight, (call.rect.top + row, weight) ∈
    (RowScan.ofRect call.rect call.options.sparse).toList

/-- A scanned row is a row of the unit. -/
theorem Scans.lt_height {width : SampleWidth} {call : Call width} {row : Nat}
    (h : call.Scans row) : row < call.rect.height := by
  obtain ⟨weight, hvisit⟩ := h
  have hbottom := (RowScan.row_mem_ofRect hvisit).2
  unfold Rect.height
  dsimp only at hbottom
  omega

/-- A weighted sum over the scanned rows of a unit, taken over its own rows and columns. -/
theorem weightedSum_eq_sum_range {width : SampleWidth} (call : Call width)
    (quantity : Nat → Nat → Int) :
    call.weightedSum quantity =
      ((RowScan.ofRows 0 call.rect.height call.options.sparse).toList.map fun visit ↦
        ∑ column ∈ Finset.range call.rect.width,
          (visit.2 : Int) * quantity (call.rect.left + column) (call.rect.top + visit.1)).sum := by
  unfold weightedSum
  rw [RowScan.toList_ofRect, List.map_map]
  simp only [Function.comp_def, Finset.sum_Ico_eq_sum_range]
  rfl

/-- Two units look alike: they have one size and are scanned in the same way at one bit depth, and
at each pixel, counted from the first one of its unit, the degraded samples have the same value, and
in scanned rows the source samples too. -/
structure UnitsAlike (left : Call leftWidth) (right : Call rightWidth) : Prop where
  width_eq : left.rect.width = right.rect.width
  height_eq : left.rect.height = right.rect.height
  sparse_eq : left.options.sparse = right.options.sparse
  depth_eq : left.depth = right.depth
  degraded_eq : ∀ row < left.rect.height, ∀ column < left.rect.width,
    (left.degraded.sampleAt (left.rect.left + column : Nat) (left.rect.top + row : Nat)).val =
      (right.degraded.sampleAt (right.rect.left + column : Nat) (right.rect.top + row : Nat)).val
  source_eq : ∀ row, left.Scans row → ∀ column < left.rect.width,
    (left.source.sampleAt (left.rect.left + column : Nat) (left.rect.top + row : Nat)).val =
      (right.source.sampleAt (right.rect.left + column : Nat) (right.rect.top + row : Nat)).val

/-- At every pixel of the scanned rows, the tap at one position of the window of the one call sees a
sample with the same value as the tap at another position of the window of the other call. -/
def TapsAlike (left : Call leftWidth) (right : Call rightWidth)
    (r c otherRow otherColumn : Nat) : Prop :=
  ∀ row, left.Scans row → ∀ column < left.rect.width,
    (left.tapAt r c (left.rect.left + column) (left.rect.top + row)).val =
      (right.tapAt otherRow otherColumn (right.rect.left + column) (right.rect.top + row)).val

/-- Taps see the same samples if their positions do. -/
theorem TapsAlike.tapOf {r c otherRow otherColumn : Nat}
    (h : left.TapsAlike right r c otherRow otherColumn) (hr : r < left.window.side)
    (hc : c < left.window.side) (hrow : otherRow < right.window.side)
    (hcolumn : otherColumn < right.window.side) :
    left.TapsAlike right (left.window.tapRow (left.window.tapOf hr hc))
      (left.window.tapColumn (left.window.tapOf hr hc))
      (right.window.tapRow (right.window.tapOf hrow hcolumn))
      (right.window.tapColumn (right.window.tapOf hrow hcolumn)) := by
  simpa using h

namespace UnitsAlike

/-- Units that look alike have one average. -/
theorem mean_eq (h : left.UnitsAlike right) :
    left.degraded.mean left.rect = right.degraded.mean right.rect := by
  have hsum : left.degraded.unitSum left.rect = right.degraded.unitSum right.rect := by
    rw [Patch.unitSum_eq_sum_range, Patch.unitSum_eq_sum_range, ← h.height_eq, ← h.width_eq]
    refine Finset.sum_congr rfl fun row hrow ↦ Finset.sum_congr rfl fun column hcolumn ↦ ?_
    exact h.degraded_eq row (Finset.mem_range.mp hrow) column (Finset.mem_range.mp hcolumn)
  unfold Patch.mean Rect.area
  rw [hsum, h.width_eq, h.height_eq]

/-- Quantities that agree at the pixels of the scanned rows of units that look alike have one
weighted sum. -/
theorem weightedSum_eq (h : left.UnitsAlike right) {quantity other : Nat → Nat → Int}
    (hquantity : ∀ row, left.Scans row → ∀ column < left.rect.width,
      quantity (left.rect.left + column) (left.rect.top + row) =
        other (right.rect.left + column) (right.rect.top + row)) :
    left.weightedSum quantity = right.weightedSum other := by
  rw [weightedSum_eq_sum_range, weightedSum_eq_sum_range, ← h.height_eq, ← h.width_eq,
    ← h.sparse_eq]
  refine congrArg List.sum (List.map_congr_left fun visit hvisit ↦ ?_)
  have hscans : left.Scans visit.1 := by
    refine ⟨visit.2, ?_⟩
    rw [RowScan.toList_ofRect]
    exact List.mem_map.mpr ⟨visit, hvisit, rfl⟩
  refine Finset.sum_congr rfl fun column hcolumn ↦ ?_
  rw [hquantity visit.1 hscans column (Finset.mem_range.mp hcolumn)]

/-- Two taps have one coefficient if they see the same samples of units that look alike. -/
theorem get_cross_eq (h : left.UnitsAlike right) {tap : Fin left.window.taps}
    {other : Fin right.window.taps}
    (htaps : left.TapsAlike right (left.window.tapRow tap) (left.window.tapColumn tap)
      (right.window.tapRow other) (right.window.tapColumn other)) :
    left.normalEquations.cross.get tap = right.normalEquations.cross.get other := by
  have hsum : left.weightedSum (fun x y ↦ left.tapDeviation tap x y * left.sourceDeviation x y) =
      right.weightedSum fun x y ↦ right.tapDeviation other x y * right.sourceDeviation x y := by
    refine h.weightedSum_eq ?_
    intro row hrow column hcolumn
    unfold tapDeviation sourceDeviation
    rw [htaps row hrow column hcolumn, h.source_eq row hrow column hcolumn, h.mean_eq]
  rw [normalEquations, normalEquations, Entries.get_ofFn, Entries.get_ofFn, hsum, h.depth_eq]

/-- Two pairs of taps have one coefficient if the taps of the pairs see the same samples of units
that look alike. -/
theorem get_auto_eq (h : left.UnitsAlike right) {first second : Fin left.window.taps}
    {otherFirst otherSecond : Fin right.window.taps}
    (hfirst : left.TapsAlike right (left.window.tapRow first) (left.window.tapColumn first)
      (right.window.tapRow otherFirst) (right.window.tapColumn otherFirst))
    (hsecond : left.TapsAlike right (left.window.tapRow second) (left.window.tapColumn second)
      (right.window.tapRow otherSecond) (right.window.tapColumn otherSecond)) :
    left.normalEquations.auto.get (RowMajor.index first second) =
      right.normalEquations.auto.get (RowMajor.index otherFirst otherSecond) := by
  have hsum : left.weightedSum
      (fun x y ↦ left.tapDeviation first x y * left.tapDeviation second x y) =
      right.weightedSum fun x y ↦
        right.tapDeviation otherFirst x y * right.tapDeviation otherSecond x y := by
    refine h.weightedSum_eq ?_
    intro row hrow column hcolumn
    unfold tapDeviation
    rw [hfirst row hrow column hcolumn, hsecond row hrow column hcolumn, h.mean_eq]
  rw [get_auto_normalEquations, get_auto_normalEquations, hsum, h.depth_eq]

end UnitsAlike

end Call

end WienerRegression
