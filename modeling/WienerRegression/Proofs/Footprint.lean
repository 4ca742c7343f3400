import Mathlib.Algebra.BigOperators.Intervals
import Mathlib.Algebra.BigOperators.Ring.Finset
import Mathlib.Algebra.Order.BigOperators.Group.Finset
import Mathlib.Tactic.Ring
import WienerRegression.Observation
import WienerRegression.Proofs.Acceptance
import WienerRegression.Proofs.PatchViews
import WienerRegression.Proofs.ScannedRows

/-!
# The samples that a call reads

An admissible call reads every sample inside its buffers. The verdict compares two indices of the
degraded buffer and one of the source buffer with their bounds, and these corners dominate all
reads, whatever the strides (`Admissible.getElem?_tapAt`, `Patch.row?_eq`). Hence all observations
of an admissible call are there, and each holds the samples that the coordinates of its pixel say
(`Admissible.rows?_eq`), and so is the average of its unit (`Patch.average?_eq`).
-/

namespace WienerRegression

/-- A list of reads succeeds if each of its reads does. -/
theorem mapM_eq_some_map {α β : Type} {read : α → Option β} {value : α → β} {l : List α}
    (h : ∀ a ∈ l, read a = some (value a)) : l.mapM read = some (l.map value) := by
  induction l with
  | nil => rfl
  | cons head rest ih =>
      rw [List.mapM_cons, h head (by simp), ih fun a ha ↦ h a (by simp [ha])]
      rfl

namespace Rect

/-- Every column of a rectangle is a number of columns right of its left one. -/
theorem exists_column {rect : Rect} {x : Nat} (hleft : rect.left ≤ x) (hright : x < rect.right) :
    ∃ column < rect.width, rect.left + column = x := by
  refine ⟨x - rect.left, ?_, Nat.add_sub_cancel' hleft⟩
  exact Nat.sub_lt_sub_right hleft hright

/-- A column counted from the left one of a rectangle lies in the rectangle. -/
theorem left_add_lt {rect : Rect} {column : Nat} (h : column < rect.width) :
    rect.left + column < rect.right := by
  unfold width at h
  omega

/-- A row counted from the top one of a rectangle lies in the rectangle. -/
theorem top_add_lt {rect : Rect} {row : Nat} (h : row < rect.height) :
    rect.top + row < rect.bottom := by
  unfold height at h
  omega

/-- A value that every pixel of a rectangle contributes is counted once for each pixel. -/
theorem sum_const {R : Type} [CommSemiring R] (rect : Rect) (value : R) :
    ∑ _y ∈ Finset.Ico rect.top rect.bottom, ∑ _x ∈ Finset.Ico rect.left rect.right, value =
      rect.area * value := by
  simp only [Finset.sum_const, Nat.card_Ico, nsmul_eq_mul, area, width, height]
  push_cast
  ring

end Rect

namespace Patch

variable {width : SampleWidth}

/-- The buffer index of a pixel whose coordinates may be negative. The halo of a unit reaches
before the pixels of the unit, so a tap can have negative coordinates. -/
def signedIndex (patch : Patch width) (x y : Int) : Int :=
  patch.origin + y * patch.stride + x

/-- The sample at a pixel whose coordinates may be negative, black where the buffer has none. -/
def sampleAt (patch : Patch width) (x y : Int) : Sample width :=
  match patch.signedIndex x y with
  | .ofNat index => patch.buffer.getD index (.zero width)
  | .negSucc _ => .zero width

/-- At coordinates that are not negative, both indices agree. -/
theorem signedIndex_natCast (patch : Patch width) (x y : Nat) :
    patch.signedIndex x y = (patch.index x y : Nat) := by
  simp [signedIndex, index]

/-- The sample at a pixel is the one that its index selects. -/
theorem getElem?_eq_sampleAt {patch : Patch width} {x y : Int} {index : Nat}
    (hindex : patch.signedIndex x y = index) (hlt : index < patch.buffer.size) :
    patch.buffer[index]? = some (patch.sampleAt x y) := by
  unfold sampleAt
  rw [hindex]
  simp [hlt]

/-- The sample at a pixel of the buffer is the one at its index. -/
theorem getElem?_index {patch : Patch width} {x y : Nat} (h : patch.index x y < patch.buffer.size) :
    patch.buffer[patch.index x y]? = some (patch.sampleAt x y) :=
  getElem?_eq_sampleAt (patch.signedIndex_natCast x y) h

/-- A pixel further right or further down never has a smaller index. -/
theorem index_le_index (patch : Patch width) {x y right bottom : Nat} (hx : x ≤ right)
    (hy : y ≤ bottom) : patch.index x y ≤ patch.index right bottom := by
  have := Nat.mul_le_mul_right patch.stride hy
  unfold index
  omega

/-- A row that ends within the buffer is read, and its samples are those of its pixels. -/
theorem row?_eq {patch : Patch width} {x y length : Nat}
    (h : patch.index x y + length ≤ patch.buffer.size) :
    patch.row? x y length =
      some ((List.range' x length).map fun column : Nat ↦ patch.sampleAt column y).toArray := by
  obtain ⟨samples, hread⟩ := exists_row?_iff.mpr h
  obtain ⟨hsize, hsamples⟩ := samples_of_row? hread
  rw [hread]
  refine congrArg some (Array.ext_getElem? fun column ↦ ?_)
  by_cases hcolumn : column < length
  · have hinside : patch.index (x + column) y < patch.buffer.size := by
      rw [index_add]
      omega
    rw [hsamples column hcolumn, get?, getElem?_index hinside]
    simp [hcolumn]
  · rw [Array.getElem?_eq_none (by omega), Array.getElem?_eq_none (by simpa using hcolumn)]

/-- Every row of a unit whose last pixel is in the buffer ends within the buffer. -/
theorem row_le_size {patch : Patch width} {rect : Rect}
    (h : patch.lastIndex rect < patch.buffer.size) {y : Nat} (hy : y < rect.bottom) :
    patch.index rect.left y + rect.width ≤ patch.buffer.size := by
  have hlast := patch.index_le_index (Nat.le_refl (rect.right - 1)) (Nat.le_sub_one_of_lt hy)
  have hleft := rect.left_lt_right
  unfold lastIndex at h
  unfold index at hlast h ⊢
  unfold Rect.width
  omega

/-- Every pixel of a unit is in the buffer if its last pixel is. -/
theorem index_lt_size {patch : Patch width} {rect : Rect}
    (h : patch.lastIndex rect < patch.buffer.size) {x y : Nat} (hx : x < rect.right)
    (hy : y < rect.bottom) : patch.index x y < patch.buffer.size :=
  Nat.lt_of_le_of_lt
    (patch.index_le_index (Nat.le_sub_one_of_lt hx) (Nat.le_sub_one_of_lt hy)) h

/-- Every pixel of a unit is read if its last pixel is in the buffer. -/
theorem get?_eq {patch : Patch width} {rect : Rect}
    (h : patch.lastIndex rect < patch.buffer.size) {x y : Nat} (hx : x < rect.right)
    (hy : y < rect.bottom) : patch.get? x y = some (patch.sampleAt x y) :=
  getElem?_index (index_lt_size h hx hy)

/-- The sum of the samples of a unit. -/
def unitSum (patch : Patch width) (rect : Rect) : Nat :=
  ∑ y ∈ Finset.Ico rect.top rect.bottom, ∑ x ∈ Finset.Ico rect.left rect.right,
    (patch.sampleAt x y).val

/-- The average of the samples of a unit, rounded down. -/
def mean (patch : Patch width) (rect : Rect) : Nat :=
  patch.unitSum rect / rect.area

/-- The sum of the samples of a row is the sum over its pixels. -/
theorem rowSum_eq_sum (patch : Patch width) (rect : Rect) (y : Nat) :
    rowSum ((List.range' rect.left rect.width).map fun x : Nat ↦ patch.sampleAt x y).toArray =
      ∑ x ∈ Finset.Ico rect.left rect.right, (patch.sampleAt x y).val := by
  unfold rowSum
  rw [List.foldl_toArray, ← List.foldl_map (f := Fin.val), ← List.sum_eq_foldl, List.map_map]
  rfl

/-- Rows of a unit are added to a total one after the other. -/
theorem foldlM_rowSum_eq {patch : Patch width} {rect : Rect}
    (h : patch.lastIndex rect < patch.buffer.size) {row? : Nat → Option (Array (Sample width))}
    {rows : List Nat}
    (hrows : ∀ y ∈ rows, y < rect.bottom ∧ row? y = patch.row? rect.left y rect.width)
    (total : Nat) :
    rows.foldlM (fun total y ↦ (row? y).map fun samples ↦ total + rowSum samples) total =
      some (total + (rows.map fun y : Nat ↦
        ∑ x ∈ Finset.Ico rect.left rect.right, (patch.sampleAt x y).val).sum) := by
  induction rows generalizing total with
  | nil => rfl
  | cons y rest ih =>
      obtain ⟨⟨hy, hread⟩, hrest⟩ := List.forall_mem_cons.mp hrows
      rw [List.foldlM_cons, hread, row?_eq (row_le_size h hy), Option.map_some, rowSum_eq_sum]
      rw [List.map_cons, List.sum_cons, ← Nat.add_assoc]
      exact ih hrest _

/-- The sum of a unit whose last pixel is in the buffer is found, if each of its rows is read. -/
theorem sumRows?_eq {patch : Patch width} {rect : Rect}
    (h : patch.lastIndex rect < patch.buffer.size) {row? : Nat → Option (Array (Sample width))}
    (hread : ∀ y < rect.bottom, row? y = patch.row? rect.left y rect.width) :
    sumRows? rect row? = some (patch.unitSum rect) := by
  have hrows : ∀ y ∈ List.range' rect.top rect.height,
      y < rect.bottom ∧ row? y = patch.row? rect.left y rect.width := by
    intro y hy
    have hheight := (List.mem_range'_1.mp hy).2
    have htop := rect.top_lt_bottom
    unfold Rect.height at hheight
    have hbottom : y < rect.bottom := by omega
    exact ⟨hbottom, hread y hbottom⟩
  unfold sumRows?
  rw [foldlM_rowSum_eq h hrows, Nat.zero_add]
  rfl

/-- The sum of a unit whose last pixel is in the buffer is found row by row. -/
theorem sum?_eq {patch : Patch width} {rect : Rect}
    (h : patch.lastIndex rect < patch.buffer.size) :
    patch.sum? rect = some (patch.unitSum rect) :=
  sumRows?_eq h fun _ _ ↦ rfl

/-- If no sample of a unit exceeds a bound, then their sum is at most one bound for each pixel. -/
theorem unitSum_le {patch : Patch width} {rect : Rect} {bound : Nat}
    (h : ∀ x y, rect.left ≤ x → x < rect.right → rect.top ≤ y → y < rect.bottom →
      (patch.sampleAt x y).val ≤ bound) : patch.unitSum rect ≤ rect.area * bound := by
  calc patch.unitSum rect
      ≤ ∑ _y ∈ Finset.Ico rect.top rect.bottom, ∑ _x ∈ Finset.Ico rect.left rect.right, bound := by
        refine Finset.sum_le_sum fun y hy ↦ Finset.sum_le_sum fun x hx ↦ ?_
        obtain ⟨htop, hbottom⟩ := Finset.mem_Ico.mp hy
        obtain ⟨hleft, hright⟩ := Finset.mem_Ico.mp hx
        exact h x y hleft hright htop hbottom
    _ = rect.area * bound := rect.sum_const bound

/-- If no sample of a unit exceeds a bound, then neither does their average. -/
theorem mean_le {patch : Patch width} {rect : Rect} {bound : Nat}
    (h : ∀ x y, rect.left ≤ x → x < rect.right → rect.top ≤ y → y < rect.bottom →
      (patch.sampleAt x y).val ≤ bound) : patch.mean rect ≤ bound :=
  Nat.div_le_of_le_mul (unitSum_le h)

/-- The average of samples is below the number of levels, so narrowing it changes nothing. -/
theorem mean_lt_levels (patch : Patch width) (rect : Rect) : patch.mean rect < width.levels := by
  have hmean : patch.mean rect ≤ width.levels - 1 :=
    mean_le fun x y _ _ _ _ ↦ Nat.le_sub_one_of_lt (patch.sampleAt x y).isLt
  have := width.levels_pos
  omega

/-- The average of a unit whose last pixel is in the buffer is found. -/
theorem average?_eq {patch : Patch width} {rect : Rect}
    (h : patch.lastIndex rect < patch.buffer.size) :
    patch.average? rect = some ⟨patch.mean rect, patch.mean_lt_levels rect⟩ := by
  unfold average?
  rw [sum?_eq h, Option.map_some]
  congr 1
  exact Fin.ext (Nat.mod_eq_of_lt (patch.mean_lt_levels rect))

/-- The average of a unit is refused or found; no sample outside the buffer is needed for it. -/
theorem average_eq (patch : Patch width) (rect : Rect) :
    patch.average rect =
      if patch.buffer.size ≤ patch.lastIndex rect then
        .refused (.rectOutside (patch.lastIndex rect) patch.buffer.size)
      else
        .done ⟨patch.mean rect, patch.mean_lt_levels rect⟩ := by
  unfold average
  split
  · rfl
  · next h => rw [average?_eq (Nat.not_le.mp h)]

end Patch

namespace Window

/-- A side has the halo on both sides of the centre. -/
theorem side_eq (window : Window) : window.side = 2 * window.halo + 1 := by
  cases window <;> rfl

/-- A row or a column of the window is within the halo of the centre. -/
theorem le_of_lt_side {window : Window} {position : Nat} (h : position < window.side) :
    position ≤ 2 * window.halo := by
  have hside := window.side_eq
  omega

end Window

namespace Call

variable {width : SampleWidth} {call : Call width}

/-- The degraded sample at the tap in a row and a column of the window around the pixel
`(x, y)`. -/
def tapAt (call : Call width) (tapRow tapColumn x y : Nat) : Sample width :=
  call.degraded.sampleAt ((x + tapColumn : Int) - call.window.halo)
    ((y + tapRow : Int) - call.window.halo)

/-- The observation at the pixel `(x, y)`. -/
def observationAt (call : Call width) (x y : Nat) : Observation width call.window where
  source := call.source.sampleAt x y
  taps := Vector.ofFn fun tap ↦
    call.tapAt (call.window.tapRow tap) (call.window.tapColumn tap) x y

/-- The observations of all scanned rows of the unit. -/
def observations (call : Call width) : List (WeightedRow width call.window) :=
  (RowScan.ofRect call.rect call.options.sparse).toList.map fun visit ↦
    ⟨visit.2, (List.range' call.rect.left call.rect.width).map fun x ↦
      call.observationAt x visit.1⟩

namespace Admissible

/-- The halo of every row of the unit begins at or after the first sample. -/
theorem reach_le_index (h : call.Admissible) {row : Nat} (htop : call.rect.top ≤ row) :
    call.reach ≤ call.degraded.index call.rect.left row :=
  Nat.le_trans h.reach_le (call.degraded.index_le_index (Nat.le_refl _) htop)

/-- The last pixel of the unit is in the degraded buffer, because its last tap is. -/
theorem lastDegraded_lt (h : call.Admissible) :
    call.degraded.lastIndex call.rect < call.degraded.buffer.size := by
  have hlast := h.lastTap_lt
  unfold lastTap at hlast
  omega

/-- The index of the tap in row `r` and column `c` of the window around a pixel of the unit does not
exceed the index of the last tap. -/
theorem index_le_lastTap (h : call.Admissible) {row column r c : Nat}
    (htop : call.rect.top ≤ row) (hbottom : row < call.rect.bottom)
    (hcolumn : column < call.rect.width)
    (hr : r < call.window.side) (hc : c < call.window.side) :
    call.degraded.index call.rect.left row - call.reach + column + r * call.degraded.stride + c ≤
      call.lastTap := by
  have hreach := h.reach_le_index htop
  have hc := Window.le_of_lt_side hc
  have hpixel : call.degraded.index call.rect.left row + column ≤
      call.degraded.lastIndex call.rect := by
    rw [← Patch.index_add]
    exact call.degraded.index_le_index (Nat.le_sub_one_of_lt (Rect.left_add_lt hcolumn))
      (Nat.le_sub_one_of_lt hbottom)
  -- the tap lies at most one reach after its pixel, and the pixel not after the last one
  have hrows : r * call.degraded.stride ≤ 2 * (call.window.halo * call.degraded.stride) := by
    rw [← Nat.mul_assoc]
    exact Nat.mul_le_mul_right _ (Window.le_of_lt_side hr)
  unfold lastTap
  unfold reach at hreach ⊢
  omega

/-- The sample at the index of a tap is the one at the coordinates of the tap. -/
theorem getElem?_tapAt (h : call.Admissible) {row column r c : Nat}
    (htop : call.rect.top ≤ row) (hbottom : row < call.rect.bottom)
    (hcolumn : column < call.rect.width)
    (hr : r < call.window.side) (hc : c < call.window.side) :
    call.degraded.buffer[call.degraded.index call.rect.left row - call.reach + column +
        r * call.degraded.stride + c]? =
      some (call.tapAt r c (call.rect.left + column) row) := by
  have hreach := h.reach_le_index htop
  refine Patch.getElem?_eq_sampleAt ?_ ?_
  · push_cast [Nat.cast_sub hreach]
    unfold Patch.signedIndex Patch.index reach
    push_cast
    ring
  · exact Nat.lt_of_le_of_lt (h.index_le_lastTap htop hbottom hcolumn hr hc) h.lastTap_lt

/-- The tap in row `r` and column `c` of the window around a pixel of the unit is found `reach`
before the sample that lies `r` rows below and `c` columns right of the pixel. -/
theorem exists_index_tapAt (h : call.Admissible) {x y r c : Nat} (hleft : call.rect.left ≤ x)
    (hright : x < call.rect.right) (htop : call.rect.top ≤ y) (hbottom : y < call.rect.bottom)
    (hr : r < call.window.side) (hc : c < call.window.side) :
    ∃ index, index + call.reach = call.degraded.index x y + r * call.degraded.stride + c ∧
      call.degraded.buffer[index]? = some (call.tapAt r c x y) := by
  obtain ⟨column, hcolumn, rfl⟩ := Rect.exists_column hleft hright
  refine ⟨_, ?_, h.getElem?_tapAt htop hbottom hcolumn hr hc⟩
  have hreach := h.reach_le_index htop
  rw [Patch.index_add]
  omega

/-- Every tap of a pixel of the unit is read. -/
theorem tapSample?_eq (h : call.Admissible) {row column : Nat} (htop : call.rect.top ≤ row)
    (hbottom : row < call.rect.bottom) (hcolumn : column < call.rect.width)
    (tap : Fin call.window.taps) :
    call.tapSample? row column tap =
      some (call.tapAt (call.window.tapRow tap) (call.window.tapColumn tap)
        (call.rect.left + column) row) := by
  have hindex : call.tapIndex? row column tap =
      some (call.degraded.index call.rect.left row - call.reach + column +
        call.window.tapRow tap * call.degraded.stride + call.window.tapColumn tap) :=
    if_pos (h.reach_le_index htop)
  unfold tapSample?
  rw [hindex]
  exact h.getElem?_tapAt htop hbottom hcolumn (call.window.tapRow_lt tap)
    (call.window.tapColumn_lt tap)

/-- The observation at every pixel of the unit is read. -/
theorem pixel?_eq (h : call.Admissible) {row column : Nat} (htop : call.rect.top ≤ row)
    (hbottom : row < call.rect.bottom) (hcolumn : column < call.rect.width) :
    call.pixel? ((List.range' call.rect.left call.rect.width).map fun x : Nat ↦
        call.source.sampleAt x row).toArray row column =
      some (call.observationAt (call.rect.left + column) row) := by
  have htaps : collect? (call.tapSample? row column) =
      some (call.observationAt (call.rect.left + column) row).taps := by
    rw [collect?_eq_some_iff]
    intro tap
    rw [h.tapSample?_eq htop hbottom hcolumn tap, observationAt, Entries.get_ofFn]
  unfold pixel?
  rw [htaps]
  simp [hcolumn, observationAt]

/-- Every row of the unit is read. -/
theorem row?_eq (h : call.Admissible) {row : Nat} (weight : Nat) (htop : call.rect.top ≤ row)
    (hbottom : row < call.rect.bottom) :
    call.row? row weight =
      some ⟨weight, (List.range' call.rect.left call.rect.width).map fun x ↦
        call.observationAt x row⟩ := by
  have hpixels := mapM_eq_some_map (l := List.range call.rect.width) fun column hcolumn ↦
    h.pixel?_eq htop hbottom (List.mem_range.mp hcolumn)
  unfold Call.row?
  rw [Patch.row?_eq (Patch.row_le_size h.lastPixel_lt hbottom)]
  simp only [Option.bind_eq_bind, Option.bind_some, hpixels, Option.pure_def]
  rw [List.range'_eq_map_range, List.map_map]
  rfl

/-- All observations of an admissible call are read, and they are those at the pixels of the
scanned rows. -/
theorem rows?_eq (h : call.Admissible) : call.rows? = some call.observations :=
  mapM_eq_some_map fun visit hvisit ↦
    h.row?_eq visit.2 (RowScan.row_mem_ofRect hvisit).1 (RowScan.row_mem_ofRect hvisit).2

/-- The average of the unit of an admissible call is found. -/
theorem average?_eq (h : call.Admissible) :
    call.degraded.average? call.rect =
      some ⟨call.degraded.mean call.rect, call.degraded.mean_lt_levels call.rect⟩ :=
  Patch.average?_eq h.lastDegraded_lt

end Admissible

end Call

end WienerRegression
