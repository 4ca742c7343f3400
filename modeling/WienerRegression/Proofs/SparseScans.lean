import WienerRegression.Proofs.FixtureFills
import WienerRegression.Proofs.RepeatedRows
import WienerRegression.Proofs.SampleBounds

/-!
# Sparse scans

A sparse scan replaces the rows of a group by copies of its first row. If every row of every group
looks like the first one in the columns of the unit, then nothing is lost: the weighted sums over
the visited rows are the sums over all rows (`weightedSum_eq_unitTotal`), and a sparse run leaves
the same entries in the outputs as a full one (`sparse_run_eq_full_run`). The average does not stand
in the way, because it is taken over all rows in either case. Fixtures filled with columns are such
content, wherever the unit lies (`Admissible.groupsAlike`). This takes a square that words can
count: in a larger one, the last row of the buffers need not be whole, and then it is not filled
(`sparse_run_tornCall`).
-/

namespace WienerRegression

/-! ## Groups of rows -/

namespace Call

variable {width : SampleWidth} {call : Call width}

/-- The sum of a quantity over all pixels of the unit. -/
def unitTotal (call : Call width) (quantity : Nat → Nat → Int) : Int :=
  ∑ y ∈ Finset.Ico call.rect.top call.rect.bottom,
    ∑ x ∈ Finset.Ico call.rect.left call.rect.right, quantity x y

/-- The coefficients of the normal equations over all pixels of the unit, whatever the scan. -/
def unitEquations (call : Call width) : Statistics call.window where
  cross := Vector.ofFn fun tap ↦
    (call.unitTotal fun x y ↦ call.tapDeviation tap x y * call.sourceDeviation x y).tdiv
      call.depth.divisor
  auto := Vector.ofFn fun entry : Fin (call.window.taps * call.window.taps) ↦
    (call.unitTotal fun x y ↦ call.tapDeviation (RowMajor.row entry) x y *
      call.tapDeviation (RowMajor.column entry) x y).tdiv call.depth.divisor

/-- In the columns of the unit, every row that a visit of the scan stands for looks like the visited
row: its source samples are the same, and so are the samples at all taps of its pixels. -/
structure GroupsAlike (call : Call width) : Prop where
  source_eq : ∀ visit ∈ (RowScan.ofRect call.rect call.options.sparse).toList,
    ∀ y, visit.1 ≤ y → y < visit.1 + visit.2 → ∀ x, call.rect.left ≤ x → x < call.rect.right →
      call.source.sampleAt x y = call.source.sampleAt x visit.1
  tap_eq : ∀ visit ∈ (RowScan.ofRect call.rect call.options.sparse).toList,
    ∀ y, visit.1 ≤ y → y < visit.1 + visit.2 → ∀ x, call.rect.left ≤ x → x < call.rect.right →
      ∀ r < call.window.side, ∀ c < call.window.side,
        call.tapAt r c x y = call.tapAt r c x visit.1

/-- The weighted sum over the visited rows is the sum over all rows of the unit, if the quantity is
the same in every row of a group. -/
theorem weightedSum_eq_unitTotal {quantity : Nat → Nat → Int}
    (halike : ∀ visit ∈ (RowScan.ofRect call.rect call.options.sparse).toList,
      ∀ y, visit.1 ≤ y → y < visit.1 + visit.2 → ∀ x, call.rect.left ≤ x → x < call.rect.right →
        quantity x y = quantity x visit.1) :
    call.weightedSum quantity = call.unitTotal quantity := by
  have hrows : ∀ visit ∈ (RowScan.ofRect call.rect call.options.sparse).toList,
      ∀ y, visit.1 ≤ y → y < visit.1 + visit.2 →
        ∑ x ∈ Finset.Ico call.rect.left call.rect.right, quantity x y =
          ∑ x ∈ Finset.Ico call.rect.left call.rect.right, quantity x visit.1 := by
    intro visit hvisit y hrow hgroup
    refine Finset.sum_congr rfl ?_
    intro x hx
    obtain ⟨hleft, hright⟩ := Finset.mem_Ico.mp hx
    exact halike visit hvisit y hrow hgroup x hleft hright
  unfold weightedSum unitTotal
  simp only [← Finset.mul_sum]
  exact (RowScan.tiles_ofRect call.rect call.options.sparse).sum_weighted hrows

/-- If groups of rows look alike, the scanned rows give the coefficients over all rows. -/
theorem GroupsAlike.normalEquations_eq (h : call.GroupsAlike) :
    call.normalEquations = call.unitEquations := by
  have hcross : ∀ tap, call.weightedSum (fun x y ↦
      call.tapDeviation tap x y * call.sourceDeviation x y) =
        call.unitTotal fun x y ↦ call.tapDeviation tap x y * call.sourceDeviation x y := by
    intro tap
    refine weightedSum_eq_unitTotal ?_
    intro visit hvisit y hrow hgroup x hleft hright
    have htaps := h.tap_eq visit hvisit y hrow hgroup x hleft hright
    unfold tapDeviation sourceDeviation
    rw [htaps _ (call.window.tapRow_lt tap) _ (call.window.tapColumn_lt tap),
      h.source_eq visit hvisit y hrow hgroup x hleft hright]
  have hauto : ∀ first second, call.weightedSum (fun x y ↦
      call.tapDeviation first x y * call.tapDeviation second x y) =
        call.unitTotal fun x y ↦ call.tapDeviation first x y * call.tapDeviation second x y := by
    intro first second
    refine weightedSum_eq_unitTotal ?_
    intro visit hvisit y hrow hgroup x hleft hright
    have htaps := h.tap_eq visit hvisit y hrow hgroup x hleft hright
    unfold tapDeviation
    rw [htaps _ (call.window.tapRow_lt first) _ (call.window.tapColumn_lt first),
      htaps _ (call.window.tapRow_lt second) _ (call.window.tapColumn_lt second)]
  unfold normalEquations unitEquations
  simp only [hcross, hauto]

/-- The groups of a full scan are single rows. -/
theorem groupsAlike_full (hfull : call.options.sparse = false) : call.GroupsAlike := by
  have hrow : ∀ visit ∈ (RowScan.ofRect call.rect call.options.sparse).toList,
      ∀ y, visit.1 ≤ y → y < visit.1 + visit.2 → y = visit.1 := by
    rw [hfull]
    exact fun visit hvisit y ↦ RowScan.eq_row_of_mem_full hvisit
  constructor
  case source_eq =>
    intro visit hvisit y hle hlt x _ _
    rw [hrow visit hvisit y hle hlt]
  case tap_eq =>
    intro visit hvisit y hle hlt x _ _ r _ c _
    rw [hrow visit hvisit y hle hlt]

/-- The call with a sparse or a full scan. -/
def withScan (call : Call width) (sparse : Bool) : Call width :=
  { call with options := { call.options with sparse := sparse } }

/-- The verdict does not depend on the scan. -/
theorem verdict_withScan (call : Call width) (sparse : Bool) (crossLength autoLength : Nat) :
    (call.withScan sparse).verdict crossLength autoLength = call.verdict crossLength autoLength :=
  rfl

/-- In an admissible call on buffers whose rows repeat, all rows of the unit look alike. -/
theorem Admissible.groupsAlike (h : call.Admissible) (hdegraded : call.degraded.RowsRepeat)
    (hsource : call.source.RowsRepeat) : call.GroupsAlike := by
  have hrows : ∀ visit ∈ (RowScan.ofRect call.rect call.options.sparse).toList,
      ∀ y, visit.1 ≤ y → y < visit.1 + visit.2 →
        call.rect.top ≤ visit.1 ∧ visit.1 < call.rect.bottom ∧ y < call.rect.bottom := by
    intro visit hvisit y _ hgroup
    have hle := (RowScan.tiles_ofRect _ _).group_le hvisit
    obtain ⟨htop, hbottom⟩ := RowScan.row_mem_ofRect hvisit
    omega
  constructor
  case source_eq =>
    intro visit hvisit y hrow hgroup x _ hright
    obtain ⟨-, hvisited, hy⟩ := hrows visit hvisit y hrow hgroup
    exact hsource.sampleAt_eq (Patch.index_lt_size h.lastPixel_lt hright hy)
      (Patch.index_lt_size h.lastPixel_lt hright hvisited)
  case tap_eq =>
    intro visit hvisit y hrow hgroup x hleft hright r hr c hc
    obtain ⟨htop, hvisited, hy⟩ := hrows visit hvisit y hrow hgroup
    obtain ⟨first, hfirst, htap⟩ :=
      h.exists_index_tapAt hleft hright (Nat.le_trans htop hrow) hy hr hc
    obtain ⟨second, hsecond, hother⟩ := h.exists_index_tapAt hleft hright htop hvisited hr hc
    -- both taps lie equally far from pixels of one column
    have hmod : first + call.reach ≡ second + call.reach [MOD call.degraded.stride] := by
      rw [hfirst, hsecond]
      exact ((call.degraded.index_modEq x y visit.1).add_right _).add_right c
    have hequal := hdegraded first second (Array.getElem?_eq_some_iff.mp htap).1
      (Array.getElem?_eq_some_iff.mp hother).1 (Nat.ModEq.add_right_cancel' _ hmod)
    rw [htap, hother] at hequal
    exact Option.some.inj hequal

/-! ## Sparse and full runs -/

/-- An accepted call whose groups of rows look alike in some scan leaves the coefficients over all
rows in the outputs when it is run with that scan. -/
theorem run_withScan_of_alike {sparse : Bool} {outputs : Outputs} {method : Method}
    (haccepted : call.verdict outputs.cross.size outputs.auto.size = .ok method)
    (halike : (call.withScan sparse).GroupsAlike) :
    (call.withScan sparse).run outputs =
      ⟨.done (), outputs.replace call.unitEquations,
        [(call.withScan sparse).logRecord method]⟩ := by
  -- neither the verdict nor the coefficients over all rows depend on the scan
  have haccepted : (call.withScan sparse).verdict outputs.cross.size outputs.auto.size =
      .ok method := haccepted
  rw [run_of_ok haccepted, halike.normalEquations_eq]
  rfl

/-- A sparse run leaves the same entries in the outputs as a full run of the same call, if every row
of each group looks like the row that is visited for it, and therefore also on every well formed
fixture that is filled with columns and whose degraded patch has the side as its stride. -/
theorem sparse_run_eq_full_run (call : Call width) (outputs : Outputs) {method : Method}
    (haccepted : call.verdict outputs.cross.size outputs.auto.size = .ok method) :
    ∃ written,
      (call.withScan false).run outputs =
        ⟨.done (), written, [(call.withScan false).logRecord method]⟩ ∧
      ((call.withScan true).GroupsAlike →
        (call.withScan true).run outputs =
          ⟨.done (), written, [(call.withScan true).logRecord method]⟩) ∧
      ∀ (fixture : Fixture width) (depth : BitDepth) (generator : Generator),
        fixture.WellFormed fixture.window fixture.side → fixture.stride = fixture.side →
        (fixture.fillColumns depth generator).1.degradedPatch? = .ok call.degraded →
        (fixture.fillColumns depth generator).1.sourcePatch? = .ok call.source →
        (call.withScan true).run outputs =
          ⟨.done (), written, [(call.withScan true).logRecord method]⟩ := by
  refine ⟨_, run_withScan_of_alike haccepted (groupsAlike_full rfl), ?_, ?_⟩
  · intro halike
    exact run_withScan_of_alike haccepted halike
  · intro fixture depth generator hfixture hstride hdegraded hsource
    have hsparse : (call.withScan true).verdict outputs.cross.size outputs.auto.size =
        .ok method := haccepted
    have hcall := (verdict_eq_ok_iff.mp hsparse).1
    obtain ⟨hdegraded, hsource⟩ :=
      hfixture.rowsRepeat_fillColumns hstride depth generator hdegraded hsource
    exact run_withScan_of_alike haccepted (hcall.groupsAlike hdegraded hsource)

/-- A small fixture for a window of five by five taps, filled with columns. -/
def columns : Fixture .byte :=
  ((Fixture.black .byte .chroma 10).fillColumns .eight (Generator.ofSeed 7)).1

/-- A call on three by five pixels of the fixture `columns`. A sparse scan visits the first of the
five rows with weight 4 and the last with weight 1. -/
def columnsCall : Call .byte where
  window := .chroma
  degraded := {
    buffer := columns.degraded.toArray
    stride := 10
    origin := 22
    stride_pos := Nat.zero_lt_succ _
    origin_lt := by rw [Vector.size_toArray]; decide }
  source := {
    buffer := columns.source.toArray
    stride := 10
    origin := 0
    stride_pos := Nat.zero_lt_succ _
    origin_lt := by rw [Vector.size_toArray]; decide }
  rect := ⟨2, 5, 1, 6, by decide, by decide⟩
  depth := .eight
  options := ⟨true, .auto⟩

/-- The halo of the call `columnsCall` lies in the degraded buffer. -/
theorem admissible_columnsCall : columnsCall.Admissible where
  depth_le := by decide
  left_even := by decide
  width_le := by decide
  reach_le := by decide
  lastTap_lt := by
    show 98 < columns.degraded.toArray.size
    rw [Vector.size_toArray]
    decide
  lastPixel_lt := by
    show 54 < columns.source.toArray.size
    rw [Vector.size_toArray]
    decide

/-- A sparse run of `columnsCall` leaves what a full one does. -/
theorem sparse_run_columnsCall :
    columnsCall.verdict 25 625 = .ok .specialized ∧
    (Fixture.black .byte .chroma 10).WellFormed .chroma 10 ∧
    columns.degradedPatch? = .ok columnsCall.degraded ∧
    columns.sourcePatch? = .ok columnsCall.source ∧
    ∃ written,
      (columnsCall.withScan false).run ⟨Array.replicate 25 9, Array.replicate 625 9⟩ =
        ⟨.done (), written, [(columnsCall.withScan false).logRecord .specialized]⟩ ∧
      (columnsCall.withScan true).run ⟨Array.replicate 25 9, Array.replicate 625 9⟩ =
        ⟨.done (), written, [(columnsCall.withScan true).logRecord .specialized]⟩ := by
  have haccepted : columnsCall.verdict 25 625 = .ok .specialized :=
    verdict_eq_ok_iff.mpr ⟨admissible_columnsCall, by decide, by decide, rfl⟩
  have hdegraded : columns.degradedPatch? = .ok columnsCall.degraded :=
    Fixture.degradedPatch?_eq_ok_iff.mpr ⟨rfl, rfl, rfl⟩
  have hsource : columns.sourcePatch? = .ok columnsCall.source :=
    Fixture.sourcePatch?_eq_ok_iff.mpr ⟨rfl, rfl, rfl⟩
  obtain ⟨written, hfull, -, hcolumns⟩ := sparse_run_eq_full_run columnsCall
    ⟨Array.replicate 25 9, Array.replicate 625 9⟩ (by simpa using haccepted)
  have hfixture : (Fixture.black .byte .chroma 10).WellFormed .chroma 10 :=
    Fixture.wellFormed_black (by decide) (by decide)
  exact ⟨haccepted, hfixture, hdegraded, hsource, written, hfull,
    hcolumns _ .eight (Generator.ofSeed 7) hfixture rfl hdegraded hsource⟩

/-! ## A square that words do not count -/

/-- A fixture with a side of `2 ^ 32 + 3`, filled with columns. As a word, the number of samples of
its square is that of six rows less nine samples, so the sixth row is not whole and stays black. -/
@[irreducible] def tornColumns : Fixture .byte :=
  ((Fixture.black .byte .chroma 4294967299).fillColumns .eight (Generator.ofSeed 0)).1

/-- The number of samples in each buffer of `tornColumns`. -/
theorem length_tornColumns : tornColumns.length = 25769803785 := by
  unfold tornColumns
  decide

/-- The five whole rows of `tornColumns` hold the draws of their columns. -/
theorem drawnAt_tornColumns {index : Nat} (h : index < 5 * 4294967299) :
    DrawnAt tornColumns.degraded.toArray index .eight (Generator.ofSeed 0)
      (index % 4294967299) := by
  have hwhole : index < (Fixture.black .byte .chroma 4294967299).length / 4294967299 * 4294967299 :=
    h
  have hdrawn := Fixture.drawnAt_repeatRow .byte .eight (Generator.ofSeed 0) 0
    (Fixture.black .byte .chroma 4294967299).degraded hwhole
  rw [Nat.zero_add] at hdrawn
  unfold tornColumns
  exact hdrawn

/-- The samples of `tornColumns` after the whole rows are black. -/
theorem getElem?_tornColumns_of_le {index : Nat} (hlow : 5 * 4294967299 ≤ index)
    (hhigh : index < 25769803785) :
    tornColumns.degraded.toArray[index]? = some (Sample.zero .byte) := by
  have hwhole : (Fixture.black .byte .chroma 4294967299).length / 4294967299 * 4294967299 ≤ index :=
    hlow
  have hlength : index < (Fixture.black .byte .chroma 4294967299).length := hhigh
  unfold tornColumns
  exact (Fixture.getElem?_repeatRow_of_le hwhole).trans (Fixture.getElem?_black hlength)

/-- A call on two by two pixels of the fixture `tornColumns`. The taps of the second row reach the
row that is not whole. -/
def tornCall : Call .byte where
  window := .chroma
  degraded := {
    buffer := tornColumns.degraded.toArray
    stride := 4294967299
    origin := 8589934600
    stride_pos := Nat.zero_lt_succ _
    origin_lt := by rw [Vector.size_toArray, length_tornColumns]; decide }
  source := {
    buffer := tornColumns.source.toArray
    stride := 4294967299
    origin := 0
    stride_pos := Nat.zero_lt_succ _
    origin_lt := by rw [Vector.size_toArray, length_tornColumns]; decide }
  rect := ⟨0, 2, 0, 2, Nat.zero_lt_succ _, Nat.zero_lt_succ _⟩
  depth := .eight
  options := ⟨true, .auto⟩

/-- The halo of the call `tornCall` lies in the degraded buffer. -/
theorem admissible_tornCall : tornCall.Admissible where
  depth_le := by decide
  left_even := by decide
  width_le := by decide
  reach_le := by decide
  lastTap_lt := by
    show tornCall.lastTap < tornColumns.degraded.toArray.size
    rw [Vector.size_toArray, length_tornColumns]
    decide
  lastPixel_lt := by
    show tornCall.source.lastIndex tornCall.rect < tornColumns.source.toArray.size
    rw [Vector.size_toArray, length_tornColumns]
    decide

/-- The taps of `tornCall` in the whole rows read the draw of their column, and those in the last
row black. -/
theorem val_tapAt_tornCall {x y r c : Nat} (hx : x < 2) (hy : y < 2) (hr : r < 5) (hc : c < 5) :
    (tornCall.tapAt r c x y).val =
      if y + r < 5 then (Generator.ofSeed 0).drawn (.sample 8) (x + c) else 0 := by
  obtain ⟨index, hindex, hread⟩ :=
    admissible_tornCall.exists_index_tapAt (Nat.zero_le x) hx (Nat.zero_le y) hy hr hc
  rw [show tornCall.reach = 8589934600 by decide, Patch.index,
    show tornCall.degraded.origin = 8589934600 from rfl,
    show tornCall.degraded.stride = 4294967299 from rfl] at hindex
  split
  case isTrue hrow =>
    have hwhole : index < 5 * 4294967299 := by omega
    have hcolumn : index % 4294967299 = x + c := by omega
    obtain ⟨sample, hsample, hdrawn⟩ := drawnAt_tornColumns hwhole
    rw [hcolumn] at hdrawn
    rw [Option.some.inj (hread.symm.trans hsample)]
    exact hdrawn.val_eq rfl
  case isFalse hrow =>
    have hlow : 5 * 4294967299 ≤ index := by omega
    have hblack := getElem?_tornColumns_of_le hlow (by omega)
    rw [Option.some.inj (hread.symm.trans hblack)]
    rfl

/-- The average of the unit of `tornCall` is that of two draws, which both rows repeat. -/
theorem mean_tornCall : tornCall.degraded.mean tornCall.rect = 128 := by
  have hsample : ∀ x y : Nat, x < 2 → y < 2 → (tornCall.degraded.sampleAt x y).val =
      (Generator.ofSeed 0).drawn (.sample 8) (x + 2) := by
    intro x y hx hy
    have hcentre := val_tapAt_tornCall hx hy (by decide : 2 < 5) (by decide : 2 < 5)
    rw [if_pos (by omega)] at hcentre
    rw [← tapAt_halo]
    exact hcentre
  have hsum : tornCall.degraded.unitSum tornCall.rect = 512 := by
    calc tornCall.degraded.unitSum tornCall.rect
        = ∑ _y ∈ Finset.Ico 0 2, ∑ x ∈ Finset.Ico 0 2,
            (Generator.ofSeed 0).drawn (.sample 8) (x + 2) := by
          refine Finset.sum_congr rfl fun y hy ↦ Finset.sum_congr rfl fun x hx ↦ ?_
          exact hsample x y (Finset.mem_Ico.mp hx).2 (Finset.mem_Ico.mp hy).2
      _ = 512 := by decide
  rw [Patch.mean, hsum]
  rfl

/-- A full scan of the unit of `tornCall` visits both rows, and a sparse one the first row for
both. -/
theorem weightedSum_tornCall (quantity : Nat → Nat → Int) :
    (tornCall.withScan false).weightedSum quantity =
        quantity 0 0 + quantity 1 0 + (quantity 0 1 + quantity 1 1) ∧
      (tornCall.withScan true).weightedSum quantity = 2 * (quantity 0 0 + quantity 1 0) := by
  have hrow : ∀ (weight : Int) (y : Nat),
      ∑ x ∈ Finset.Ico 0 2, weight * quantity x y = weight * (quantity 0 y + quantity 1 y) := by
    intro weight y
    rw [← Finset.mul_sum, ← Finset.range_eq_Ico, Finset.sum_range_succ, Finset.sum_range_one]
  constructor
  · show (∑ x ∈ Finset.Ico 0 2, (1 : Int) * quantity x 0) +
      ((∑ x ∈ Finset.Ico 0 2, (1 : Int) * quantity x 1) + 0) = _
    rw [hrow, hrow, one_mul, one_mul, add_zero]
  · show (∑ x ∈ Finset.Ico 0 2, (2 : Int) * quantity x 0) + 0 = _
    rw [hrow, add_zero]

/-- The tap in the first column and the last row of the window. -/
def lastRowTap : Fin Window.chroma.taps := ⟨4, by decide⟩

/-- That tap reads draws in the first row of the unit of `tornCall` and black in the second. -/
theorem tapDeviation_tornCall :
    tornCall.tapDeviation lastRowTap 0 0 = -108 ∧ tornCall.tapDeviation lastRowTap 1 0 = -102 ∧
      ∀ x < 2, tornCall.tapDeviation lastRowTap x 1 = -128 := by
  have hdeviation : ∀ x < 2, ∀ y < 2, tornCall.tapDeviation lastRowTap x y =
      ((if y + 4 < 5 then (Generator.ofSeed 0).drawn (.sample 8) (x + 0) else 0 : Nat) : Int) -
        128 := by
    intro x hx y hy
    show ((tornCall.tapAt 4 0 x y).val : Int) - tornCall.degraded.mean tornCall.rect = _
    rw [val_tapAt_tornCall hx hy (by decide) (by decide), mean_tornCall]
    rfl
  refine ⟨?_, ?_, ?_⟩
  · rw [hdeviation 0 (by decide) 0 (by decide)]
    decide
  · rw [hdeviation 1 (by decide) 0 (by decide)]
    decide
  · intro x hx
    rw [hdeviation x hx 1 (by decide)]
    rfl

/-- The correlation of the tap `lastRowTap` with itself in a full and in a sparse scan. -/
theorem get_auto_tornCall :
    (tornCall.withScan false).normalEquations.auto.get (RowMajor.index lastRowTap lastRowTap) =
        54836 ∧
      (tornCall.withScan true).normalEquations.auto.get (RowMajor.index lastRowTap lastRowTap) =
        44136 := by
  obtain ⟨hfirst, hsecond, hblack⟩ := tapDeviation_tornCall
  obtain ⟨hfull, hsparse⟩ := weightedSum_tornCall fun x y ↦
    tornCall.tapDeviation lastRowTap x y * tornCall.tapDeviation lastRowTap x y
  rw [hfirst, hsecond] at hfull hsparse
  rw [hblack 0 (by decide), hblack 1 (by decide)] at hfull
  constructor
  · rw [get_auto_normalEquations (tornCall.withScan false) lastRowTap lastRowTap]
    show Int.tdiv ((tornCall.withScan false).weightedSum fun x y ↦
      tornCall.tapDeviation lastRowTap x y * tornCall.tapDeviation lastRowTap x y) 1 = _
    rw [hfull]
    decide
  · rw [get_auto_normalEquations (tornCall.withScan true) lastRowTap lastRowTap]
    show Int.tdiv ((tornCall.withScan true).weightedSum fun x y ↦
      tornCall.tapDeviation lastRowTap x y * tornCall.tapDeviation lastRowTap x y) 1 = _
    rw [hsparse]
    decide

/-- Columns on a side whose square words do not count: the call `tornCall` on them is accepted, and
the correlation of a tap in the last row with itself differs between a full and a sparse scan. A
side of `2 ^ 31` makes no fixture for words. -/
theorem sparse_run_tornCall :
    Fixture.ofSide? .byte .chroma 4294967299 = .done (.black .byte .chroma 4294967299) ∧
    tornColumns =
      ((Fixture.black .byte .chroma 4294967299).fillColumns .eight (Generator.ofSeed 0)).1 ∧
    tornColumns.stride = tornColumns.side ∧
    tornColumns.degradedPatch? = .ok tornCall.degraded ∧
    tornColumns.sourcePatch? = .ok tornCall.source ∧
    tornCall.verdict 25 625 = .ok .specialized ∧
    (∃ full sparse,
      (tornCall.withScan false).run ⟨Array.replicate 25 9, Array.replicate 625 9⟩ =
        ⟨.done (), full, [(tornCall.withScan false).logRecord .specialized]⟩ ∧
      (tornCall.withScan true).run ⟨Array.replicate 25 9, Array.replicate 625 9⟩ =
        ⟨.done (), sparse, [(tornCall.withScan true).logRecord .specialized]⟩ ∧
      full.auto[4 * 25 + 4]? = some 54836 ∧ sparse.auto[4 * 25 + 4]? = some 44136) ∧
    Fixture.ofSide? .word .chroma (2 ^ 31) = .outside := by
  have haccepted : tornCall.verdict 25 625 = .ok .specialized :=
    verdict_eq_ok_iff.mpr ⟨admissible_tornCall, by decide, by decide, rfl⟩
  have hscan : ∀ sparse, (tornCall.withScan sparse).verdict
      (Array.replicate 25 (9 : Int)).size (Array.replicate 625 (9 : Int)).size =
        .ok .specialized := by
    intro sparse
    rw [Array.size_replicate, Array.size_replicate, verdict_withScan, haccepted]
  have hentry : ∀ sparse, ((⟨Array.replicate 25 9, Array.replicate 625 9⟩ : Outputs).replace
      (tornCall.withScan sparse).normalEquations).auto[4 * 25 + 4]? =
        some ((tornCall.withScan sparse).normalEquations.auto.get
          (RowMajor.index lastRowTap lastRowTap)) := by
    intro sparse
    have hwrote := @wrote_of_ok _ _ ⟨Array.replicate 25 9, Array.replicate 625 9⟩ _ (hscan sparse)
    exact hwrote.auto_entry (RowMajor.index lastRowTap lastRowTap)
  obtain ⟨hfull, hsparse⟩ := get_auto_tornCall
  refine ⟨(if_neg (by decide)).trans (if_neg (by decide)), by unfold tornColumns; rfl,
    by unfold tornColumns; rfl, ?_, ?_, haccepted,
    ⟨_, _, run_of_ok (hscan false), run_of_ok (hscan true), ?_, ?_⟩, rfl⟩
  · exact Fixture.degradedPatch?_eq_ok_iff.mpr
      ⟨rfl, by unfold tornColumns; rfl, by unfold tornColumns; rfl⟩
  · exact Fixture.sourcePatch?_eq_ok_iff.mpr ⟨rfl, by unfold tornColumns; rfl, rfl⟩
  · rw [hentry, hfull]
  · rw [hentry, hsparse]

end Call

end WienerRegression
