import WienerRegression.Proofs.AveragedSamples
import WienerRegression.Proofs.DepthScales
import WienerRegression.Proofs.Magnitudes
import WienerRegression.Proofs.WordTotals

/-!
# Runs on words

A run on words is the run on numbers of any size as long as words hold what the run is made of. If
they hold the indices of the last tap and of the last source pixel, then no index wraps around, so
the verdict is the same (`Call.FitsWords.wordVerdict_eq`), the same samples are read, and no scan
steps over the largest word (`Call.FitsWords.scan_lt`). If words also hold the number of pixels and
the sum of their samples, then the totals of an accepted run are the exact ones, wrapped around
(`Call.wordRun_of_ok`), and where signed words hold the totals, the run is the exact one
(`Call.wordRun_eq_run`). The largest sample and the number of pixels tell that they do
(`Call.Admissible.wordRun_eq_run`).
-/

namespace WienerRegression

/-- A value that fits a signed word is kept in it. -/
theorem FitsWord.toSignedWord_eq {value : Int} (h : FitsWord value) :
    toSignedWord value = value := by
  obtain ⟨hlow, hhigh⟩ := h
  exact toSignedWord_of_fits hlow (by omega)

/-- The last row of a scan is followed by fewer rows than one step takes. -/
theorem RowScan.next_add_remaining_lt {scan : RowScan} (h : scan.next ≤ scan.stop) :
    scan.next + scan.remaining * scan.step < scan.stop + scan.step := by
  have hremaining := Nat.div_mul_le_self (scan.stop - scan.next + (scan.step - 1)) scan.step
  have hstep := scan.step_pos
  unfold remaining
  omega

/-- No scan steps over more than four rows. -/
theorem RowScan.step_ofRect_le (rect : Rect) (sparse : Bool) : (ofRect rect sparse).step ≤ 4 := by
  cases sparse <;> simp [ofRect, ofRows, sparseStep]

/-- Lists of reads that read the same are the same. -/
theorem mapM_congr {α β : Type} {read other : α → Option β} {l : List α}
    (h : ∀ a ∈ l, read a = other a) : l.mapM read = l.mapM other := by
  induction l with
  | nil => rfl
  | cons head rest ih =>
      obtain ⟨hhead, hrest⟩ := List.forall_mem_cons.mp h
      rw [List.mapM_cons, List.mapM_cons, hhead, ih hrest]

namespace Call

variable {width : SampleWidth} {call : Call width}

/-- Words hold what a run is made of, its totals apart: the index of the last tap and that of the
last source pixel, the number of pixels and the sum of the degraded samples of the unit. -/
structure FitsWords (call : Call width) : Prop where
  lastTap_lt : call.lastTap < UInt64.size
  lastPixel_lt : call.source.lastIndex call.rect < UInt64.size
  area_lt : call.rect.area < UInt64.size
  sum_lt : call.degraded.unitSum call.rect < UInt64.size

/-- Buffers that words can count hold no index that words do not, so an admissible call on them has
only its number of pixels and their sum to be checked. -/
theorem Admissible.fitsWords (h : call.Admissible)
    (hdegraded : call.degraded.buffer.size ≤ UInt64.size)
    (hsource : call.source.buffer.size ≤ UInt64.size)
    (hsum : call.rect.area * (width.levels - 1) < UInt64.size) : call.FitsWords := by
  have hlast := Nat.lt_of_lt_of_le h.lastDegraded_lt hdegraded
  have hunit := Patch.fitsWords_of_lt hlast hsum
  exact ⟨Nat.lt_of_lt_of_le h.lastTap_lt hdegraded, Nat.lt_of_lt_of_le h.lastPixel_lt hsource,
    hunit.area_lt, hunit.sum_lt⟩

namespace FitsWords

/-- Words hold the index of the last pixel, which comes before the last tap. -/
theorem lastDegraded_lt (h : call.FitsWords) : call.degraded.lastIndex call.rect < UInt64.size := by
  have hlast := h.lastTap_lt
  unfold lastTap at hlast
  omega

/-- Words hold what the average of the unit is made of. -/
theorem degraded (h : call.FitsWords) : call.degraded.FitsWords call.rect :=
  ⟨h.lastDegraded_lt, h.area_lt, h.sum_lt⟩

/-! ## Indices -/

/-- The first tap is found with words. -/
theorem wordFirstTap?_eq (h : call.FitsWords) : call.wordFirstTap? = call.firstTap? := by
  have hreach : call.reach < UInt64.size := by
    have hlast := h.lastTap_lt
    unfold lastTap at hlast
    omega
  have hstart : call.degraded.index call.rect.left call.rect.top < UInt64.size :=
    h.degraded.index_lt call.rect.left_lt_right call.rect.top_lt_bottom
  unfold wordFirstTap? firstTap?
  rw [Patch.wordIndex_eq hstart, toWord_of_lt hreach]

/-- The verdict is the same with words. -/
theorem wordVerdict_eq (h : call.FitsWords) (crossLength autoLength : Nat) :
    call.wordVerdict crossLength autoLength = call.verdict crossLength autoLength := by
  have hlast : call.source.wordIndex (call.rect.right - 1) (call.rect.bottom - 1) =
      call.source.lastIndex call.rect :=
    Patch.wordIndex_eq h.lastPixel_lt
  unfold wordVerdict verdict validate
  rw [h.wordFirstTap?_eq, toWord_of_lt h.lastTap_lt, hlast]
  cases call.validateAt call.firstTap? call.lastTap (call.source.lastIndex call.rect) crossLength
    autoLength <;> rfl

/-- The scan of the unit does not step over the largest word: the halo below the unit is at least as
high as a step. -/
theorem scan_lt (h : call.FitsWords) :
    (RowScan.ofRect call.rect call.options.sparse).next +
      (RowScan.ofRect call.rect call.options.sparse).remaining *
        (RowScan.ofRect call.rect call.options.sparse).step < UInt64.size := by
  have hstep := RowScan.step_ofRect_le call.rect call.options.sparse
  have hscan : (RowScan.ofRect call.rect call.options.sparse).next ≤
      (RowScan.ofRect call.rect call.options.sparse).stop := by
    rw [RowScan.ofRect_next, RowScan.ofRect_stop]
    exact Nat.le_of_lt call.rect.top_lt_bottom
  have hnext := RowScan.next_add_remaining_lt hscan
  rw [RowScan.ofRect_stop] at hnext
  have hlast : call.rect.bottom + 3 ≤ call.lastTap := by
    have hhalo : 2 ≤ call.window.halo := by
      cases call.window <;> decide
    have hreach := Nat.mul_le_mul hhalo call.degraded.stride_pos
    have hrows := Nat.le_mul_of_pos_right (call.rect.bottom - 1) call.degraded.stride_pos
    unfold lastTap Patch.lastIndex Patch.index reach
    omega
  have := h.lastTap_lt
  omega

end FitsWords

namespace Admissible

/-- Every tap of a pixel of the unit has the same index with words. -/
theorem wordTapIndex_eq (h : call.Admissible) (hfits : call.FitsWords) {row column : Nat}
    (htop : call.rect.top ≤ row) (hbottom : row < call.rect.bottom)
    (hcolumn : column < call.rect.width) (tap : Fin call.window.taps) :
    call.wordTapIndex row column tap =
      call.degraded.index call.rect.left row - call.reach + column +
        call.window.tapRow tap * call.degraded.stride + call.window.tapColumn tap := by
  have hlast := h.index_le_lastTap htop hbottom hcolumn (call.window.tapRow_lt tap)
    (call.window.tapColumn_lt tap)
  unfold wordTapIndex
  rw [← UInt64.ofNat_sub (h.reach_le_index htop), ← UInt64.ofNat_add, ← Nat.add_assoc,
    ← Nat.add_assoc]
  exact toWord_of_lt (Nat.lt_of_le_of_lt hlast hfits.lastTap_lt)

/-- The observation at every pixel of the unit is read with words. -/
theorem wordPixel?_eq (h : call.Admissible) (hfits : call.FitsWords) {row column : Nat}
    (htop : call.rect.top ≤ row) (hbottom : row < call.rect.bottom)
    (hcolumn : column < call.rect.width) (sources : Array (Sample width)) :
    call.wordPixel? sources row column = call.pixel? sources row column := by
  have htaps : (fun tap ↦ call.degraded.buffer[call.wordTapIndex row column tap]?) =
      call.tapSample? row column := by
    funext tap
    rw [h.wordTapIndex_eq hfits htop hbottom hcolumn, h.tapSample?_eq htop hbottom hcolumn]
    exact h.getElem?_tapAt htop hbottom hcolumn (call.window.tapRow_lt tap)
      (call.window.tapColumn_lt tap)
  unfold wordPixel? pixel?
  rw [htaps]

/-- Every row of the unit is read with words. -/
theorem wordRow?_eq (h : call.Admissible) (hfits : call.FitsWords) {row : Nat} (weight : Nat)
    (htop : call.rect.top ≤ row) (hbottom : row < call.rect.bottom) :
    call.wordRow? row weight = call.row? row weight := by
  have hsource : call.source.index call.rect.left row < UInt64.size :=
    Nat.lt_of_le_of_lt (call.source.index_le_index (Nat.le_sub_one_of_lt call.rect.left_lt_right)
      (Nat.le_sub_one_of_lt hbottom)) hfits.lastPixel_lt
  have hpixels : ∀ sources, (List.range call.rect.width).mapM (call.wordPixel? sources row) =
      (List.range call.rect.width).mapM (call.pixel? sources row) := by
    intro sources
    exact mapM_congr fun column hcolumn ↦
      h.wordPixel?_eq hfits htop hbottom (List.mem_range.mp hcolumn) sources
  unfold wordRow? row?
  rw [Patch.wordRow?_eq hsource]
  simp only [hpixels]

/-- All observations of the call are read with words. -/
theorem wordRows?_eq (h : call.Admissible) (hfits : call.FitsWords) :
    call.wordRows? = some call.observations := by
  unfold wordRows?
  rw [if_pos hfits.scan_lt]
  refine mapM_eq_some_map fun visit hvisit ↦ ?_
  obtain ⟨htop, hbottom⟩ := RowScan.row_mem_ofRect hvisit
  rw [h.wordRow?_eq hfits visit.2 htop hbottom]
  exact h.row?_eq visit.2 htop hbottom

end Admissible

/-! ## Totals -/

/-- The totals of the normal equations before they are divided. -/
def totals (call : Call width) : Statistics call.window where
  cross := Vector.ofFn call.crossSum
  auto := Vector.ofFn fun entry : Fin (call.window.taps * call.window.taps) ↦
    call.autoSum (RowMajor.row entry) (RowMajor.column entry)

/-- The coefficients of the normal equations whose totals are held in signed words. -/
def wordEquations (call : Call width) : Statistics call.window :=
  .ofTotals call.depth call.totals

/-- Content of 8 bits is not divided, so its coefficients are the totals. -/
theorem normalEquations_withDepth_eight (call : Call width) :
    (call.withDepth .eight).normalEquations = call.totals := by
  unfold normalEquations withDepth
  simp only [BitDepth.tdiv_divisor_eight]
  rfl

/-- Both storage formats hold content of 8 bits. -/
theorem Admissible.withDepth_eight (h : call.Admissible) :
    (call.withDepth .eight).Admissible where
  depth_le := by
    show 8 ≤ width.bits
    cases width <;> decide
  left_even := h.left_even
  width_le := h.width_le
  reach_le := h.reach_le
  lastTap_lt := h.lastTap_lt
  lastPixel_lt := h.lastPixel_lt

/-- The reference method finds the totals if they are not divided. -/
theorem accumulate_eq_totals (call : Call width) (storage : Statistics call.window) :
    CenteredSums.accumulate .eight (call.degraded.mean call.rect) call.observations storage =
      call.totals :=
  ((call.withDepth .eight).accumulate_observations storage).trans
    call.normalEquations_withDepth_eight

/-- The specialized method finds the totals if they are not divided. -/
theorem Admissible.statistics_eq_totals (h : call.Admissible) :
    (StagedSums.ofRows call.observations).statistics .eight (call.degraded.mean call.rect)
      call.rect.area = call.totals :=
  h.withDepth_eight.statistics_observations.trans call.normalEquations_withDepth_eight

/-- The total of a tap. -/
theorem get_cross_totals (call : Call width) (tap : Fin call.window.taps) :
    call.totals.cross.get tap = call.crossSum tap := by
  rw [totals, Entries.get_ofFn]

/-- The total of two taps. -/
theorem get_auto_totals (call : Call width) (first second : Fin call.window.taps) :
    call.totals.auto.get (RowMajor.index first second) = call.autoSum first second := by
  rw [totals, Entries.get_ofFn, RowMajor.row_index, RowMajor.column_index]

/-- The coefficient of a tap whose total is held in a signed word. -/
theorem get_cross_wordEquations (call : Call width) (tap : Fin call.window.taps) :
    call.wordEquations.cross.get tap =
      (toSignedWord (call.crossSum tap)).tdiv call.depth.divisor := by
  rw [wordEquations, Statistics.get_cross_ofTotals, get_cross_totals]

/-- The coefficient of two taps whose total is held in a signed word. -/
theorem get_auto_wordEquations (call : Call width) (first second : Fin call.window.taps) :
    call.wordEquations.auto.get (RowMajor.index first second) =
      (toSignedWord (call.autoSum first second)).tdiv call.depth.divisor := by
  rw [wordEquations, Statistics.get_auto_ofTotals, get_auto_totals]

/-- Whichever method answers an admissible call with words, it writes the coefficients whose totals
are held in signed words. -/
theorem Admissible.wordAnswer?_eq (h : call.Admissible) (hfits : call.FitsWords)
    {outputs : Outputs} (hroom : outputs.HasRoom call.window) (method : Method) :
    call.wordAnswer? method outputs = some (outputs.replace call.wordEquations) := by
  unfold wordAnswer?
  rw [hfits.degraded.wordAverage?_eq h.lastDegraded_lt, h.wordRows?_eq hfits]
  simp only [Option.bind_eq_bind, Option.bind_some]
  cases method with
  | reference =>
      obtain ⟨storage, hstorage⟩ := Outputs.read?_eq hroom
      rw [hstorage, Option.bind_some, accumulate_eq_totals]
      exact Outputs.write?_eq hroom _
  | specialized =>
      rw [h.statistics_eq_totals]
      exact Outputs.write?_eq hroom _

/-! ## Runs -/

/-- A run on words whose call is accepted writes the coefficients whose totals are held in signed
words. -/
theorem wordRun_of_ok {outputs : Outputs} {method : Method}
    (h : call.verdict outputs.cross.size outputs.auto.size = .ok method)
    (hfits : call.FitsWords) :
    call.wordRun outputs =
      ⟨.done (), outputs.replace call.wordEquations, [call.logRecord method]⟩ := by
  have hcall := (verdict_eq_ok_iff.mp h).1
  unfold wordRun
  rw [hfits.wordVerdict_eq, h]
  exact conclude_of_ok (hcall.wordAnswer?_eq hfits (hasRoom_of_verdict h) method)

/-- A run on words is the exact run if signed words hold its totals. -/
theorem wordRun_eq_run (hfits : call.FitsWords) (hcross : ∀ tap, FitsWord (call.crossSum tap))
    (hauto : ∀ first second, FitsWord (call.autoSum first second)) (outputs : Outputs) :
    call.wordRun outputs = call.run outputs := by
  have hequations : call.wordEquations = call.normalEquations := by
    refine Statistics.ext_get ?_ ?_
    · intro tap
      rw [get_cross_wordEquations, (hcross tap).toSignedWord_eq, get_cross_eq_tdiv]
    · intro entry
      rw [← RowMajor.index_row_column entry, get_auto_wordEquations,
        (hauto _ _).toSignedWord_eq, get_auto_eq_tdiv]
  cases hverdict : call.verdict outputs.cross.size outputs.auto.size with
  | error cause =>
      unfold wordRun run
      rw [hfits.wordVerdict_eq, hverdict]
      rfl
  | ok method => rw [wordRun_of_ok hverdict hfits, run_of_ok hverdict, hequations]

/-- A run on words is the exact run if a signed word holds the number of pixels times the square of
the largest sample that is read. -/
theorem wordRun_eq_run_of_readsAtMost (hfits : call.FitsWords) {bound : Nat}
    (hreads : call.ReadsAtMost bound) (hbound : call.rect.area * bound ^ 2 ≤ 2 ^ 63 - 1)
    (outputs : Outputs) : call.wordRun outputs = call.run outputs := by
  -- the totals are the coefficients of content of 8 bits
  have hreads : (call.withDepth .eight).ReadsAtMost bound :=
    ⟨hreads.averaged_le, hreads.tap_le, hreads.source_le⟩
  have hbound : call.rect.area * bound ^ 2 / BitDepth.eight.divisor ≤ 2 ^ 63 - 1 :=
    Nat.le_trans (Nat.div_le_self _ _) hbound
  refine wordRun_eq_run hfits ?_ ?_ outputs
  · intro tap
    have hle := hreads.abs_cross_le tap
    rw [normalEquations_withDepth_eight] at hle
    rw [← get_cross_totals]
    exact fitsWord_of_abs_le hle hbound
  · intro first second
    have hle := hreads.abs_auto_le (RowMajor.index first second)
    rw [normalEquations_withDepth_eight] at hle
    rw [← get_auto_totals]
    exact fitsWord_of_abs_le hle hbound

/-- The run of an admissible call on words is the exact run if words can count the samples of its
buffers and a signed word holds the number of pixels times the square of the largest sample. -/
theorem Admissible.wordRun_eq_run (h : call.Admissible)
    (hdegraded : call.degraded.buffer.size ≤ UInt64.size)
    (hsource : call.source.buffer.size ≤ UInt64.size)
    (hbound : call.rect.area * (width.levels - 1) ^ 2 ≤ 2 ^ 63 - 1) (outputs : Outputs) :
    call.wordRun outputs = call.run outputs := by
  have hsum : call.rect.area * (width.levels - 1) ≤ call.rect.area * (width.levels - 1) ^ 2 :=
    Nat.mul_le_mul_left _ (Nat.le_self_pow two_ne_zero _)
  have hfits := h.fitsWords hdegraded hsource
    (Nat.lt_of_le_of_lt (Nat.le_trans hsum hbound) (by decide))
  exact wordRun_eq_run_of_readsAtMost hfits (samplesAtMost_levels call).readsAtMost hbound outputs

end Call

end WienerRegression
