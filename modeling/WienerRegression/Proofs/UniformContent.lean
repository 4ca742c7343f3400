import WienerRegression.Proofs.ScannedPixels
import WienerRegression.Proofs.SemidefiniteMatrices
import WienerRegression.Proofs.WordRuns

/-!
# Uniform content

The statistics measure how the degraded samples vary around their average. If every degraded sample
that a call reads has one value, then the average is that value and nothing deviates from it, so all
entries are zero for any source (`Call.DegradedUniform.tapDeviation_eq_zero`). Conversely, an entry
on the diagonal is a sum of squares in which every tap of every scanned pixel has a part, so a
diagonal of zeros leaves no deviation (`Call.autoSum_self_eq_zero_iff`). Both directions are in
`Call.wordRun_vanishesOn`.

The first direction needs words that hold the indices, the number of pixels and the sum of their
samples, the second also signed words that hold the sums on the diagonal. Without them both fail
(`Call.wordRun_foldedCall_stripedCall`): a stride can take every other row of the taps to an index
that wraps around, and a sum of squares can be a multiple of `2 ^ 64`.
-/

namespace WienerRegression

variable {width : SampleWidth}

/-- The outputs hold zero in every entry for the taps of a window. -/
structure Outputs.VanishesOn (outputs : Outputs) (window : Window) : Prop where
  cross_tap : ∀ tap < window.taps, outputs.cross[tap]? = some 0
  auto_pair : ∀ pair < window.tapPairs, outputs.auto[pair]? = some 0

/-- A write of statistics that are zero leaves zero in every entry. -/
theorem Outputs.Wrote.vanishesOn {window : Window} {before after : Outputs}
    {statistics : Statistics window} (h : before.Wrote statistics after)
    (hcross : ∀ tap, statistics.cross.get tap = 0)
    (hauto : ∀ first second, statistics.auto.get (RowMajor.index first second) = 0) :
    after.VanishesOn window where
  cross_tap := by
    intro tap htap
    have hentry := h.cross_tap ⟨tap, htap⟩
    rwa [hcross] at hentry
  auto_pair := by
    intro pair hpair
    have hentry := h.auto_entry ⟨pair, hpair⟩
    rwa [← RowMajor.index_row_column ⟨pair, hpair⟩, hauto, RowMajor.index_row_column] at hentry

/-- The average of samples that all have one value is that value. -/
theorem Patch.mean_of_uniform {patch : Patch width} {rect : Rect} {value : Nat}
    (h : ∀ x y, rect.left ≤ x → x < rect.right → rect.top ≤ y → y < rect.bottom →
      (patch.sampleAt x y).val = value) : patch.mean rect = value := by
  have hsum : patch.unitSum rect = rect.area * value := by
    calc patch.unitSum rect
        = ∑ _y ∈ Finset.Ico rect.top rect.bottom, ∑ _x ∈ Finset.Ico rect.left rect.right,
            value := by
          refine Finset.sum_congr rfl fun y hy ↦ Finset.sum_congr rfl fun x hx ↦ ?_
          obtain ⟨htop, hbottom⟩ := Finset.mem_Ico.mp hy
          obtain ⟨hleft, hright⟩ := Finset.mem_Ico.mp hx
          exact h x y hleft hright htop hbottom
      _ = rect.area * value := rect.sum_const value
  unfold mean
  rw [hsum, Nat.mul_div_cancel_left _ rect.area_pos]

namespace Call

variable {call : Call width}

/-- Every tap of every scanned pixel reads one sample. -/
def TapsRead (call : Call width) (sample : Sample width) : Prop :=
  ∀ x y, call.ScansPixel x y → ∀ tap, call.tapSample? y (x - call.rect.left) tap = some sample

/-- Every degraded sample of the unit, which is averaged, and every degraded sample at a tap of a
scanned pixel is the same. -/
structure DegradedUniform (call : Call width) (sample : Sample width) : Prop where
  averaged_eq : ∀ x y, call.rect.left ≤ x → x < call.rect.right → call.rect.top ≤ y →
    y < call.rect.bottom → call.degraded.get? x y = some sample
  tap_eq : call.TapsRead sample

/-- Every tap of a scanned pixel reads the sample at its coordinates. -/
theorem Admissible.tapSample?_eq_tapAt (h : call.Admissible) {x y : Nat}
    (hpixel : call.ScansPixel x y) (tap : Fin call.window.taps) :
    call.tapSample? y (x - call.rect.left) tap =
      some (call.tapAt (call.window.tapRow tap) (call.window.tapColumn tap) x y) := by
  obtain ⟨column, hcolumn, rfl⟩ := Rect.exists_column hpixel.left_le hpixel.lt_right
  rw [Nat.add_sub_cancel_left]
  exact h.tapSample?_eq hpixel.top_le hpixel.lt_bottom hcolumn tap

/-- All taps read a sample whose value is the average exactly when none deviates from the
average. -/
theorem Admissible.tapsRead_iff (h : call.Admissible) {sample : Sample width}
    (haverage : call.degraded.mean call.rect = sample.val) :
    call.TapsRead sample ↔
      ∀ x y, call.ScansPixel x y → ∀ tap, call.tapDeviation tap x y = 0 := by
  refine forall₃_congr fun x y hpixel ↦ forall_congr' fun tap ↦ ?_
  rw [h.tapSample?_eq_tapAt hpixel, Option.some_inj, Fin.ext_iff]
  unfold tapDeviation
  rw [haverage]
  omega

/-- The average of a uniform unit is the value of its samples. -/
theorem DegradedUniform.mean_eq {sample : Sample width} (h : call.DegradedUniform sample)
    (hcall : call.Admissible) : call.degraded.mean call.rect = sample.val := by
  refine Patch.mean_of_uniform ?_
  intro x y hleft hright htop hbottom
  have hread := Patch.get?_eq hcall.lastDegraded_lt hright hbottom
  have hvalue := h.averaged_eq x y hleft hright htop hbottom
  rw [Option.some.inj (hread.symm.trans hvalue)]

/-- No degraded sample of a uniform unit deviates from the average. -/
theorem DegradedUniform.tapDeviation_eq_zero {sample : Sample width}
    (h : call.DegradedUniform sample) (hcall : call.Admissible) :
    ∀ x y, call.ScansPixel x y → ∀ tap, call.tapDeviation tap x y = 0 :=
  (hcall.tapsRead_iff (h.mean_eq hcall)).mp h.tap_eq

/-- The correlation of a tap with itself is zero exactly when the tap deviates from the average at
no scanned pixel. -/
theorem autoSum_self_eq_zero_iff {tap : Fin call.window.taps} :
    call.autoSum tap tap = 0 ↔
      ∀ x y, call.ScansPixel x y → call.tapDeviation tap x y = 0 := by
  rw [autoSum_self_eq]
  exact weightedSum_sq_eq_zero_iff

/-- Without deviations of the taps, a write of the coefficients on words leaves zero in every
entry. -/
theorem vanishesOn_of_tapDeviation {before after : Outputs}
    (hwrote : before.Wrote call.wordEquations after)
    (h : ∀ x y, call.ScansPixel x y → ∀ tap, call.tapDeviation tap x y = 0) :
    after.VanishesOn call.window := by
  have hdivided : (toSignedWord 0).tdiv (call.depth.divisor : Int) = 0 := Int.zero_tdiv _
  refine hwrote.vanishesOn ?_ ?_
  · intro tap
    have hsum : call.crossSum tap = 0 :=
      weightedSum_eq_zero fun x y hpixel ↦ by rw [h x y hpixel tap, zero_mul]
    rw [get_cross_wordEquations, hsum, hdivided]
  · intro first second
    have hsum : call.autoSum first second = 0 :=
      weightedSum_eq_zero fun x y hpixel ↦ by rw [h x y hpixel first, zero_mul]
    rw [get_auto_wordEquations, hsum, hdivided]

/-- The entry of two taps for 8-bit content is their total, if a signed word holds it. -/
theorem auto_wordEquations_eq_autoSum (hdepth : call.depth = .eight)
    {first second : Fin call.window.taps} (hfits : FitsWord (call.autoSum first second)) :
    call.wordEquations.auto.get (RowMajor.index first second) = call.autoSum first second := by
  rw [get_auto_wordEquations, hfits.toSignedWord_eq, hdepth]
  exact Int.tdiv_one _

/-- If words hold what an accepted run is made of, then it leaves zero in every entry when all
degraded samples that are read are the same, whatever the source samples are. Conversely, if signed
words also hold the totals on the diagonal and the run leaves a diagonal of zeros for 8-bit content,
then every tap of every scanned pixel reads the average of the unit, and every entry is zero. -/
theorem wordRun_vanishesOn (call : Call width) (outputs : Outputs) {method : Method}
    (haccepted : call.wordVerdict outputs.cross.size outputs.auto.size = .ok method)
    (hfits : call.FitsWords) :
    ∃ written, call.wordRun outputs = ⟨.done (), written, [call.logRecord method]⟩ ∧
      (∀ sample, call.DegradedUniform sample → written.VanishesOn call.window) ∧
      (call.depth = .eight → (∀ tap, FitsWord (call.autoSum tap tap)) →
        (∀ tap < call.window.taps, written.auto[tap * call.window.taps + tap]? = some 0) →
        (∃ average, call.degraded.wordAverage call.rect = .done average ∧
          call.TapsRead average) ∧ written.VanishesOn call.window) := by
  rw [hfits.wordVerdict_eq] at haccepted
  have hcall := (verdict_eq_ok_iff.mp haccepted).1
  have hwrote := Outputs.wrote_replace (hasRoom_of_verdict haccepted) call.wordEquations
  refine ⟨_, wordRun_of_ok haccepted hfits, ?_, ?_⟩
  · intro sample huniform
    exact vanishesOn_of_tapDeviation hwrote (huniform.tapDeviation_eq_zero hcall)
  · intro hdepth hsquares hdiagonal
    have hdeviation : ∀ x y, call.ScansPixel x y → ∀ tap, call.tapDeviation tap x y = 0 := by
      intro x y hpixel tap
      have hentry := (hwrote.auto_entry (RowMajor.index tap tap)).symm.trans
        (hdiagonal tap.val tap.isLt)
      rw [auto_wordEquations_eq_autoSum hdepth (hsquares tap)] at hentry
      exact autoSum_self_eq_zero_iff.mp (Option.some.inj hentry) x y hpixel
    refine ⟨⟨⟨call.degraded.mean call.rect, call.degraded.mean_lt_levels call.rect⟩, ?_, ?_⟩,
      vanishesOn_of_tapDeviation hwrote hdeviation⟩
    · rw [hfits.degraded.wordAverage_eq, Patch.average_eq,
        if_neg (Nat.not_le.mpr hcall.lastDegraded_lt)]
    · exact (hcall.tapsRead_iff rfl).mpr hdeviation

/-- A sparse call on 8-bit content whose unit and halo are grey. The samples between the rows of the
halo are not, and the source varies. -/
def greyChroma : Call .word :=
  { sparseChroma with
    degraded := {
      buffer := ((List.range 99).map fun i ↦
        Sample.truncate .word (if i % 11 < 7 then 60 else i)).toArray
      stride := 11
      origin := 24
      stride_pos := Nat.zero_lt_succ _
      origin_lt := by decide }
    depth := .eight
    options := ⟨true, .auto⟩ }

/-- All degraded samples that `greyChroma` reads are grey. -/
theorem degradedUniform_greyChroma :
    greyChroma.DegradedUniform (Sample.truncate .word 60) := by
  constructor
  case averaged_eq =>
    have hunit : ∀ x < 3, ∀ y < 5,
        greyChroma.degraded.get? x y = some (Sample.truncate .word 60) := by
      decide
    exact fun x y _ hright _ hbottom ↦ hunit x hright y hbottom
  case tap_eq =>
    have htaps : ∀ visit ∈ (RowScan.ofRows 0 5 true).toList, ∀ column < 3, ∀ tap,
        greyChroma.tapSample? visit.1 column tap = some (Sample.truncate .word 60) := by
      decide +kernel
    intro x y hpixel
    obtain ⟨weight, hvisit⟩ := hpixel.row_mem
    exact htaps (y, weight) hvisit x hpixel.lt_right

/-- The call `greyChroma` leaves zeros only, and its diagonal tells that every tap reads the
average. -/
theorem wordRun_vanishesOn_greyChroma :
    greyChroma.wordVerdict 25 625 = .ok .specialized ∧
    greyChroma.FitsWords ∧
    greyChroma.DegradedUniform (Sample.truncate .word 60) ∧
    (∀ tap, FitsWord (greyChroma.autoSum tap tap)) ∧
    ∃ written,
      greyChroma.wordRun ⟨Array.replicate 25 9, Array.replicate 625 9⟩ =
        ⟨.done (), written, [greyChroma.logRecord .specialized]⟩ ∧
      written.VanishesOn .chroma ∧
      ∃ average, greyChroma.degraded.wordAverage greyChroma.rect = .done average ∧
        greyChroma.TapsRead average := by
  have haccepted : greyChroma.wordVerdict 25 625 = .ok .specialized := by decide
  have hcall : greyChroma.Admissible :=
    (verdict_eq_ok_iff.mp (by decide : greyChroma.verdict 25 625 = .ok .specialized)).1
  have hfits : greyChroma.FitsWords := hcall.fitsWords (by decide) (by decide) (by decide)
  have hsquares : ∀ tap, FitsWord (greyChroma.autoSum tap tap) := by
    intro tap
    have hzero : greyChroma.autoSum tap tap = 0 :=
      autoSum_self_eq_zero_iff.mpr fun x y hpixel ↦
        degradedUniform_greyChroma.tapDeviation_eq_zero hcall x y hpixel tap
    rw [hzero]
    unfold FitsWord
    decide
  obtain ⟨written, hrun, huniform, hdiagonal⟩ := wordRun_vanishesOn greyChroma
    ⟨Array.replicate 25 9, Array.replicate 625 9⟩ (by simpa using haccepted) hfits
  have hzero := huniform _ degradedUniform_greyChroma
  have hread := hdiagonal rfl hsquares fun tap htap ↦
    hzero.auto_pair _ (RowMajor.index ⟨tap, htap⟩ ⟨tap, htap⟩).isLt
  exact ⟨haccepted, hfits, degradedUniform_greyChroma, hsquares, written, hrun, hzero, hread.1⟩

/-! ## Indices and totals that words do not hold -/

/-- A call whose stride is half the range of words, so that the taps of every second row lie far
outside the buffer. All its degraded samples are one grey. -/
def foldedCall : Call .byte where
  window := .chroma
  degraded := {
    buffer := Array.replicate 5 (Sample.truncate .byte 7)
    stride := 2 ^ 63
    origin := 2
    stride_pos := by decide
    origin_lt := by decide }
  source := {
    buffer := #[Sample.truncate .byte 1]
    stride := 1
    origin := 0
    stride_pos := Nat.zero_lt_succ _
    origin_lt := Nat.zero_lt_succ _ }
  rect := ⟨0, 1, 0, 1, Nat.zero_lt_succ _, Nat.zero_lt_succ _⟩
  depth := .eight
  options := ⟨false, .auto⟩

/-- Black and grey in turn, up to the last sample that `stripedCall` reads. -/
@[irreducible] def stripes : Array (Sample .word) :=
  Array.ofFn fun index : Fin 524295 ↦ Sample.truncate .word (index.val % 2 * 2 ^ 15)

/-- The number of samples of `stripes`. -/
theorem size_stripes : stripes.size = 524295 := by
  unfold stripes
  exact Array.size_ofFn

/-- The samples of `stripes`. -/
theorem getElem?_stripes {index : Nat} (h : index < 524295) :
    stripes[index]? = some (Sample.truncate .word (index % 2 * 2 ^ 15)) := by
  unfold stripes
  rw [Array.getElem?_ofFn, dif_pos h]

/-- A call on a unit of `2 ^ 36` pixels. With a stride of one, each row has all samples of the row
before it but one, so the buffers are small. -/
def stripedCall : Call .word where
  window := .chroma
  degraded := {
    buffer := stripes
    stride := 1
    origin := 4
    stride_pos := Nat.zero_lt_succ _
    origin_lt := by rw [size_stripes]; decide }
  source := {
    buffer := stripes
    stride := 1
    origin := 0
    stride_pos := Nat.zero_lt_succ _
    origin_lt := by rw [size_stripes]; decide }
  rect := ⟨0, 2 ^ 18, 0, 2 ^ 18, by decide, by decide⟩
  depth := .eight
  options := ⟨false, .auto⟩

/-- The halo of `stripedCall` lies in the degraded buffer. -/
theorem admissible_stripedCall : stripedCall.Admissible where
  depth_le := by decide
  left_even := by decide
  width_le := by decide
  reach_le := by decide
  lastTap_lt := by
    show stripedCall.lastTap < stripes.size
    rw [size_stripes]
    decide
  lastPixel_lt := by
    show stripedCall.source.lastIndex stripedCall.rect < stripes.size
    rw [size_stripes]
    decide

/-- The taps of `stripedCall` read black and grey in turn. -/
theorem val_tapAt_stripedCall {x y r c : Nat} (hx : x < 2 ^ 18) (hy : y < 2 ^ 18) (hr : r < 5)
    (hc : c < 5) : (stripedCall.tapAt r c x y).val = (x + y + r + c) % 2 * 2 ^ 15 := by
  obtain ⟨index, hindex, hread⟩ :=
    admissible_stripedCall.exists_index_tapAt (Nat.zero_le x) hx (Nat.zero_le y) hy hr hc
  rw [show stripedCall.reach = 4 by decide, Patch.index,
    show stripedCall.degraded.origin = 4 from rfl,
    show stripedCall.degraded.stride = 1 from rfl] at hindex
  obtain rfl : index = x + y + r + c := by omega
  have hvalue := hread.symm.trans (getElem?_stripes (by omega))
  rw [Option.some.inj hvalue]
  exact Nat.mod_eq_of_lt (show (x + y + r + c) % 2 * 2 ^ 15 < 2 ^ 16 by omega)

/-- Every second one of consecutive numbers is odd. -/
theorem sum_mod_two (start n : Nat) : ∑ x ∈ Finset.Ico 0 (2 * n), (x + start) % 2 = n := by
  rw [← Finset.range_eq_Ico]
  induction n with
  | zero => rfl
  | succ n ih =>
      rw [Nat.mul_succ, Finset.sum_range_succ, Finset.sum_range_succ, ih]
      omega

/-- The average of the unit of `stripedCall` is halfway between black and grey, so it is no sample
of the unit. -/
theorem mean_stripedCall : stripedCall.degraded.mean stripedCall.rect = 2 ^ 14 := by
  have hsample : ∀ x y : Nat, x < 2 ^ 18 → y < 2 ^ 18 →
      (stripedCall.degraded.sampleAt x y).val = (x + y) % 2 * 2 ^ 15 := by
    intro x y hx hy
    have hcentre := val_tapAt_stripedCall hx hy (by decide : 2 < 5) (by decide : 2 < 5)
    rw [← tapAt_halo]
    refine hcentre.trans ?_
    omega
  have hsum : stripedCall.degraded.unitSum stripedCall.rect = 2 ^ 50 := by
    calc stripedCall.degraded.unitSum stripedCall.rect
        = ∑ y ∈ Finset.Ico 0 (2 ^ 18), ∑ x ∈ Finset.Ico 0 (2 * 2 ^ 17),
            (x + y) % 2 * 2 ^ 15 := by
          refine Finset.sum_congr rfl fun y hy ↦ Finset.sum_congr rfl fun x hx ↦ ?_
          exact hsample x y (Finset.mem_Ico.mp hx).2 (Finset.mem_Ico.mp hy).2
      _ = ∑ _y ∈ Finset.Ico 0 (2 ^ 18), 2 ^ 17 * 2 ^ 15 := by
          refine Finset.sum_congr rfl fun y _ ↦ ?_
          rw [← Finset.sum_mul, sum_mod_two]
      _ = 2 ^ 50 := by
          rw [Finset.sum_const, Nat.card_Ico]
          rfl
  rw [Patch.mean, hsum]
  rfl

/-- Black and grey deviate from their average by the same amount. -/
theorem sq_tapDeviation_stripedCall {x y : Nat} (h : stripedCall.ScansPixel x y)
    (tap : Fin stripedCall.window.taps) : stripedCall.tapDeviation tap x y ^ 2 = 2 ^ 28 := by
  have hvalue := val_tapAt_stripedCall h.lt_right h.lt_bottom
    (stripedCall.window.tapRow_lt tap) (stripedCall.window.tapColumn_lt tap)
  unfold tapDeviation
  rw [hvalue, mean_stripedCall]
  rcases Nat.mod_two_eq_zero_or_one (x + y + stripedCall.window.tapRow tap +
    stripedCall.window.tapColumn tap) with hblack | hgrey
  · rw [hblack]
    rfl
  · rw [hgrey]
    rfl

/-- The correlation of a tap of `stripedCall` with itself is one more than the largest word. -/
theorem autoSum_stripedCall (tap : Fin stripedCall.window.taps) :
    stripedCall.autoSum tap tap = 2 ^ 64 := by
  have hpixels : (stripedCall.weightedSum fun _ _ ↦ 1) = 2 ^ 36 := by
    have hone := stripedCall.total_observations_one
    rw [total_observations] at hone
    exact hone
  calc stripedCall.autoSum tap tap
      = stripedCall.weightedSum fun _ _ ↦ 2 ^ 28 * 1 := by
        rw [autoSum_self_eq]
        exact weightedSum_congr fun x y hpixel ↦ sq_tapDeviation_stripedCall hpixel tap
    _ = 2 ^ 28 * 2 ^ 36 := by
        rw [weightedSum_mul_left, hpixels]
    _ = 2 ^ 64 := rfl

/-- Words hold what `stripedCall` is made of, its totals apart. -/
theorem fitsWords_stripedCall : stripedCall.FitsWords := by
  refine admissible_stripedCall.fitsWords ?_ ?_ (by decide)
  · exact size_stripes.trans_le (by decide)
  · exact size_stripes.trans_le (by decide)

/-- Although every degraded sample of `foldedCall` is one grey and the call is accepted, its run is
cut short, because a tap lies outside the buffer. The run of `stripedCall` leaves a diagonal of
zeros, although no tap reads the average. -/
theorem wordRun_foldedCall_stripedCall :
    (foldedCall.wordVerdict 25 625 = .ok .specialized ∧
      (∀ sample ∈ foldedCall.degraded.buffer, sample = Sample.truncate .byte 7) ∧
      (foldedCall.wordRun ⟨Array.replicate 25 9, Array.replicate 625 9⟩).outcome = .outside) ∧
    stripedCall.depth = .eight ∧
    stripedCall.wordVerdict 25 625 = .ok .specialized ∧
    (∃ written,
      stripedCall.wordRun ⟨Array.replicate 25 9, Array.replicate 625 9⟩ =
        ⟨.done (), written, [stripedCall.logRecord .specialized]⟩ ∧
      ∀ tap < 25, written.auto[tap * 25 + tap]? = some 0) ∧
    stripedCall.degraded.wordAverage stripedCall.rect = .done (Sample.truncate .word (2 ^ 14)) ∧
    ¬ stripedCall.TapsRead (Sample.truncate .word (2 ^ 14)) := by
  have haccepted : stripedCall.verdict 25 625 = .ok .specialized :=
    verdict_eq_ok_iff.mpr ⟨admissible_stripedCall, by decide, by decide, rfl⟩
  have hroom : stripedCall.verdict (Array.replicate 25 (9 : Int)).size
      (Array.replicate 625 (9 : Int)).size = .ok .specialized := by
    rw [Array.size_replicate, Array.size_replicate, haccepted]
  refine ⟨⟨by decide, ?_, by decide +kernel⟩, rfl, ?_,
    ⟨_, @wordRun_of_ok _ _ ⟨Array.replicate 25 9, Array.replicate 625 9⟩ _ hroom
      fitsWords_stripedCall, ?_⟩, ?_, ?_⟩
  · intro sample hsample
    exact (Array.mem_replicate.mp hsample).2
  · rw [fitsWords_stripedCall.wordVerdict_eq, haccepted]
  · intro tap htap
    have hwrote := @Outputs.wrote_replace _ ⟨Array.replicate 25 9, Array.replicate 625 9⟩
      (hasRoom_of_verdict hroom) stripedCall.wordEquations
    refine (hwrote.auto_entry (RowMajor.index ⟨tap, htap⟩ ⟨tap, htap⟩)).trans (congrArg some ?_)
    rw [get_auto_wordEquations, autoSum_stripedCall]
    decide
  · rw [fitsWords_stripedCall.degraded.wordAverage_eq, Patch.average_eq,
      if_neg (Nat.not_le.mpr admissible_stripedCall.lastDegraded_lt)]
    exact congrArg Outcome.done (Fin.ext mean_stripedCall)
  · intro hread
    have hdeviation := (admissible_stripedCall.tapsRead_iff mean_stripedCall).mp hread
    have hzero : stripedCall.autoSum ⟨0, by decide⟩ ⟨0, by decide⟩ = 0 :=
      autoSum_self_eq_zero_iff.mpr fun x y hpixel ↦ hdeviation x y hpixel _
    rw [autoSum_stripedCall] at hzero
    exact absurd hzero (by decide)

end Call

end WienerRegression
