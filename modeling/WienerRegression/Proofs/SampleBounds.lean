import WienerRegression.Proofs.Runs

/-!
# Bounded samples

The samples that a call reads may all stay within a bound: the largest value of the content, or that
of the storage format. Then so does their average, every deviation from the average stays within
the bound too, and no product of two deviations exceeds its square
(`CenteredSums.abs_mul_deviation_le`).
-/

namespace WienerRegression

variable {width : SampleWidth}

namespace Patch

/-- A sample of a patch is within a bound if all samples of the buffer are. -/
theorem val_sampleAt_le {patch : Patch width} {bound : Nat}
    (h : ∀ sample ∈ patch.buffer, sample.val ≤ bound) (x y : Int) :
    (patch.sampleAt x y).val ≤ bound := by
  unfold sampleAt
  split
  · next index hindex =>
      unfold Array.getD
      split
      · exact h _ (Array.getElem_mem _)
      · exact Nat.zero_le _
  · exact Nat.zero_le _

end Patch

/-- The source sample and all degraded samples of an observation are within a bound. -/
structure Observation.AtMost {window : Window} (pixel : Observation width window) (bound : Nat) :
    Prop where
  source_le : pixel.source.val ≤ bound
  tap_le : ∀ tap, (pixel.tap tap).val ≤ bound

/-- A sample is no further from the average than the bound on both. -/
theorem CenteredSums.abs_deviation_le {average bound : Nat} {sample : Sample width}
    (haverage : average ≤ bound) (hsample : sample.val ≤ bound) :
    |deviation average sample| ≤ (bound : Int) := by
  unfold deviation
  rw [abs_le]
  omega

/-- The product of two deviations is within the square of the bound. -/
theorem CenteredSums.abs_mul_deviation_le {average bound : Nat} {left right : Sample width}
    (haverage : average ≤ bound) (hleft : left.val ≤ bound) (hright : right.val ≤ bound) :
    |deviation average left * deviation average right| ≤ (bound : Int) * bound := by
  rw [abs_mul]
  exact mul_le_mul (abs_deviation_le haverage hleft) (abs_deviation_le haverage hright)
    (abs_nonneg _) (Int.natCast_nonneg _)

namespace Call

variable {call : Call width}

/-- All samples that a call reads are within a bound: the degraded samples of the unit, which are
averaged, and the taps and the source samples of the rows that are scanned. -/
structure ReadsAtMost (call : Call width) (bound : Nat) : Prop where
  averaged_le : ∀ x y, call.rect.left ≤ x → x < call.rect.right → call.rect.top ≤ y →
    y < call.rect.bottom → (call.degraded.sampleAt x y).val ≤ bound
  tap_le : ∀ visit ∈ (RowScan.ofRect call.rect call.options.sparse).toList,
    ∀ x, call.rect.left ≤ x → x < call.rect.right →
      ∀ r < call.window.side, ∀ c < call.window.side, (call.tapAt r c x visit.1).val ≤ bound
  source_le : ∀ visit ∈ (RowScan.ofRect call.rect call.options.sparse).toList,
    ∀ x, call.rect.left ≤ x → x < call.rect.right → (call.source.sampleAt x visit.1).val ≤ bound

/-- The samples of the unit are within a bound: every source sample, and every degraded sample at a
tap of one of its pixels. The centre tap of a pixel is its own degraded sample. -/
structure SamplesAtMost (call : Call width) (bound : Nat) : Prop where
  tap_le : ∀ x y, call.rect.left ≤ x → x < call.rect.right → call.rect.top ≤ y →
    y < call.rect.bottom → ∀ r < call.window.side, ∀ c < call.window.side,
      (call.tapAt r c x y).val ≤ bound
  source_le : ∀ x y, call.rect.left ≤ x → x < call.rect.right → call.rect.top ≤ y →
    y < call.rect.bottom → (call.source.sampleAt x y).val ≤ bound

/-- The centre tap of a pixel is its own degraded sample. -/
theorem tapAt_halo (call : Call width) (x y : Nat) :
    call.tapAt call.window.halo call.window.halo x y = call.degraded.sampleAt x y := by
  unfold tapAt
  rw [Int.add_sub_cancel, Int.add_sub_cancel]

/-- A call reads samples of its unit only. -/
theorem SamplesAtMost.readsAtMost {bound : Nat} (h : call.SamplesAtMost bound) :
    call.ReadsAtMost bound where
  averaged_le := by
    intro x y hleft hright htop hbottom
    have hhalo : call.window.halo < call.window.side := by
      have := call.window.side_eq
      omega
    rw [← tapAt_halo]
    exact h.tap_le x y hleft hright htop hbottom _ hhalo _ hhalo
  tap_le := by
    intro visit hvisit x hleft hright
    obtain ⟨htop, hbottom⟩ := RowScan.row_mem_ofRect hvisit
    exact h.tap_le x visit.1 hleft hright htop hbottom
  source_le := by
    intro visit hvisit x hleft hright
    obtain ⟨htop, hbottom⟩ := RowScan.row_mem_ofRect hvisit
    exact h.source_le x visit.1 hleft hright htop hbottom

/-- The samples of the unit are within a bound that holds for all samples of both buffers. -/
theorem samplesAtMost_of_buffers {bound : Nat}
    (hdegraded : ∀ sample ∈ call.degraded.buffer, sample.val ≤ bound)
    (hsource : ∀ sample ∈ call.source.buffer, sample.val ≤ bound) : call.SamplesAtMost bound where
  tap_le := fun _ _ _ _ _ _ _ _ _ _ ↦ Patch.val_sampleAt_le hdegraded _ _
  source_le := fun x y _ _ _ _ ↦ Patch.val_sampleAt_le hsource x y

/-- No sample exceeds the largest value of its storage format. -/
theorem samplesAtMost_levels (call : Call width) : call.SamplesAtMost (width.levels - 1) :=
  samplesAtMost_of_buffers (fun sample _ ↦ Nat.le_sub_one_of_lt sample.isLt)
    fun sample _ ↦ Nat.le_sub_one_of_lt sample.isLt

/-- A larger bound holds as well. -/
theorem SamplesAtMost.mono {bound larger : Nat} (h : call.SamplesAtMost bound)
    (hle : bound ≤ larger) : call.SamplesAtMost larger where
  tap_le := fun x y hleft hright htop hbottom r hr c hc ↦
    Nat.le_trans (h.tap_le x y hleft hright htop hbottom r hr c hc) hle
  source_le := fun x y hleft hright htop hbottom ↦
    Nat.le_trans (h.source_le x y hleft hright htop hbottom) hle

/-- The samples of `sparseChroma` are remainders modulo 101 and 89. -/
theorem samplesAtMost_sparseChroma : sparseChroma.SamplesAtMost 100 := by
  refine samplesAtMost_of_buffers ?_ ?_
  · intro sample hsample
    obtain ⟨i, -, rfl⟩ := List.mem_map.mp (List.mem_toArray.mp hsample)
    have : i * i % 101 < 101 := Nat.mod_lt _ (by decide)
    rw [Sample.val_truncate, SampleWidth.levels]
    omega
  · intro sample hsample
    obtain ⟨i, -, rfl⟩ := List.mem_map.mp (List.mem_toArray.mp hsample)
    have : i * i % 89 < 89 := Nat.mod_lt _ (by decide)
    rw [Sample.val_truncate, SampleWidth.levels]
    omega

namespace ReadsAtMost

variable {bound : Nat}

/-- The average is within the bound on the samples. -/
theorem mean_le (h : call.ReadsAtMost bound) : call.degraded.mean call.rect ≤ bound :=
  Patch.mean_le h.averaged_le

/-- Every observation is within the bound on the samples. -/
theorem observation_atMost (h : call.ReadsAtMost bound) :
    ∀ row ∈ call.observations, ∀ pixel ∈ row.pixels, pixel.AtMost bound := by
  intro row hrow pixel hpixel
  obtain ⟨visit, hvisit, rfl⟩ := List.mem_map.mp hrow
  obtain ⟨x, hx, rfl⟩ := List.mem_map.mp hpixel
  obtain ⟨hleft, hright⟩ := List.mem_range'_1.mp hx
  have hright : x < call.rect.right := by
    have := call.rect.left_lt_right
    unfold Rect.width at hright
    omega
  refine ⟨h.source_le visit hvisit x hleft hright, ?_⟩
  intro tap
  unfold observationAt Observation.tap
  rw [Entries.get_ofFn]
  exact h.tap_le visit hvisit x hleft hright _ (call.window.tapRow_lt tap) _
    (call.window.tapColumn_lt tap)

end ReadsAtMost

end Call

end WienerRegression
