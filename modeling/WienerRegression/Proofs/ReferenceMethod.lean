import Mathlib.Algebra.BigOperators.Ring.List
import Mathlib.Tactic.Ring
import WienerRegression.CenteredSums
import WienerRegression.Proofs.WeightedTotals

/-!
# What the reference method accumulates

The loops of the reference method are followed from the innermost outwards. A pixel adds its
weighted products to every entry of the vector and to the entries of the matrix on and above the
diagonal. After all rows such an entry has grown by the weighted total of its products, and the
reflection gives the entries below the diagonal the same totals with the taps exchanged. The main
statement is `accumulate_eq`: the method leaves the divided totals in every entry, whatever the
storage held before.
-/

namespace WienerRegression

namespace CenteredSums

variable {width : SampleWidth} {window : Window}

/-- A fold that adds a term to a part of its state in every pass adds the sum of the terms. -/
theorem foldl_adds_sum {σ β : Type} {pass : σ → β → σ} (part : σ → Int) (term : β → Int)
    (hpass : ∀ state item, part (pass state item) = part state + term item) (items : List β)
    (start : σ) : part (items.foldl pass start) = part start + (items.map term).sum := by
  induction items generalizing start with
  | nil => simp
  | cons head rest ih =>
      rw [List.foldl_cons, ih, hpass, List.map_cons, List.sum_cons, Int.add_assoc]

/-- The deviations of the taps of a pixel are those of its samples. -/
theorem get_deviations (average : Int) (pixel : Observation width window)
    (tap : Fin window.taps) :
    (pixel.taps.map (deviation average)).get tap = deviation average (pixel.tap tap) := by
  simp [Observation.tap, Vector.get]

/-- The products of one tap go to the entries of its row on and right of the diagonal. -/
theorem get_addTapPairs (deviations : Vector Int window.taps) (weighted : Int)
    (first : Fin window.taps) (auto : Vector Int (window.taps * window.taps))
    (entry : Fin (window.taps * window.taps)) :
    (addTapPairs deviations weighted first auto).get entry =
      if RowMajor.row entry = first ∧ first ≤ RowMajor.column entry then
        auto.get entry + weighted * deviations.get (RowMajor.column entry)
      else auto.get entry := by
  -- after some passes, as many entries right of the diagonal have their products
  have hloop : (addTapPairs deviations weighted first auto).get entry =
      if RowMajor.row entry = first ∧ first.val ≤ (RowMajor.column entry).val ∧
          (RowMajor.column entry).val < first.val + (window.taps - first.val) then
        auto.get entry + weighted * deviations.get (RowMajor.column entry)
      else auto.get entry := by
    refine Entries.foldl_invariant
      (fun passes (state : Vector Int (window.taps * window.taps)) ↦ state.get entry =
        if RowMajor.row entry = first ∧ first.val ≤ (RowMajor.column entry).val ∧
            (RowMajor.column entry).val < first.val + passes then
          auto.get entry + weighted * deviations.get (RowMajor.column entry)
        else auto.get entry) ?_ ?_
    · rw [if_neg (by omega)]
    · intro offset state hstate
      rw [Entries.add, Entries.get_update, hstate]
      by_cases hentry : RowMajor.index first ⟨first.val + offset.val, by omega⟩ = entry
      · obtain ⟨hrow, hcolumn⟩ := RowMajor.index_eq_iff.mp hentry
        have hval : (RowMajor.column entry).val = first.val + offset.val :=
          congrArg Fin.val hcolumn
        rw [if_pos hentry, if_neg (by omega), if_pos (by omega), hcolumn]
      · rw [if_neg hentry]
        have hother : ¬ (RowMajor.row entry = first ∧
            (RowMajor.column entry).val = first.val + offset.val) := fun h ↦
          hentry (RowMajor.index_eq_iff.mpr ⟨h.1, Fin.ext h.2⟩)
        congr 1
        exact propext (by omega)
  have hcolumn := (RowMajor.column entry).isLt
  rw [hloop]
  congr 1
  rw [Fin.le_def]
  exact propext (by omega)

/-- A pixel adds the weighted product of each tap with the source. -/
theorem get_cross_addPixel (average weight : Int) (totals : Statistics window)
    (pixel : Observation width window) (tap : Fin window.taps) :
    (addPixel average weight totals pixel).cross.get tap =
      totals.cross.get tap +
        weight * (deviation average (pixel.tap tap) * deviation average pixel.source) := by
  have hcross : (addPixel average weight totals pixel).cross =
      Fin.foldl window.taps (fun cross tap ↦ Entries.add cross tap
        (weight * (pixel.taps.map (deviation average)).get tap * deviation average pixel.source))
        totals.cross :=
    Entries.map_foldl Statistics.cross (fun _ _ ↦ rfl) totals
  have hloop := Entries.get_foldl_update (fun tap total ↦ total + weight *
    (pixel.taps.map (deviation average)).get tap * deviation average pixel.source)
    totals.cross tap
  rw [get_deviations, Int.mul_assoc] at hloop
  rw [hcross]
  exact hloop

/-- A pixel adds the weighted product of each tap with itself and with each tap after it. -/
theorem get_auto_addPixel (average weight : Int) (totals : Statistics window)
    (pixel : Observation width window) (entry : Fin (window.taps * window.taps)) :
    (addPixel average weight totals pixel).auto.get entry =
      if RowMajor.row entry ≤ RowMajor.column entry then
        totals.auto.get entry + weight * (deviation average (pixel.tap (RowMajor.row entry)) *
          deviation average (pixel.tap (RowMajor.column entry)))
      else totals.auto.get entry := by
  have hauto : (addPixel average weight totals pixel).auto =
      Fin.foldl window.taps (fun auto tap ↦ addTapPairs (pixel.taps.map (deviation average))
        (weight * (pixel.taps.map (deviation average)).get tap) tap auto) totals.auto :=
    Entries.map_foldl Statistics.auto (fun _ _ ↦ rfl) totals
  rw [hauto, Entries.get_foldl RowMajor.row (fun entry total ↦
    if RowMajor.row entry ≤ RowMajor.column entry then
      total + weight * (pixel.taps.map (deviation average)).get (RowMajor.row entry) *
        (pixel.taps.map (deviation average)).get (RowMajor.column entry)
    else total)]
  · rw [get_deviations, get_deviations, Int.mul_assoc]
  · intro first auto entry
    rw [get_addTapPairs]
    by_cases hrow : RowMajor.row entry = first
    · subst hrow
      simp only [true_and, if_true]
    · rw [if_neg hrow, if_neg fun h ↦ hrow h.1]

/-- A row adds the weighted products of its pixels with the source. -/
theorem get_cross_addRow (average : Int) (totals : Statistics window)
    (row : WeightedRow width window) (tap : Fin window.taps) :
    (addRow average totals row).cross.get tap = totals.cross.get tap +
      row.weight * (row.pixels.map fun pixel ↦
        deviation average (pixel.tap tap) * deviation average pixel.source).sum := by
  have hpixels := foldl_adds_sum (fun totals : Statistics window ↦ totals.cross.get tap) _
    (fun totals pixel ↦ get_cross_addPixel average row.weight totals pixel tap) row.pixels totals
  rw [List.sum_map_mul_left] at hpixels
  exact hpixels

/-- A row adds the weighted products of the taps of its pixels to each entry on or above the
diagonal. -/
theorem get_auto_addRow (average : Int) (totals : Statistics window)
    (row : WeightedRow width window) (entry : Fin (window.taps * window.taps))
    (hentry : RowMajor.row entry ≤ RowMajor.column entry) :
    (addRow average totals row).auto.get entry = totals.auto.get entry +
      row.weight * (row.pixels.map fun pixel ↦
        deviation average (pixel.tap (RowMajor.row entry)) *
          deviation average (pixel.tap (RowMajor.column entry))).sum := by
  have hpixels := foldl_adds_sum (fun totals : Statistics window ↦ totals.auto.get entry) _
    (fun totals pixel ↦
      (get_auto_addPixel average row.weight totals pixel entry).trans (if_pos hentry))
    row.pixels totals
  rw [List.sum_map_mul_left] at hpixels
  exact hpixels

/-- The rows add the weighted total of the products of each tap with the source. -/
theorem get_cross_foldl (average : Int) (totals : Statistics window)
    (rows : List (WeightedRow width window)) (tap : Fin window.taps) :
    (rows.foldl (addRow average) totals).cross.get tap = totals.cross.get tap +
      WeightedRow.total rows fun pixel ↦
        deviation average (pixel.tap tap) * deviation average pixel.source :=
  foldl_adds_sum (fun totals : Statistics window ↦ totals.cross.get tap) _
    (fun totals row ↦ get_cross_addRow average totals row tap) rows totals

/-- The rows add the weighted total of the products of two taps to each entry on or above the
diagonal. -/
theorem get_auto_foldl (average : Int) (totals : Statistics window)
    (rows : List (WeightedRow width window)) (entry : Fin (window.taps * window.taps))
    (hentry : RowMajor.row entry ≤ RowMajor.column entry) :
    (rows.foldl (addRow average) totals).auto.get entry = totals.auto.get entry +
      WeightedRow.total rows fun pixel ↦
        deviation average (pixel.tap (RowMajor.row entry)) *
          deviation average (pixel.tap (RowMajor.column entry)) :=
  foldl_adds_sum (fun totals : Statistics window ↦ totals.auto.get entry) _
    (fun totals row ↦ get_auto_addRow average totals row entry hentry) rows totals

/-- Reflecting a row copies its entries left of the diagonal from their transposed positions. -/
theorem get_reflectRow (auto : Vector Int (window.taps * window.taps)) (row : Fin window.taps)
    (entry : Fin (window.taps * window.taps)) :
    (reflectRow auto row).get entry =
      if RowMajor.row entry = row ∧ RowMajor.column entry < row then
        auto.get (RowMajor.transpose entry)
      else auto.get entry := by
  refine Entries.foldl_invariant
    (fun passes (state : Vector Int (window.taps * window.taps)) ↦ ∀ entry, state.get entry =
      if RowMajor.row entry = row ∧ (RowMajor.column entry).val < passes then
        auto.get (RowMajor.transpose entry)
      else auto.get entry) ?_ ?_ entry
  · intro entry
    rw [if_neg (by omega)]
  · intro column state hstate entry
    have hlt : column.val < window.taps := Nat.lt_trans column.isLt row.isLt
    -- the entry above the diagonal that the pass reads is still the one it was before the loop
    have hread : state.get (RowMajor.index ⟨column.val, hlt⟩ row) =
        auto.get (RowMajor.index ⟨column.val, hlt⟩ row) := by
      rw [hstate, RowMajor.row_index, if_neg]
      rintro ⟨hrow, -⟩
      exact absurd (congrArg Fin.val hrow) (Nat.ne_of_lt column.isLt)
    show (state.set (RowMajor.index row ⟨column.val, hlt⟩)
      (state.get (RowMajor.index ⟨column.val, hlt⟩ row))).get entry = _
    rw [Entries.get_set, hread, hstate]
    by_cases hentry : RowMajor.index row ⟨column.val, hlt⟩ = entry
    · obtain ⟨hrow, hcolumn⟩ := RowMajor.index_eq_iff.mp hentry
      rw [if_pos hentry, RowMajor.transpose, hrow, hcolumn, if_pos ⟨rfl, Nat.lt_succ_self _⟩]
    · rw [if_neg hentry]
      have hother : ¬ (RowMajor.row entry = row ∧ (RowMajor.column entry).val = column.val) :=
        fun h ↦ hentry (RowMajor.index_eq_iff.mpr ⟨h.1, Fin.ext h.2⟩)
      congr 1
      exact propext (by omega)

/-- The reflection copies the entries below the diagonal from their transposed positions. -/
theorem get_reflect (auto : Vector Int (window.taps * window.taps))
    (entry : Fin (window.taps * window.taps)) :
    (reflect auto).get entry =
      if RowMajor.column entry < RowMajor.row entry then auto.get (RowMajor.transpose entry)
      else auto.get entry := by
  have hloop : (reflect auto).get entry =
      if RowMajor.column entry < RowMajor.row entry ∧ (RowMajor.row entry).val < window.taps then
        auto.get (RowMajor.transpose entry)
      else auto.get entry := by
    refine Entries.foldl_invariant
      (fun passes (state : Vector Int (window.taps * window.taps)) ↦ ∀ entry, state.get entry =
        if RowMajor.column entry < RowMajor.row entry ∧ (RowMajor.row entry).val < passes then
          auto.get (RowMajor.transpose entry)
        else auto.get entry) ?_ ?_ entry
    · intro entry
      rw [if_neg (by omega)]
    · intro row state hstate entry
      rw [get_reflectRow, hstate, hstate, RowMajor.row_transpose, RowMajor.column_transpose]
      by_cases hrow : RowMajor.row entry = row
      · subst hrow
        -- the transposed entry lies above the diagonal, where no pass has written
        by_cases hbelow : RowMajor.column entry < RowMajor.row entry
        · rw [if_pos ⟨rfl, hbelow⟩, if_neg fun h ↦ Fin.lt_asymm hbelow h.1,
            if_pos ⟨hbelow, Nat.lt_succ_self _⟩]
        · rw [if_neg fun h ↦ hbelow h.2, if_neg fun h ↦ hbelow h.1, if_neg fun h ↦ hbelow h.1]
      · rw [if_neg fun h ↦ hrow h.1]
        have hother : (RowMajor.row entry).val ≠ row.val := fun h ↦ hrow (Fin.ext h)
        congr 1
        exact propext (by omega)
  rw [hloop]
  congr 1
  exact propext (and_iff_left (RowMajor.row entry).isLt)

/-- Scaling divides every entry, also where the divisor is 1 and nothing is done. -/
theorem scale_eq (depth : BitDepth) (totals : Statistics window) :
    (∀ tap, (scale depth totals).cross.get tap = (totals.cross.get tap).tdiv depth.divisor) ∧
    ∀ entry, (scale depth totals).auto.get entry = (totals.auto.get entry).tdiv depth.divisor := by
  unfold scale
  split
  · simp [Vector.get]
  · next h =>
      have hone : depth.divisor = 1 := by
        cases depth with
        | eight => rfl
        | ten => exact absurd (by decide) h
        | twelve => exact absurd (by decide) h
      simp [hone]

/-- The method leaves the divided weighted total of its products in every entry, whatever the
storage held before. -/
theorem accumulate_eq (depth : BitDepth) (average : Int) (rows : List (WeightedRow width window))
    (storage : Statistics window) :
    (∀ tap, (accumulate depth average rows storage).cross.get tap =
      (WeightedRow.total rows fun pixel ↦
        deviation average (pixel.tap tap) * deviation average pixel.source).tdiv depth.divisor) ∧
    ∀ entry, (accumulate depth average rows storage).auto.get entry =
      (WeightedRow.total rows fun pixel ↦
        deviation average (pixel.tap (RowMajor.row entry)) *
          deviation average (pixel.tap (RowMajor.column entry))).tdiv depth.divisor := by
  have hclear : (∀ tap, (clear storage).cross.get tap = 0) ∧
      ∀ entry, (clear storage).auto.get entry = 0 := by
    simp [clear, Vector.get]
  unfold accumulate
  refine ⟨?_, ?_⟩
  -- what the storage held is cleared before the rows are added
  · intro tap
    rw [(scale_eq _ _).1, get_cross_foldl, hclear.1, Int.zero_add]
  · intro entry
    rw [(scale_eq _ _).2, get_reflect]
    split
    -- below the diagonal stands the transposed entry, with its two factors exchanged
    · next hbelow =>
        rw [get_auto_foldl, hclear.2, Int.zero_add, RowMajor.row_transpose,
          RowMajor.column_transpose]
        · simp only [Int.mul_comm]
        · rw [RowMajor.row_transpose, RowMajor.column_transpose]
          exact Fin.le_of_lt hbelow
    · next habove =>
        rw [get_auto_foldl _ _ _ _ (Fin.not_lt.mp habove), hclear.2, Int.zero_add]

end CenteredSums

end WienerRegression
