import Mathlib.Data.List.FinRange
import WienerRegression.Proofs.ReferenceMethod

/-!
# The additions of the reference method

The loops of the reference method make one addition after the other, each of one term to one entry
of the statistics. `additions` lists them in the order in which they are made, and
`foldl_additions` says that the loops make these additions and no others. What an entry is after any
number of them is at most the sum of the magnitudes that are added to it in all
(`abs_entryAt_foldl_take_le`). This is what bounds the running totals: the sum of the terms
themselves says nothing about the values on the way to it.
-/

namespace WienerRegression

/-- The place of an entry in the statistics. -/
inductive Statistics.Place (window : Window) where
  /-- The entry of a tap in the vector. -/
  | cross (tap : Fin window.taps)
  /-- An entry of the matrix. -/
  | auto (entry : Fin (window.taps * window.taps))
  deriving DecidableEq

/-- The tap that a place belongs to: that of the vector entry, or the first of the two of the matrix
entry. -/
def Statistics.Place.tap {window : Window} : Place window → Fin window.taps
  | .cross tap => tap
  | .auto entry => RowMajor.row entry

/-- The entry at a place. -/
def Statistics.entryAt {window : Window} (statistics : Statistics window) : Place window → Int
  | .cross tap => statistics.cross.get tap
  | .auto entry => statistics.auto.get entry

namespace CenteredSums

variable {width : SampleWidth} {window : Window}

/-- One addition to a running total: its place in the statistics and the term. -/
structure Addition (window : Window) where
  place : Statistics.Place window
  term : Int

namespace Addition

/-- Make an addition. -/
def apply (totals : Statistics window) (addition : Addition window) : Statistics window :=
  match addition.place with
  | .cross tap => { totals with cross := Entries.add totals.cross tap addition.term }
  | .auto entry => { totals with auto := Entries.add totals.auto entry addition.term }

/-- An addition changes the total at its place and no other. -/
theorem entryAt_apply (totals : Statistics window) (addition : Addition window)
    (place : Statistics.Place window) :
    (addition.apply totals).entryAt place =
      totals.entryAt place + if addition.place = place then addition.term else 0 := by
  rcases addition with ⟨tap | entry, term⟩
  · cases place with
    | cross other =>
        simp only [apply, Statistics.entryAt, Entries.add, Entries.get_update,
          Statistics.Place.cross.injEq]
        split <;> simp
    | auto other => simp [apply, Statistics.entryAt]
  · cases place with
    | cross other => simp [apply, Statistics.entryAt]
    | auto other =>
        simp only [apply, Statistics.entryAt, Entries.add, Entries.get_update,
          Statistics.Place.auto.injEq]
        split <;> simp

end Addition

/-! ## The list of additions -/

/-- A tap that lies so many taps after another one is a tap of the window. -/
theorem add_offset_lt (tap : Fin window.taps) (offset : Fin (window.taps - tap.val)) :
    tap.val + offset.val < window.taps := by
  omega

/-- The additions for one tap of a pixel. The deviations are those of the taps and of the source
sample of the pixel. The product of the tap with the source goes to the vector, and its products
with itself and with each tap after it go to the matrix. -/
def tapAdditions (deviations : Vector Int window.taps) (source weight : Int)
    (tap : Fin window.taps) : List (Addition window) :=
  ⟨.cross tap, weight * deviations.get tap * source⟩ ::
    (List.finRange (window.taps - tap.val)).map fun offset ↦
      let second : Fin window.taps := ⟨tap.val + offset.val, add_offset_lt tap offset⟩
      ⟨.auto (RowMajor.index tap second), weight * deviations.get tap * deviations.get second⟩

/-- The additions for one pixel. -/
def pixelAdditions (average weight : Int) (pixel : Observation width window) :
    List (Addition window) :=
  (List.finRange window.taps).flatMap
    (tapAdditions (pixel.taps.map (deviation average)) (deviation average pixel.source) weight)

/-- The additions for some rows, in the order in which they are made. -/
def additions (average : Int) (rows : List (WeightedRow width window)) : List (Addition window) :=
  rows.flatMap fun row ↦ row.pixels.flatMap (pixelAdditions average row.weight)

/-- The loop over the pairs of a tap makes the additions for the pairs. -/
theorem foldl_pairAdditions (deviations : Vector Int window.taps) (weighted : Int)
    (tap : Fin window.taps) (totals : Statistics window) :
    ((List.finRange (window.taps - tap.val)).map fun offset ↦
      (⟨.auto (RowMajor.index tap ⟨tap.val + offset.val, add_offset_lt tap offset⟩), weighted *
        deviations.get ⟨tap.val + offset.val, add_offset_lt tap offset⟩⟩ : Addition window)).foldl
        Addition.apply totals =
      { totals with auto := addTapPairs deviations weighted tap totals.auto } := by
  rw [addTapPairs, Fin.foldl_eq_finRange_foldl, List.foldl_map]
  generalize List.finRange (window.taps - tap.val) = offsets
  induction offsets generalizing totals with
  | nil => rfl
  | cons offset rest ih =>
      rw [List.foldl_cons, List.foldl_cons, ih]
      rfl

/-- The loop over the taps of a pixel makes the additions for the pixel. -/
theorem foldl_pixelAdditions (average weight : Int) (pixel : Observation width window)
    (totals : Statistics window) :
    (pixelAdditions average weight pixel).foldl Addition.apply totals =
      addPixel average weight totals pixel := by
  unfold pixelAdditions addPixel
  rw [List.foldl_flatMap, Fin.foldl_eq_finRange_foldl]
  congr 1
  funext totals tap
  rw [tapAdditions, List.foldl_cons]
  exact foldl_pairAdditions _ _ tap _

/-- The loops over the rows make the listed additions. -/
theorem foldl_additions (average : Int) (rows : List (WeightedRow width window))
    (totals : Statistics window) :
    (additions average rows).foldl Addition.apply totals = rows.foldl (addRow average) totals := by
  have hpixel : ∀ (weight : Int) (totals : Statistics window) (pixel : Observation width window),
      (pixelAdditions average weight pixel).foldl Addition.apply totals =
        addPixel average weight totals pixel := fun weight totals pixel ↦
    foldl_pixelAdditions average weight pixel totals
  rw [additions, List.foldl_flatMap]
  congr 1
  funext totals row
  rw [List.foldl_flatMap, addRow]
  simp only [hpixel]

/-! ## How much is added to an entry -/

/-- The magnitudes of the terms that go to a place, added up. -/
def amount (place : Statistics.Place window) (list : List (Addition window)) : Int :=
  (list.map fun addition ↦ if addition.place = place then |addition.term| else 0).sum

/-- The amounts of two lists of additions add up. -/
theorem amount_append (place : Statistics.Place window) (first second : List (Addition window)) :
    amount place (first ++ second) = amount place first + amount place second := by
  simp [amount]

/-- An amount is not negative. -/
theorem amount_nonneg (place : Statistics.Place window) (list : List (Addition window)) :
    0 ≤ amount place list := by
  refine List.sum_nonneg ?_
  intro magnitude hmagnitude
  obtain ⟨addition, -, rfl⟩ := List.mem_map.mp hmagnitude
  split
  · exact abs_nonneg _
  · exact Int.le_refl 0

/-- An entry moves by no more than the amount that is added to it. -/
theorem abs_entryAt_foldl_le (place : Statistics.Place window) (list : List (Addition window))
    (totals : Statistics window) :
    |(list.foldl Addition.apply totals).entryAt place| ≤
      |totals.entryAt place| + amount place list := by
  induction list generalizing totals with
  | nil => simp [amount]
  | cons addition rest ih =>
      have hterm : |if addition.place = place then addition.term else 0| =
          if addition.place = place then |addition.term| else 0 := by
        split
        · rfl
        · exact abs_zero
      calc |((addition :: rest).foldl Addition.apply totals).entryAt place|
          ≤ |(addition.apply totals).entryAt place| + amount place rest := ih _
        _ ≤ |totals.entryAt place| + (if addition.place = place then |addition.term| else 0) +
              amount place rest := by
            rw [Addition.entryAt_apply, ← hterm]
            exact Int.add_le_add_right (abs_add_le _ _) _
        _ = |totals.entryAt place| + amount place (addition :: rest) := by
            rw [Int.add_assoc]
            rfl

/-- After any number of additions, an entry has moved by no more than the amount that all of them
add to it. -/
theorem abs_entryAt_foldl_take_le (place : Statistics.Place window)
    (list : List (Addition window)) (totals : Statistics window) (count : Nat) :
    |((list.take count).foldl Addition.apply totals).entryAt place| ≤
      |totals.entryAt place| + amount place list := by
  have hsplit : amount place list = amount place (list.take count) + amount place
      (list.drop count) := by
    rw [← amount_append, List.take_append_drop]
  have hrest := amount_nonneg place (list.drop count)
  have htaken := abs_entryAt_foldl_le place (list.take count) totals
  omega

/-- The places of the additions for a tap are all different. -/
theorem nodup_tapAdditions (deviations : Vector Int window.taps) (source weight : Int)
    (tap : Fin window.taps) :
    ((tapAdditions deviations source weight tap).map Addition.place).Nodup := by
  rw [tapAdditions, List.map_cons, List.map_map, List.nodup_cons]
  constructor
  · simp
  · refine (List.nodup_finRange _).map ?_
    intro left right heq
    have hindex := Statistics.Place.auto.inj heq
    have hcolumn := congrArg (fun entry ↦ (RowMajor.column entry).val) hindex
    simp only [RowMajor.column_index] at hcolumn
    exact Fin.ext (Nat.add_left_cancel hcolumn)

/-- The additions for a tap go to places that belong to it. -/
theorem tap_place_of_mem_tapAdditions {deviations : Vector Int window.taps} {source weight : Int}
    {tap : Fin window.taps} {addition : Addition window}
    (h : addition ∈ tapAdditions deviations source weight tap) : addition.place.tap = tap := by
  rcases List.mem_cons.mp h with rfl | hpair
  · rfl
  · obtain ⟨offset, -, rfl⟩ := List.mem_map.mp hpair
    exact RowMajor.row_index _ _

/-- No place gets two additions from one pixel. -/
theorem nodup_pixelAdditions (average weight : Int) (pixel : Observation width window) :
    ((pixelAdditions average weight pixel).map Addition.place).Nodup := by
  rw [pixelAdditions, List.map_flatMap, List.nodup_flatMap]
  refine ⟨fun tap _ ↦ nodup_tapAdditions _ _ _ tap, ?_⟩
  refine (List.nodup_finRange window.taps).imp ?_
  intro left right hne place hleft hright
  obtain ⟨first, hfirst, rfl⟩ := List.mem_map.mp hleft
  obtain ⟨second, hsecond, hplace⟩ := List.mem_map.mp hright
  apply hne
  rw [← tap_place_of_mem_tapAdditions hfirst, ← tap_place_of_mem_tapAdditions hsecond, hplace]

/-- Nothing is added to a place that no addition goes to. -/
theorem amount_eq_zero {place : Statistics.Place window} {list : List (Addition window)}
    (h : place ∉ list.map Addition.place) : amount place list = 0 := by
  refine List.sum_eq_zero ?_
  intro magnitude hmagnitude
  obtain ⟨addition, haddition, rfl⟩ := List.mem_map.mp hmagnitude
  exact if_neg fun hplace ↦ h (List.mem_map.mpr ⟨addition, haddition, hplace⟩)

/-- If no place gets two additions, then the amount added to a place is at most one term. -/
theorem amount_le_of_nodup {bound : Int} (hbound : 0 ≤ bound) {list : List (Addition window)}
    (hnodup : (list.map Addition.place).Nodup) (hterm : ∀ addition ∈ list, |addition.term| ≤ bound)
    (place : Statistics.Place window) : amount place list ≤ bound := by
  induction list with
  | nil => exact hbound
  | cons addition rest ih =>
      obtain ⟨hhead, hrest⟩ := List.forall_mem_cons.mp hterm
      obtain ⟨hnew, hnodup⟩ := List.nodup_cons.mp hnodup
      have hsplit : amount place (addition :: rest) =
          (if addition.place = place then |addition.term| else 0) + amount place rest := rfl
      rw [hsplit]
      by_cases hplace : addition.place = place
      · subst hplace
        rw [if_pos rfl, amount_eq_zero hnew, Int.add_zero]
        exact hhead
      · rw [if_neg hplace, Int.zero_add]
        exact ih hnodup hrest

/-- The weighted product of two deviations, multiplied as the method does, is within the weighted
bound on such products. -/
theorem abs_term_le {weight : Nat} {left right bound : Int} (h : |left * right| ≤ bound) :
    |weight * left * right| ≤ weight * bound := by
  rw [Int.mul_assoc, abs_mul, Nat.abs_cast]
  exact Int.mul_le_mul_of_nonneg_left h (Int.natCast_nonneg _)

/-- If the products of the deviations of a pixel are bounded, then its terms are within the weighted
bound. -/
theorem abs_term_pixelAdditions_le {average bound : Int} {weight : Nat}
    {pixel : Observation width window}
    (hcross : ∀ tap, |deviation average (pixel.tap tap) * deviation average pixel.source| ≤ bound)
    (hauto : ∀ first second,
      |deviation average (pixel.tap first) * deviation average (pixel.tap second)| ≤ bound) :
    ∀ addition ∈ pixelAdditions average weight pixel, |addition.term| ≤ weight * bound := by
  intro addition haddition
  obtain ⟨tap, -, htap⟩ := List.mem_flatMap.mp haddition
  rcases List.mem_cons.mp htap with rfl | hpair
  · dsimp only
    rw [get_deviations]
    exact abs_term_le (hcross tap)
  · obtain ⟨offset, -, rfl⟩ := List.mem_map.mp hpair
    dsimp only
    rw [get_deviations, get_deviations]
    exact abs_term_le (hauto _ _)

/-- Along a row, each pixel adds at most one term to a place. -/
theorem amount_pixels_le {average bound : Int} (hbound : 0 ≤ bound) {weight : Nat}
    {pixels : List (Observation width window)}
    (hterm : ∀ pixel ∈ pixels, ∀ addition ∈ pixelAdditions average weight pixel,
      |addition.term| ≤ weight * bound) (place : Statistics.Place window) :
    amount place (pixels.flatMap (pixelAdditions average weight)) ≤
      weight * (pixels.map fun _ ↦ bound).sum := by
  induction pixels with
  | nil => exact Int.le_of_eq (Int.mul_zero _).symm
  | cons pixel rest ih =>
      obtain ⟨hpixel, hrest⟩ := List.forall_mem_cons.mp hterm
      rw [List.flatMap_cons, amount_append, List.map_cons, List.sum_cons, Int.mul_add]
      exact Int.add_le_add
        (amount_le_of_nodup (Int.mul_nonneg (Int.natCast_nonneg _) hbound)
          (nodup_pixelAdditions _ _ pixel) hpixel place) (ih hrest)

/-- If every term is within the weighted bound on a product, then the amount that goes to a place is
within as many bounds as the rows stand for pixels. -/
theorem amount_additions_le {average bound : Int} (hbound : 0 ≤ bound)
    {rows : List (WeightedRow width window)}
    (hterm : ∀ row ∈ rows, ∀ pixel ∈ row.pixels,
      ∀ addition ∈ pixelAdditions average row.weight pixel, |addition.term| ≤ row.weight * bound)
    (place : Statistics.Place window) :
    amount place (additions average rows) ≤ WeightedRow.total rows fun _ ↦ bound := by
  induction rows with
  | nil => exact Int.le_refl 0
  | cons row rest ih =>
      obtain ⟨hrow, hrest⟩ := List.forall_mem_cons.mp hterm
      rw [additions, List.flatMap_cons, amount_append, WeightedRow.total_cons]
      exact Int.add_le_add (amount_pixels_le hbound hrow place) (ih hrest)

end CenteredSums

end WienerRegression
