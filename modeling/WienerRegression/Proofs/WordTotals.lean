import WienerRegression.Proofs.Intermediates
import WienerRegression.Proofs.NormalEquations

/-!
# Totals in words

A program adds to totals that are signed words, and each of its additions, subtractions and products
wraps around. What it holds after any number of them is the exact total, wrapped around once: every
addition of the reference method keeps this (`CenteredSums.applyWord_inWords`), and so does every
row of the specialized method (`StagedSums.addWeightedWord_inWords`). Hence a run on words, which
wraps the exact totals around, leaves what the two methods leave with words
(`Call.wordAnswer?_reference`, `Call.wordAnswer?_specialized`).
-/

namespace WienerRegression

/-! ## Arithmetic on signed words -/

/-- Zero is a word. -/
theorem toSignedWord_zero : toSignedWord 0 = 0 := rfl

/-- A word is kept as it is. -/
theorem toSignedWord_toSignedWord (value : Int) :
    toSignedWord (toSignedWord value) = toSignedWord value := by
  unfold toSignedWord
  rw [Int64.ofInt_toInt]

/-- The word of a sum needs no more than the words of its summands. -/
theorem toSignedWord_add (total term : Int) :
    toSignedWord (toSignedWord total + toSignedWord term) = toSignedWord (total + term) := by
  unfold toSignedWord
  rw [Int64.ofInt_add, Int64.ofInt_toInt, Int64.ofInt_toInt, Int64.ofInt_add]

/-- The word of a sum and a product needs no more than the words of the summand and of a factor. -/
theorem toSignedWord_add_mul (total staged weight : Int) :
    toSignedWord (toSignedWord total + toSignedWord staged * weight) =
      toSignedWord (total + staged * weight) := by
  unfold toSignedWord
  rw [Int64.ofInt_add, Int64.ofInt_mul, Int64.ofInt_toInt, Int64.ofInt_toInt, Int64.ofInt_add,
    Int64.ofInt_mul]

/-- Totals of 8-bit content are not divided. -/
theorem BitDepth.tdiv_divisor_eight (value : Int) :
    value.tdiv (BitDepth.eight.divisor : Nat) = value :=
  Int.tdiv_one value

variable {width : SampleWidth} {window : Window}

namespace Statistics

/-- The statistics with every entry held in a signed word. -/
def inWords (statistics : Statistics window) : Statistics window where
  cross := statistics.cross.map toSignedWord
  auto := statistics.auto.map toSignedWord

/-- An entry of the vector, divided after its total was held in a signed word. -/
theorem get_cross_ofTotals (depth : BitDepth) (totals : Statistics window)
    (tap : Fin window.taps) :
    (ofTotals depth totals).cross.get tap =
      (toSignedWord (totals.cross.get tap)).tdiv depth.divisor :=
  Entries.get_map _ _ tap

/-- An entry of the matrix, divided after its total was held in a signed word. -/
theorem get_auto_ofTotals (depth : BitDepth) (totals : Statistics window)
    (entry : Fin (window.taps * window.taps)) :
    (ofTotals depth totals).auto.get entry =
      (toSignedWord (totals.auto.get entry)).tdiv depth.divisor :=
  Entries.get_map _ _ entry

/-- An entry of the vector that is held in a signed word. -/
@[simp] theorem get_cross_inWords (statistics : Statistics window) (tap : Fin window.taps) :
    statistics.inWords.cross.get tap = toSignedWord (statistics.cross.get tap) :=
  Entries.get_map _ _ tap

/-- An entry of the matrix that is held in a signed word. -/
@[simp] theorem get_auto_inWords (statistics : Statistics window)
    (entry : Fin (window.taps * window.taps)) :
    statistics.inWords.auto.get entry = toSignedWord (statistics.auto.get entry) :=
  Entries.get_map _ _ entry

/-- An entry at a place that is held in a signed word. -/
theorem entryAt_inWords (statistics : Statistics window) (place : Place window) :
    statistics.inWords.entryAt place = toSignedWord (statistics.entryAt place) := by
  cases place with
  | cross tap => exact statistics.get_cross_inWords tap
  | auto entry => exact statistics.get_auto_inWords entry

/-- Statistics with the same entry at every place are the same. -/
theorem ext_entryAt {left right : Statistics window}
    (h : ∀ place, left.entryAt place = right.entryAt place) : left = right :=
  ext_get (fun tap ↦ h (.cross tap)) fun entry ↦ h (.auto entry)

end Statistics

/-! ## The reference method -/

namespace CenteredSums

/-- Make an addition whose term is a word to totals that are words. -/
def Addition.applyWord (totals : Statistics window) (addition : Addition window) :
    Statistics window :=
  ({ addition with term := toSignedWord addition.term }.apply totals).inWords

/-- An addition with words leaves the words of the exact totals. -/
theorem applyWord_inWords (totals : Statistics window) (addition : Addition window) :
    addition.applyWord totals.inWords = (addition.apply totals).inWords := by
  refine Statistics.ext_entryAt fun place ↦ ?_
  unfold Addition.applyWord
  simp only [Statistics.entryAt_inWords, Addition.entryAt_apply]
  split
  · exact toSignedWord_add _ _
  · rw [Int.add_zero, Int.add_zero, toSignedWord_toSignedWord]

/-- Hence any list of additions does. -/
theorem foldl_applyWord (list : List (Addition window)) (totals : Statistics window) :
    list.foldl Addition.applyWord totals.inWords =
      (list.foldl Addition.apply totals).inWords := by
  induction list generalizing totals with
  | nil => rfl
  | cons addition rest ih =>
      rw [List.foldl_cons, List.foldl_cons, applyWord_inWords]
      exact ih _

/-- Replace what the storage holds by the statistics of the observed rows around an average, with
totals that are words. -/
def wordAccumulate (depth : BitDepth) (average : Int) (rows : List (WeightedRow width window))
    (storage : Statistics window) : Statistics window :=
  let totals := (additions average rows).foldl Addition.applyWord (clear storage)
  scale depth { totals with auto := reflect totals.auto }

/-- Cleared entries are words. -/
theorem inWords_clear (storage : Statistics window) :
    (clear storage).inWords = clear storage := by
  refine Statistics.ext_entryAt fun place ↦ ?_
  rw [Statistics.entryAt_inWords, entryAt_clear, toSignedWord_zero]

/-- The reference method with words leaves the exact totals held in words, divided. -/
theorem wordAccumulate_eq (depth : BitDepth) (average : Int)
    (rows : List (WeightedRow width window)) (storage : Statistics window) :
    wordAccumulate depth average rows storage =
      .ofTotals depth (accumulate .eight average rows storage) := by
  have htotals : (additions average rows).foldl Addition.applyWord (clear storage) =
      (rows.foldl (addRow average) (clear storage)).inWords := by
    rw [← foldl_additions, ← foldl_applyWord, inWords_clear]
  unfold wordAccumulate accumulate
  rw [htotals]
  refine Statistics.ext_get ?_ ?_
  · intro tap
    rw [(scale_eq _ _).1, Statistics.get_cross_ofTotals, (scale_eq _ _).1,
      BitDepth.tdiv_divisor_eight, Statistics.get_cross_inWords]
  · intro entry
    rw [(scale_eq _ _).2, Statistics.get_auto_ofTotals, (scale_eq _ _).2,
      BitDepth.tdiv_divisor_eight, get_reflect, get_reflect, Statistics.get_auto_inWords,
      Statistics.get_auto_inWords]
    split <;> rfl

end CenteredSums

/-! ## The specialized method -/

namespace StagedSums

/-- The sums with every total held in a signed word. -/
def inWords (sums : StagedSums window) : StagedSums window where
  source := toSignedWord sums.source
  taps := sums.taps.map toSignedWord
  cross := sums.cross.map toSignedWord
  auto := sums.auto.map toSignedWord

/-- The sum at a tap that is held in a signed word. -/
@[simp] theorem get_taps_inWords (sums : StagedSums window) (tap : Fin window.taps) :
    sums.inWords.taps.get tap = toSignedWord (sums.taps.get tap) :=
  Entries.get_map _ _ tap

/-- The sum of products of a tap that is held in a signed word. -/
@[simp] theorem get_cross_inWords (sums : StagedSums window) (tap : Fin window.taps) :
    sums.inWords.cross.get tap = toSignedWord (sums.cross.get tap) :=
  Entries.get_map _ _ tap

/-- The sum of products of two taps that is held in a signed word. -/
@[simp] theorem get_auto_inWords (sums : StagedSums window)
    (entry : Fin (window.taps * window.taps)) :
    sums.inWords.auto.get entry = toSignedWord (sums.auto.get entry) :=
  Entries.get_map _ _ entry

/-- Fold the sums of a row, which are words, into totals that are words. -/
def addWeightedWord (totals row : StagedSums window) (weight : Int) : StagedSums window :=
  (totals.addWeighted row.inWords weight).inWords

/-- Folding a row with words leaves the words of the exact totals. -/
theorem addWeightedWord_inWords (totals row : StagedSums window) (weight : Int) :
    totals.inWords.addWeightedWord row weight = (totals.addWeighted row weight).inWords := by
  unfold addWeightedWord
  refine ext_get (toSignedWord_add_mul _ _ _) ?_ ?_ ?_
  · intro tap
    simp only [get_taps_inWords, addWeighted, Entries.get_zipWith, toSignedWord_add_mul]
  · intro tap
    simp only [get_cross_inWords, addWeighted, Entries.get_zipWith, toSignedWord_add_mul]
  · intro entry
    simp only [get_auto_inWords, addWeighted, Entries.get_zipWith, toSignedWord_add_mul]

/-- Hence folding any rows does. -/
theorem foldl_addWeightedWord (rows : List (WeightedRow width window))
    (totals : StagedSums window) :
    rows.foldl (fun totals row ↦ totals.addWeightedWord (ofRow row.pixels) row.weight)
        totals.inWords =
      (rows.foldl (fun totals row ↦ totals.addWeighted (ofRow row.pixels) row.weight)
        totals).inWords := by
  induction rows generalizing totals with
  | nil => rfl
  | cons row rest ih =>
      rw [List.foldl_cons, List.foldl_cons, addWeightedWord_inWords]
      exact ih _

/-- The weighted sums over all rows, in totals that are words. -/
def wordOfRows (rows : List (WeightedRow width window)) : StagedSums window :=
  rows.foldl (fun totals row ↦ totals.addWeightedWord (ofRow row.pixels) row.weight) (zero window)

/-- The sums over no pixels are words. -/
theorem inWords_zero : (zero window).inWords = zero window := by
  apply ext_get <;> simp [inWords, zero, Vector.get, toSignedWord_zero]

/-- The totals over all rows are the exact ones held in words. -/
theorem wordOfRows_eq (rows : List (WeightedRow width window)) :
    wordOfRows rows = (ofRows rows).inWords := by
  unfold wordOfRows ofRows
  rw [← foldl_addWeightedWord, inWords_zero]

/-- Centring needs no more than the words of the sums. -/
theorem toSignedWord_centre (average pixelCount products firstSum secondSum : Int) :
    toSignedWord (centre average pixelCount (toSignedWord products) (toSignedWord firstSum)
      (toSignedWord secondSum)) =
      toSignedWord (centre average pixelCount products firstSum secondSum) := by
  unfold centre toSignedWord
  simp only [Int64.ofInt_add, Int64.ofInt_sub, Int64.ofInt_mul, Int64.ofInt_toInt]

/-- The statistics that totals which are words give around an average, with words. -/
def wordStatistics (totals : StagedSums window) (depth : BitDepth) (average pixelCount : Int) :
    Statistics window where
  cross := Vector.ofFn fun tap ↦
    (toSignedWord (centre average pixelCount (totals.cross.get tap) totals.source
      (totals.taps.get tap))).tdiv depth.divisor
  auto := Vector.ofFn fun entry : Fin (window.taps * window.taps) ↦
    (toSignedWord (centre average pixelCount (totals.auto.get entry)
      (totals.taps.get (RowMajor.row entry))
      (totals.taps.get (RowMajor.column entry)))).tdiv depth.divisor

/-- The specialized method with words leaves the exact totals held in words, divided. -/
theorem wordStatistics_eq (depth : BitDepth) (average pixelCount : Int)
    (rows : List (WeightedRow width window)) :
    (wordOfRows rows).wordStatistics depth average pixelCount =
      .ofTotals depth ((ofRows rows).statistics .eight average pixelCount) := by
  rw [wordOfRows_eq]
  refine Statistics.ext_get ?_ ?_
  · intro tap
    rw [wordStatistics, Entries.get_ofFn, Statistics.get_cross_ofTotals, statistics,
      Entries.get_ofFn, BitDepth.tdiv_divisor_eight, get_cross_inWords, get_taps_inWords]
    exact congrArg (Int.tdiv · _) (toSignedWord_centre _ _ _ _ _)
  · intro entry
    rw [wordStatistics, Entries.get_ofFn, Statistics.get_auto_ofTotals, statistics,
      Entries.get_ofFn, BitDepth.tdiv_divisor_eight, get_auto_inWords, get_taps_inWords,
      get_taps_inWords, toSignedWord_centre]

end StagedSums

/-! ## The two methods -/

namespace Call

/-- With words, the reference method answers a call by additions of words. -/
theorem wordAnswer?_reference (call : Call width) (outputs : Outputs) :
    call.wordAnswer? .reference outputs = (do
      let average ← call.degraded.wordAverage? call.rect
      let rows ← call.wordRows?
      let storage ← outputs.read? call.window
      outputs.write? (CenteredSums.wordAccumulate call.depth average.val rows storage)) := by
  unfold wordAnswer?
  simp only [CenteredSums.wordAccumulate_eq]

/-- With words, the specialized method answers a call by folding rows of words and centring them. -/
theorem wordAnswer?_specialized (call : Call width) (outputs : Outputs) :
    call.wordAnswer? .specialized outputs = (do
      let average ← call.degraded.wordAverage? call.rect
      let rows ← call.wordRows?
      outputs.write?
        ((StagedSums.wordOfRows rows).wordStatistics call.depth average.val
          call.rect.area)) := by
  unfold wordAnswer?
  simp only [StagedSums.wordStatistics_eq]

end Call

end WienerRegression
