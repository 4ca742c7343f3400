import Mathlib.Data.Prod.Lex
import Mathlib.Order.Bounds.Basic
import Mathlib.Order.WellFounded
import WienerRegression.RowMajor

/-!
# Comparing a matrix with its transpose

The comparison of a matrix with its transpose visits the positions above the diagonal in order and
stops at the first one that does not pass (`isSymmetric?_of_isLeast`). That position settles the
answer: the matrix is not symmetric if the two entries differ, and there is no answer if the array
lacks one of them. So an array that is too short for the matrix may still be found not symmetric,
but never symmetric (`isSymmetric?_answers`).
-/

namespace WienerRegression.RowMajor

/-! ## Tests of consecutive numbers -/

/-- If the first number passes, then the others decide. -/
theorem allFrom?_succ_of_pass {test : Nat → Option Bool} {start : Nat}
    (h : test start = some true) (count : Nat) :
    allFrom? test start (count + 1) = allFrom? test (start + 1) count := by
  rw [allFrom?, h]

/-- If the first number does not pass, then it decides. -/
theorem allFrom?_succ_of_stop {test : Nat → Option Bool} {start : Nat}
    (h : test start ≠ some true) (count : Nat) :
    allFrom? test start (count + 1) = test start := by
  rw [allFrom?]
  cases hfirst : test start with
  | none => rfl
  | some passed =>
      cases passed with
      | false => rfl
      | true => exact absurd hfirst h

/-- A test of consecutive numbers succeeds when the first passes and the test of the others
succeeds. -/
theorem allFrom?_succ_eq_true_iff {test : Nat → Option Bool} {start count : Nat} :
    allFrom? test start (count + 1) = some true ↔
      test start = some true ∧ allFrom? test (start + 1) count = some true := by
  by_cases hfirst : test start = some true
  · rw [allFrom?_succ_of_pass hfirst, and_iff_right hfirst]
  · rw [allFrom?_succ_of_stop hfirst]
    exact iff_of_false hfirst fun h ↦ hfirst h.1

/-- A test of consecutive numbers succeeds exactly when each of them passes. -/
theorem allFrom?_eq_true_iff {test : Nat → Option Bool} {start count : Nat} :
    allFrom? test start count = some true ↔
      ∀ number, start ≤ number → number < start + count → test number = some true := by
  induction count generalizing start with
  | zero =>
      refine iff_of_true rfl ?_
      intro number hstart hend
      omega
  | succ count ih =>
      rw [allFrom?_succ_eq_true_iff, ih]
      constructor
      · rintro ⟨hfirst, hrest⟩ number hstart hend
        rcases Nat.eq_or_lt_of_le hstart with rfl | hlater
        · exact hfirst
        · exact hrest number hlater (by omega)
      · intro hall
        refine ⟨hall start (Nat.le_refl _) (by omega), ?_⟩
        intro number hstart hend
        exact hall number (by omega) (by omega)

/-- The tested numbers that do not pass. -/
def stops (test : Nat → Option Bool) (start count : Nat) : Set Nat :=
  {number | start ≤ number ∧ number < start + count ∧ test number ≠ some true}

/-- The first number that does not pass decides a test of consecutive numbers. -/
theorem allFrom?_of_isLeast {test : Nat → Option Bool} {start count number : Nat}
    (h : IsLeast (stops test start count) number) : allFrom? test start count = test number := by
  obtain ⟨⟨hstart, hend, hstop⟩, hleast⟩ := h
  induction count generalizing start with
  | zero => omega
  | succ count ih =>
      by_cases hpass : test start = some true
      · have hlater : start ≠ number := by
          rintro rfl
          exact hstop hpass
        rw [allFrom?_succ_of_pass hpass]
        refine ih ?_ (by omega) (by omega)
        rintro other ⟨hother, hlt, hfails⟩
        exact hleast ⟨by omega, by omega, hfails⟩
      · have hfirst : number ≤ start := hleast ⟨Nat.le_refl _, by omega, hpass⟩
        obtain rfl : number = start := by omega
        exact allFrom?_succ_of_stop hpass count

/-! ## Positions above the diagonal -/

/-- A position above the diagonal of a square matrix. -/
structure Upper (side : Nat) where
  row : Nat
  column : Nat
  row_lt_column : row < column
  column_lt_side : column < side

namespace Upper

variable {side : Nat} {entries : Array Int}

/-- What tells the order of two positions: the row, and the column in the same row. -/
def key (position : Upper side) : Nat ×ₗ Nat :=
  toLex (position.row, position.column)

/-- No two positions have the same row and column. -/
theorem key_injective : Function.Injective (@key side) := by
  intro first second h
  cases first
  cases second
  simpa [key] using h

/-- The positions in the order of the comparison: row by row from the top, each row from the
left. -/
instance : LinearOrder (Upper side) :=
  LinearOrder.lift' key key_injective

/-- A position comes before those further right in its row and before those of the rows below. -/
theorem lt_iff {first second : Upper side} :
    first < second ↔
      first.row < second.row ∨ first.row = second.row ∧ first.column < second.column :=
  Prod.Lex.lt_iff

/-- There are no positions without end before a position. -/
instance : WellFoundedLT (Upper side) :=
  ⟨InvImage.wf key wellFounded_lt⟩

/-- The array has the entry at a position and the transposed one. -/
def IsHeld (entries : Array Int) (position : Upper side) : Prop :=
  position.row * side + position.column < entries.size ∧
    position.column * side + position.row < entries.size

/-- The array has the entry at a position and the transposed one, and they are different. -/
def Differs (entries : Array Int) (position : Upper side) : Prop :=
  ∃ upper lower, entries[position.row * side + position.column]? = some upper ∧
    entries[position.column * side + position.row]? = some lower ∧ upper ≠ lower

/-- What the comparison finds at a position. -/
def compare? (entries : Array Int) (position : Upper side) : Option Bool :=
  equalsTransposed? entries side position.row position.column

/-- The array has both entries exactly when reading them gives two values. -/
theorem isHeld_iff {position : Upper side} :
    position.IsHeld entries ↔
      ∃ upper lower, entries[position.row * side + position.column]? = some upper ∧
        entries[position.column * side + position.row]? = some lower := by
  constructor
  · rintro ⟨hupper, hlower⟩
    exact ⟨_, _, Array.getElem?_eq_getElem hupper, Array.getElem?_eq_getElem hlower⟩
  · rintro ⟨upper, lower, hupper, hlower⟩
    exact ⟨(Array.getElem?_eq_some_iff.mp hupper).1, (Array.getElem?_eq_some_iff.mp hlower).1⟩

/-- Different entries are there. -/
theorem Differs.isHeld {position : Upper side} (h : position.Differs entries) :
    position.IsHeld entries := by
  obtain ⟨upper, lower, hupper, hlower, -⟩ := h
  exact isHeld_iff.mpr ⟨upper, lower, hupper, hlower⟩

/-- The answer at a position is whether its two entries are equal. -/
theorem compare?_eq_some_iff {position : Upper side} {equal : Bool} :
    position.compare? entries = some equal ↔
      ∃ upper lower, entries[position.row * side + position.column]? = some upper ∧
        entries[position.column * side + position.row]? = some lower ∧
          (upper == lower) = equal := by
  rw [compare?, equalsTransposed?]
  cases entries[position.row * side + position.column]? with
  | none => simp
  | some upper =>
      cases entries[position.column * side + position.row]? with
      | none => simp
      | some lower => simp

/-- There is no answer at a position exactly when the array lacks one of the entries. -/
theorem compare?_eq_none_iff {position : Upper side} :
    position.compare? entries = none ↔ ¬ position.IsHeld entries := by
  rw [isHeld_iff]
  constructor
  · rintro hnone ⟨upper, lower, hupper, hlower⟩
    have hanswer := compare?_eq_some_iff.mpr ⟨upper, lower, hupper, hlower, rfl⟩
    rw [hnone] at hanswer
    cases hanswer
  · intro hmissing
    by_contra hsome
    obtain ⟨equal, hanswer⟩ := Option.ne_none_iff_exists'.mp hsome
    obtain ⟨upper, lower, hupper, hlower, -⟩ := compare?_eq_some_iff.mp hanswer
    exact hmissing ⟨upper, lower, hupper, hlower⟩

/-- A position passes exactly when the array has one value in it and in the transposed one. -/
theorem compare?_eq_true_iff {position : Upper side} :
    position.compare? entries = some true ↔
      ∃ value, entries[position.row * side + position.column]? = some value ∧
        entries[position.column * side + position.row]? = some value := by
  rw [compare?_eq_some_iff]
  constructor
  · rintro ⟨upper, lower, hupper, hlower, hequal⟩
    obtain rfl : upper = lower := beq_iff_eq.mp hequal
    exact ⟨upper, hupper, hlower⟩
  · rintro ⟨value, hupper, hlower⟩
    exact ⟨value, value, hupper, hlower, beq_self_eq_true value⟩

/-- The answer at a position is negative exactly when the array has both entries and they are
different. -/
theorem compare?_eq_false_iff {position : Upper side} :
    position.compare? entries = some false ↔ position.Differs entries := by
  rw [compare?_eq_some_iff, Differs]
  simp only [beq_eq_false_iff_ne]

/-- The positions that do not pass: their entries differ, or the array lacks one of them. -/
def failing (entries : Array Int) : Set (Upper side) :=
  {position | position.compare? entries ≠ some true}

/-- A position with different entries does not pass. -/
theorem Differs.mem_failing {position : Upper side} (h : position.Differs entries) :
    position ∈ failing entries := by
  intro hpass
  rw [compare?_eq_false_iff.mpr h] at hpass
  cases hpass

/-- A position without both entries does not pass. -/
theorem mem_failing_of_not_isHeld {position : Upper side} (h : ¬ position.IsHeld entries) :
    position ∈ failing entries := by
  intro hpass
  rw [compare?_eq_none_iff.mpr h] at hpass
  cases hpass

end Upper

/-! ## The whole comparison -/

variable {entries : Array Int} {side : Nat}

/-- The comparison of one row of a matrix with the transposed column, right of the diagonal. -/
def compareRow? (entries : Array Int) (side row : Nat) : Option Bool :=
  allFrom? (equalsTransposed? entries side row) (row + 1) (side - (row + 1))

/-- A row passes the comparison exactly when all its positions do. -/
theorem compareRow?_eq_true_iff {row : Nat} :
    compareRow? entries side row = some true ↔
      ∀ position : Upper side, position.row = row → position.compare? entries = some true := by
  rw [compareRow?, allFrom?_eq_true_iff]
  constructor
  · rintro hrow position rfl
    have hcolumn := position.column_lt_side
    exact hrow position.column position.row_lt_column (by omega)
  · intro hall column hright hend
    exact hall ⟨row, column, hright, by omega⟩ rfl

/-- A matrix passes the comparison exactly when every position above the diagonal does. -/
theorem isSymmetric?_eq_true_iff :
    isSymmetric? entries side = some true ↔
      ∀ position : Upper side, position.compare? entries = some true := by
  constructor
  · intro hpass position
    have hrow : position.row < 0 + side := by
      have := position.row_lt_column
      have := position.column_lt_side
      omega
    exact compareRow?_eq_true_iff.mp
      (allFrom?_eq_true_iff.mp hpass position.row (Nat.zero_le _) hrow) position rfl
  · intro hall
    refine allFrom?_eq_true_iff.mpr ?_
    intro row _ _
    exact compareRow?_eq_true_iff.mpr fun position _ ↦ hall position

/-- The first position that does not pass decides the comparison of its row. -/
theorem compareRow?_of_isLeast {position : Upper side}
    (h : IsLeast (Upper.failing entries) position) :
    compareRow? entries side position.row = position.compare? entries := by
  have hcolumn := position.column_lt_side
  refine allFrom?_of_isLeast ⟨⟨position.row_lt_column, by omega, h.1⟩, ?_⟩
  rintro column ⟨hright, hend, hfails⟩
  have hle : position ≤ ⟨position.row, column, hright, by omega⟩ := h.2 hfails
  by_contra hbefore
  exact absurd hle (not_le.mpr (Upper.lt_iff.mpr (.inr ⟨rfl, Nat.not_le.mp hbefore⟩)))

/-- The first position that does not pass decides the comparison of the matrix, because all rows
above it pass. -/
theorem isSymmetric?_of_isLeast {position : Upper side}
    (h : IsLeast (Upper.failing entries) position) :
    isSymmetric? entries side = position.compare? entries := by
  have hrow := compareRow?_of_isLeast h
  have hfirst : IsLeast (stops (compareRow? entries side) 0 side) position.row := by
    have := position.row_lt_column
    have := position.column_lt_side
    refine ⟨⟨Nat.zero_le _, by omega, fun hpass ↦ h.1 (hrow.symm.trans hpass)⟩, ?_⟩
    rintro row ⟨-, -, hfails⟩
    by_contra habove
    refine hfails (compareRow?_eq_true_iff.mpr ?_)
    rintro other rfl
    by_contra hstop
    exact absurd (h.2 hstop) (not_le.mpr (Upper.lt_iff.mpr (.inl (Nat.not_le.mp habove))))
  exact (allFrom?_of_isLeast hfirst).trans hrow

/-- A matrix that does not pass the comparison has a first position that does not pass. -/
theorem exists_isLeast_failing (h : isSymmetric? entries side ≠ some true) :
    ∃ position : Upper side, IsLeast (Upper.failing entries) position := by
  have hsome : (Upper.failing entries : Set (Upper side)).Nonempty := by
    by_contra hnone
    refine h (isSymmetric?_eq_true_iff.mpr ?_)
    intro position
    by_contra hstop
    exact hnone ⟨position, hstop⟩
  obtain ⟨position, hstop, hfirst⟩ := wellFounded_lt.has_min _ hsome
  exact ⟨position, hstop, fun other hother ↦ not_lt.mp (hfirst other hother)⟩

/-- The array has the entries of a position above the diagonal that differ, and the position comes
before every position of which the array lacks an entry. -/
def DiffersBeforeMissing (entries : Array Int) (side : Nat) : Prop :=
  ∃ position : Upper side, position.Differs entries ∧
    ∀ missing : Upper side, ¬ missing.IsHeld entries → position < missing

/-- The comparison finds a matrix not symmetric exactly when it comes to different entries before it
comes to a missing one. -/
theorem isSymmetric?_eq_false_iff :
    isSymmetric? entries side = some false ↔ DiffersBeforeMissing entries side := by
  constructor
  · intro hfalse
    obtain ⟨first, hfirst⟩ := exists_isLeast_failing (by rw [hfalse]; decide)
    have hdiffers : first.Differs entries :=
      Upper.compare?_eq_false_iff.mp ((isSymmetric?_of_isLeast hfirst).symm.trans hfalse)
    refine ⟨first, hdiffers, ?_⟩
    intro missing hmissing
    refine lt_of_le_of_ne (hfirst.2 (Upper.mem_failing_of_not_isHeld hmissing)) ?_
    rintro rfl
    exact hmissing hdiffers.isHeld
  · rintro ⟨position, hdiffers, hbefore⟩
    obtain ⟨first, hfirst⟩ := exists_isLeast_failing fun htrue ↦
      hdiffers.mem_failing (isSymmetric?_eq_true_iff.mp htrue position)
    have hheld : first.compare? entries ≠ none := fun hnone ↦
      absurd (hfirst.2 hdiffers.mem_failing)
        (not_le.mpr (hbefore first (Upper.compare?_eq_none_iff.mp hnone)))
    rw [isSymmetric?_of_isLeast hfirst]
    cases hanswer : first.compare? entries with
    | none => exact absurd hanswer hheld
    | some passed =>
        cases passed with
        | false => rfl
        | true => exact absurd hanswer hfirst.1

/-- The comparison has no answer exactly when the array lacks an entry and no different entries come
before it. -/
theorem isSymmetric?_eq_none_iff :
    isSymmetric? entries side = none ↔
      (∃ missing : Upper side, ¬ missing.IsHeld entries) ∧ ¬ DiffersBeforeMissing entries side := by
  rw [← isSymmetric?_eq_false_iff]
  constructor
  · intro hnone
    obtain ⟨first, hfirst⟩ := exists_isLeast_failing (by rw [hnone]; decide)
    have hmissing := (isSymmetric?_of_isLeast hfirst).symm.trans hnone
    exact ⟨⟨first, Upper.compare?_eq_none_iff.mp hmissing⟩, by rw [hnone]; decide⟩
  · rintro ⟨⟨missing, hmissing⟩, hnotFalse⟩
    cases hanswer : isSymmetric? entries side with
    | none => rfl
    | some passed =>
        cases passed with
        | false => exact absurd hanswer hnotFalse
        | true =>
            have hpass := isSymmetric?_eq_true_iff.mp hanswer missing
            exact absurd hpass (Upper.mem_failing_of_not_isHeld hmissing)

/-- A matrix passes the comparison exactly when the array has all entries off the diagonal and the
matrix equals its transpose. -/
theorem isSymmetric?_eq_true_iff_held :
    isSymmetric? entries side = some true ↔
      (∀ position : Upper side, position.IsHeld entries) ∧
        ∀ row column, row < side → column < side →
          entries[row * side + column]? = entries[column * side + row]? := by
  rw [isSymmetric?_eq_true_iff]
  constructor
  · intro hpass
    have hvalue : ∀ position : Upper side, ∃ value,
        entries[position.row * side + position.column]? = some value ∧
          entries[position.column * side + position.row]? = some value :=
      fun position ↦ Upper.compare?_eq_true_iff.mp (hpass position)
    constructor
    · intro position
      obtain ⟨value, hupper, hlower⟩ := hvalue position
      exact Upper.isHeld_iff.mpr ⟨value, value, hupper, hlower⟩
    · intro row column hrow hcolumn
      rcases Nat.lt_trichotomy row column with hlt | rfl | hlt
      · obtain ⟨value, hupper, hlower⟩ := hvalue ⟨row, column, hlt, hcolumn⟩
        exact hupper.trans hlower.symm
      · rfl
      · obtain ⟨value, hupper, hlower⟩ := hvalue ⟨column, row, hlt, hrow⟩
        exact hlower.trans hupper.symm
  · rintro ⟨hheld, hequal⟩ position
    have hrow := position.row_lt_column
    have hcolumn := position.column_lt_side
    obtain ⟨upper, lower, hupper, hlower⟩ := Upper.isHeld_iff.mp (hheld position)
    have hsame := hequal position.row position.column (by omega) hcolumn
    exact Upper.compare?_eq_true_iff.mpr ⟨upper, hupper, hsame.symm.trans hupper⟩

/-! ## How many entries are needed -/

/-- The last entry of a matrix is on the diagonal, so the comparison does not need it. -/
theorem isHeld_of_le_size (h : side * side - 1 ≤ entries.size) (position : Upper side) :
    position.IsHeld entries := by
  have hrow := position.row_lt_column
  have hcolumn := position.column_lt_side
  have habove : (position.row + 1) * side ≤ position.column * side :=
    Nat.mul_le_mul_right side hrow
  have hlast : (position.column + 1) * side ≤ side * side := Nat.mul_le_mul_right side hcolumn
  rw [Nat.succ_mul] at habove hlast
  unfold Upper.IsHeld
  omega

/-- A matrix with a position above the diagonal needs all entries but the last. -/
theorem forall_isHeld_iff (hside : 2 ≤ side) :
    (∀ position : Upper side, position.IsHeld entries) ↔ side * side - 1 ≤ entries.size := by
  refine ⟨fun hall ↦ ?_, isHeld_of_le_size⟩
  obtain ⟨before, rfl⟩ := Nat.exists_eq_add_of_le' hside
  have hlast : (before + 1) * (before + 2) + before < entries.size :=
    (hall ⟨before, before + 1, Nat.lt_succ_self _, Nat.lt_succ_self _⟩).2
  rw [Nat.succ_mul (before + 1)]
  omega

/-- A matrix with at most one row has no position above the diagonal. -/
theorem isEmpty_upper (hside : side ≤ 1) : IsEmpty (Upper side) :=
  ⟨fun position ↦ by
    have hrow := position.row_lt_column
    have hcolumn := position.column_lt_side
    omega⟩

/-- A matrix passes the comparison with its transpose exactly when the array has every entry that is
compared and the entries in transposed positions are equal. An array with all entries but the last
has every entry that is compared, and a matrix of at least two rows needs that many; in a smaller
one nothing is compared. A shorter array never passes: it is found not symmetric if different
entries come before the first missing one, and else the comparison has no answer. No other array
leaves it without an answer. -/
theorem isSymmetric?_answers (entries : Array Int) (side : Nat) :
    (isSymmetric? entries side = some true ↔
      (∀ position : Upper side, position.IsHeld entries) ∧
        ∀ row column, row < side → column < side →
          entries[row * side + column]? = entries[column * side + row]?) ∧
    (2 ≤ side →
      ((∀ position : Upper side, position.IsHeld entries) ↔ side * side - 1 ≤ entries.size)) ∧
    (side ≤ 1 → IsEmpty (Upper side) ∧ isSymmetric? entries side = some true) ∧
    (isSymmetric? entries side = some false ↔ DiffersBeforeMissing entries side) ∧
    (entries.size < side * side - 1 →
      isSymmetric? entries side ≠ some true ∧
        (isSymmetric? entries side = none ↔ ¬ DiffersBeforeMissing entries side)) ∧
    (side * side - 1 ≤ entries.size → isSymmetric? entries side ≠ none) := by
  refine ⟨isSymmetric?_eq_true_iff_held, forall_isHeld_iff, ?_, isSymmetric?_eq_false_iff, ?_, ?_⟩
  · intro hside
    exact ⟨isEmpty_upper hside, isSymmetric?_eq_true_iff.mpr (isEmpty_upper hside).elim⟩
  · intro hshort
    have hside : 2 ≤ side := by
      by_contra hsmall
      have hsquare : side * side ≤ 1 * 1 := Nat.mul_le_mul (by omega) (by omega)
      omega
    have hmissing : ¬ ∀ position : Upper side, position.IsHeld entries :=
      fun hall ↦ absurd ((forall_isHeld_iff hside).mp hall) (by omega)
    refine ⟨fun htrue ↦ hmissing (isSymmetric?_eq_true_iff_held.mp htrue).1, ?_⟩
    rw [isSymmetric?_eq_none_iff]
    exact and_iff_right (not_forall.mp hmissing)
  · intro hlong hnone
    obtain ⟨⟨missing, hmissing⟩, -⟩ := isSymmetric?_eq_none_iff.mp hnone
    exact hmissing (isHeld_of_le_size hlong missing)

example :
    isSymmetric? #[0, 1, 1] 2 = some true ∧ isSymmetric? #[0, 1, 5, 2] 3 = some false ∧
      isSymmetric? #[0, 1, 5, 1] 3 = none := by
  decide

end WienerRegression.RowMajor
