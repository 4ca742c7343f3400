/-!
# Square matrices in row-major order

A matrix of side `n` is an array of `n * n` entries, row after row. `index` numbers its entries
and `row` and `column` undo the numbering (`row_index`, `column_index`, `index_row_column`).
`isSymmetric?` compares every entry above the diagonal with the transposed one and stops at the
first difference or at the first entry that the array does not have.
-/

namespace WienerRegression.RowMajor

/-- The number of the entry in a given row and column. -/
def index {n : Nat} (row column : Fin n) : Fin (n * n) :=
  ⟨row.val * n + column.val, by
    have hstep : row.val * n + n ≤ n * n := by
      rw [← Nat.succ_mul]
      exact Nat.mul_le_mul_right n row.isLt
    have := column.isLt
    omega⟩

/-- A matrix that has an entry has a positive side. -/
theorem side_pos {n : Nat} (entry : Fin (n * n)) : 0 < n :=
  Nat.pos_of_ne_zero fun hzero ↦ by
    subst hzero
    exact absurd entry.isLt (by simp)

/-- The row of an entry. -/
def row {n : Nat} (entry : Fin (n * n)) : Fin n :=
  ⟨entry.val / n, Nat.div_lt_of_lt_mul entry.isLt⟩

/-- The column of an entry. -/
def column {n : Nat} (entry : Fin (n * n)) : Fin n :=
  ⟨entry.val % n, Nat.mod_lt _ (side_pos entry)⟩

/-- The entry numbered by a row and a column lies in that row. -/
@[simp] theorem row_index {n : Nat} (first second : Fin n) : row (index first second) = first := by
  apply Fin.ext
  have hpos : 0 < n := Nat.lt_of_le_of_lt (Nat.zero_le _) first.isLt
  simp only [row, index]
  rw [Nat.add_comm, Nat.add_mul_div_right _ _ hpos, Nat.div_eq_of_lt second.isLt, Nat.zero_add]

/-- The entry numbered by a row and a column lies in that column. -/
@[simp] theorem column_index {n : Nat} (first second : Fin n) :
    column (index first second) = second := by
  apply Fin.ext
  simp only [column, index]
  rw [Nat.add_comm, Nat.add_mul_mod_self_right, Nat.mod_eq_of_lt second.isLt]

/-- An entry is numbered by its row and its column. -/
@[simp] theorem index_row_column {n : Nat} (entry : Fin (n * n)) :
    index (row entry) (column entry) = entry := by
  apply Fin.ext
  simp only [row, column, index]
  exact Nat.div_add_mod' entry.val n

/-- An entry has a number exactly when its row and column give that number. -/
theorem index_eq_iff {n : Nat} {first second : Fin n} {entry : Fin (n * n)} :
    index first second = entry ↔ row entry = first ∧ column entry = second := by
  constructor
  · rintro rfl
    exact ⟨row_index first second, column_index first second⟩
  · rintro ⟨rfl, rfl⟩
    exact index_row_column entry

/-- The entry in the transposed position. -/
def transpose {n : Nat} (entry : Fin (n * n)) : Fin (n * n) :=
  index (column entry) (row entry)

/-- The transposed entry lies in the row that is the column of the entry. -/
@[simp] theorem row_transpose {n : Nat} (entry : Fin (n * n)) :
    row (transpose entry) = column entry :=
  row_index _ _

/-- The transposed entry lies in the column that is the row of the entry. -/
@[simp] theorem column_transpose {n : Nat} (entry : Fin (n * n)) :
    column (transpose entry) = row entry :=
  column_index _ _

/-- Run a test on `count` consecutive numbers from `start`, as far as the first that fails or has
no answer. -/
def allFrom? (test : Nat → Option Bool) : Nat → Nat → Option Bool
  | _, 0 => some true
  | start, count + 1 =>
      match test start with
      | some true => allFrom? test (start + 1) count
      | stopped => stopped

/-- Whether the entry in a row and column equals the transposed one, if the array has both. -/
def equalsTransposed? (entries : Array Int) (side row column : Nat) : Option Bool :=
  match entries[row * side + column]?, entries[column * side + row]? with
  | some upper, some lower => some (upper == lower)
  | _, _ => none

/-- Whether a matrix equals its transpose. The entries above the diagonal are compared row by row
with the transposed ones; the first difference decides, and a missing entry before it leaves the
question without an answer. -/
def isSymmetric? (entries : Array Int) (side : Nat) : Option Bool :=
  allFrom?
    (fun row ↦ allFrom? (equalsTransposed? entries side row) (row + 1) (side - (row + 1))) 0 side

end WienerRegression.RowMajor
