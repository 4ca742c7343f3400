import WienerRegression.ModelError

/-!
# Tap windows

The restoration filter has a square of taps around each pixel: five by five for chroma, seven by
seven for luma. Taps are numbered column by column.
-/

namespace WienerRegression

/-- The two tap windows. -/
inductive Window where
  /-- Five by five taps. -/
  | chroma
  /-- Seven by seven taps. -/
  | luma
  deriving DecidableEq

namespace Window

/-- The windows in increasing order. -/
def all : List Window := [.chroma, .luma]

/-- The number of taps along a side. -/
def side : Window → Nat
  | .chroma => 5
  | .luma => 7

/-- The window with this side. -/
def ofSide? : Nat → Except ModelError Window
  | 5 => .ok .chroma
  | 7 => .ok .luma
  | side => .error (.invalidWindow side)

/-- The width of the halo: how far the window reaches beyond its centre. -/
def halo (window : Window) : Nat :=
  window.side / 2

/-- The number of taps. -/
def taps (window : Window) : Nat :=
  window.side * window.side

/-- The number of pairs of taps. -/
def tapPairs (window : Window) : Nat :=
  window.taps * window.taps

/-- The number of the tap at a row and column of the window. -/
def tapIndex (window : Window) (row column : Nat) : Nat :=
  column * window.side + row

/-- The row of a tap in the window. -/
def tapRow (window : Window) (tap : Fin window.taps) : Nat :=
  tap.val % window.side

/-- The column of a tap in the window. -/
def tapColumn (window : Window) (tap : Fin window.taps) : Nat :=
  tap.val / window.side

/-- The name of the window in descriptions. -/
def name : Window → String
  | .chroma => "Chroma"
  | .luma => "Luma"

/-- A window has a positive side. -/
theorem side_pos (window : Window) : 0 < window.side := by
  cases window <;> decide

/-- The row of a tap is a row of the window. -/
theorem tapRow_lt (window : Window) (tap : Fin window.taps) :
    window.tapRow tap < window.side :=
  Nat.mod_lt _ window.side_pos

/-- The column of a tap is a column of the window. -/
theorem tapColumn_lt (window : Window) (tap : Fin window.taps) :
    window.tapColumn tap < window.side :=
  Nat.div_lt_of_lt_mul tap.isLt

/-- A tap has the number that its row and column give. -/
theorem tapIndex_tapRow_tapColumn (window : Window) (tap : Fin window.taps) :
    window.tapIndex (window.tapRow tap) (window.tapColumn tap) = tap.val :=
  Nat.div_add_mod' tap.val window.side

/-- A row and a column of the window give the number of a tap. -/
theorem tapIndex_lt (window : Window) {row column : Nat} (hrow : row < window.side)
    (hcolumn : column < window.side) : window.tapIndex row column < window.taps := by
  have hcolumns : (column + 1) * window.side ≤ window.side * window.side :=
    Nat.mul_le_mul_right _ hcolumn
  rw [Nat.succ_mul] at hcolumns
  unfold tapIndex taps
  omega

/-- The tap numbered by a row and a column lies in that row. -/
theorem tapRow_tapIndex (window : Window) {row column : Nat} (hrow : row < window.side)
    (hcolumn : column < window.side) :
    window.tapRow ⟨window.tapIndex row column, window.tapIndex_lt hrow hcolumn⟩ = row := by
  unfold tapRow tapIndex
  exact Nat.mul_add_mod_of_lt hrow

/-- The tap numbered by a row and a column lies in that column. -/
theorem tapColumn_tapIndex (window : Window) {row column : Nat} (hrow : row < window.side)
    (hcolumn : column < window.side) :
    window.tapColumn ⟨window.tapIndex row column, window.tapIndex_lt hrow hcolumn⟩ = column := by
  unfold tapColumn tapIndex
  dsimp only
  rw [Nat.add_comm, Nat.add_mul_div_right _ _ window.side_pos, Nat.div_eq_of_lt hrow,
    Nat.zero_add]

end Window

end WienerRegression
