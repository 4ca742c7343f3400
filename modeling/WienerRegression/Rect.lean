import WienerRegression.ModelError

/-!
# Restoration units

A restoration unit is a rectangle of pixels with at least one column and one row.
-/

namespace WienerRegression

/-- The pixels with `left ≤ x < right` and `top ≤ y < bottom`, of which there is at least one. -/
structure Rect where
  left : Nat
  right : Nat
  top : Nat
  bottom : Nat
  left_lt_right : left < right
  top_lt_bottom : top < bottom
  deriving DecidableEq

namespace Rect

/-- The rectangle between these bounds, the right and bottom ones excluded. -/
def ofBounds? (left right top bottom : Nat) : Except ModelError Rect :=
  if h : left < right ∧ top < bottom then
    .ok ⟨left, right, top, bottom, h.1, h.2⟩
  else
    .error (.emptyRect left right top bottom)

/-- The rectangle of a given size whose first pixel is at `(x, y)`. -/
def ofCorner? (x y width height : Nat) : Except ModelError Rect :=
  ofBounds? x (x + width) y (y + height)

/-- The number of columns. -/
def width (rect : Rect) : Nat :=
  rect.right - rect.left

/-- The number of rows. -/
def height (rect : Rect) : Nat :=
  rect.bottom - rect.top

/-- The number of pixels. -/
def area (rect : Rect) : Nat :=
  rect.width * rect.height

/-- A rectangle has a pixel. -/
theorem area_pos (rect : Rect) : 0 < rect.area :=
  Nat.mul_pos (Nat.sub_pos_of_lt rect.left_lt_right) (Nat.sub_pos_of_lt rect.top_lt_bottom)

end Rect

end WienerRegression
