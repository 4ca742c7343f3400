import Mathlib.Tactic.Common
import WienerRegression.Statistics

/-!
# What a write leaves in the outputs

Writing statistics replaces as many entries at the start of each output as the window needs and
leaves every later entry alone (`wrote_replace`). The write succeeds if the outputs have room for
the statistics (`write?_eq`), and so does reading them for a method that accumulates in place
(`read?_eq`).
-/

namespace WienerRegression

/-- An array with its first entries replaced by the given values. -/
def overwrite (values entries : Array Int) : Array Int :=
  values ++ entries.extract values.size

/-- Values that fit an array replace its first entries. -/
theorem overwrite?_eq {values entries : Array Int} (h : values.size ≤ entries.size) :
    overwrite? values entries = some (overwrite values entries) :=
  if_pos h

/-- Replacing entries keeps the length. -/
theorem size_overwrite {values entries : Array Int} (h : values.size ≤ entries.size) :
    (overwrite values entries).size = entries.size := by
  simp only [overwrite, Array.size_append, Array.size_extract]
  omega

/-- The first entries become the given values. -/
theorem getElem?_overwrite_of_lt {values : Array Int} (entries : Array Int) {position : Nat}
    (h : position < values.size) : (overwrite values entries)[position]? = values[position]? :=
  Array.getElem?_append_left h

/-- The entries after the given values stay as they are. -/
theorem getElem?_overwrite_of_le {values : Array Int} (entries : Array Int) {position : Nat}
    (h : values.size ≤ position) :
    (overwrite values entries)[position]? = entries[position]? := by
  show (values ++ entries.extract values.size)[position]? = entries[position]?
  rw [Array.getElem?_append_right h, Array.getElem?_extract]
  have hback : values.size + (position - values.size) = position := by omega
  rw [hback, Nat.min_self]
  by_cases hlt : position < entries.size
  · rw [if_pos (by omega)]
  · rw [if_neg (by omega), Array.getElem?_eq_none (by omega)]

namespace Outputs

variable {window : Window}

/-- The outputs have an entry for each tap and for each pair of taps. -/
structure HasRoom (outputs : Outputs) (window : Window) : Prop where
  cross_le : window.taps ≤ outputs.cross.size
  auto_le : window.tapPairs ≤ outputs.auto.size

/-- The outputs with their first entries replaced by statistics. -/
def replace (outputs : Outputs) (statistics : Statistics window) : Outputs where
  cross := overwrite statistics.cross.toArray outputs.cross
  auto := overwrite statistics.auto.toArray outputs.auto

/-- Outputs with room for the statistics can be accumulated in. -/
theorem read?_eq {outputs : Outputs} (h : outputs.HasRoom window) :
    ∃ storage, outputs.read? window = some storage := by
  have hauto : window.taps * window.taps ≤ outputs.auto.size := h.auto_le
  unfold read? first?
  rw [dif_pos h.cross_le, dif_pos hauto]
  exact ⟨_, rfl⟩

/-- The vector of the statistics fits the output for it. -/
theorem HasRoom.size_cross_le {outputs : Outputs} (h : outputs.HasRoom window)
    (statistics : Statistics window) : statistics.cross.toArray.size ≤ outputs.cross.size := by
  rw [Vector.size_toArray]
  exact h.cross_le

/-- The matrix of the statistics fits the output for it. -/
theorem HasRoom.size_auto_le {outputs : Outputs} (h : outputs.HasRoom window)
    (statistics : Statistics window) : statistics.auto.toArray.size ≤ outputs.auto.size := by
  rw [Vector.size_toArray]
  exact h.auto_le

/-- Statistics are written to outputs that have room for them. -/
theorem write?_eq {outputs : Outputs} (h : outputs.HasRoom window)
    (statistics : Statistics window) :
    outputs.write? statistics = some (outputs.replace statistics) := by
  unfold write?
  rw [overwrite?_eq (h.size_cross_le statistics), overwrite?_eq (h.size_auto_le statistics)]
  rfl

/-- What a write of statistics leaves: the first entries are those of the statistics, every later
entry is the one before the write, and no entry is added or lost. -/
structure Wrote (before : Outputs) (statistics : Statistics window) (after : Outputs) : Prop where
  size_cross : after.cross.size = before.cross.size
  size_auto : after.auto.size = before.auto.size
  cross_tap : ∀ tap : Fin window.taps, after.cross[tap.val]? = some (statistics.cross.get tap)
  auto_entry : ∀ entry : Fin (window.taps * window.taps),
    after.auto[entry.val]? = some (statistics.auto.get entry)
  cross_of_le : ∀ position, window.taps ≤ position →
    after.cross[position]? = before.cross[position]?
  auto_of_le : ∀ position, window.tapPairs ≤ position →
    after.auto[position]? = before.auto[position]?

/-- Each of the first entries that a write leaves in the vector is one of the statistics. -/
theorem Wrote.exists_of_mem_take_cross {before after : Outputs} {statistics : Statistics window}
    (h : before.Wrote statistics after) {value : Int}
    (hvalue : value ∈ after.cross.toList.take window.taps) :
    ∃ tap, value = statistics.cross.get tap := by
  obtain ⟨position, hposition, rfl⟩ := List.mem_take_iff_getElem.mp hvalue
  have htap : position < window.taps := by omega
  have hentry := h.cross_tap ⟨position, htap⟩
  refine ⟨⟨position, htap⟩, Option.some.inj ?_⟩
  rw [← hentry, ← Array.getElem?_toList, List.getElem?_eq_getElem]

/-- Each of the first entries that a write leaves in the matrix is one of the statistics. -/
theorem Wrote.exists_of_mem_take_auto {before after : Outputs} {statistics : Statistics window}
    (h : before.Wrote statistics after) {value : Int}
    (hvalue : value ∈ after.auto.toList.take window.tapPairs) :
    ∃ entry, value = statistics.auto.get entry := by
  obtain ⟨position, hposition, rfl⟩ := List.mem_take_iff_getElem.mp hvalue
  have hpair : position < window.taps * window.taps := by
    unfold Window.tapPairs at hposition
    omega
  have hentry := h.auto_entry ⟨position, hpair⟩
  refine ⟨⟨position, hpair⟩, Option.some.inj ?_⟩
  rw [← hentry, ← Array.getElem?_toList, List.getElem?_eq_getElem]

/-- Replacing the first entries is a write of the statistics, if the outputs have room for them. -/
theorem wrote_replace {outputs : Outputs} (h : outputs.HasRoom window)
    (statistics : Statistics window) :
    outputs.Wrote statistics (outputs.replace statistics) where
  size_cross := size_overwrite (h.size_cross_le statistics)
  size_auto := size_overwrite (h.size_auto_le statistics)
  cross_tap := by
    intro tap
    have hlt : tap.val < statistics.cross.toArray.size := by simp
    exact (getElem?_overwrite_of_lt _ hlt).trans (Array.getElem?_eq_getElem hlt)
  auto_entry := by
    intro entry
    have hlt : entry.val < statistics.auto.toArray.size := by simp
    exact (getElem?_overwrite_of_lt _ hlt).trans (Array.getElem?_eq_getElem hlt)
  cross_of_le := by
    intro position hposition
    apply getElem?_overwrite_of_le
    rw [Vector.size_toArray]
    exact hposition
  auto_of_le := by
    intro position hposition
    apply getElem?_overwrite_of_le
    rw [Vector.size_toArray]
    exact hposition

end Outputs

end WienerRegression
