import Mathlib.Tactic.Common
import WienerRegression.Call

/-!
# Accepted calls

A call is valid when its inputs are admissible and both outputs are long enough
(`validate_eq_ok_iff`), and it is accepted when there also is a method that answers it
(`verdict_eq_ok_iff`). Whether the inputs are admissible depends on the
geometry and the depth alone, not on any sample.
-/

namespace WienerRegression

/-- A storage format holds content that has no more bits than the format. -/
theorem BitDepth.heldBy_eq_ok_iff {depth : BitDepth} {width : SampleWidth} :
    depth.heldBy width = .ok () ↔ depth.bits ≤ width.bits := by
  unfold heldBy
  split
  · next h => exact ⟨fun hok ↦ (by cases hok), fun hle ↦ absurd hle (by omega)⟩
  · next h => exact ⟨fun _ ↦ by omega, fun _ ↦ rfl⟩

namespace Call

variable {width : SampleWidth} {call : Call width}

/-- The inputs of a call fit together: the storage format holds the content, the first column is
even, no row is too wide for its accumulator, and the first and last tap of the unit and its last
source pixel are in their buffers. -/
structure Admissible (call : Call width) : Prop where
  depth_le : call.depth.bits ≤ width.bits
  left_even : call.rect.left % 2 = 0
  width_le : call.rect.width ≤ width.stagedRowLimit
  reach_le : call.reach ≤ call.degraded.index call.rect.left call.rect.top
  lastTap_lt : call.lastTap < call.degraded.buffer.size
  lastPixel_lt : call.source.lastIndex call.rect < call.source.buffer.size

/-- The first tap has no index when the halo reaches before the first sample. -/
theorem firstTap?_eq_none_iff :
    call.firstTap? = none ↔ call.degraded.index call.rect.left call.rect.top < call.reach := by
  show (if call.reach ≤ call.degraded.index call.rect.left call.rect.top then
    some (call.degraded.index call.rect.left call.rect.top - call.reach) else none) = none ↔ _
  split
  · next h => exact ⟨fun hnone ↦ (by cases hnone), fun hlt ↦ absurd h (by omega)⟩
  · next h => exact ⟨fun _ ↦ by omega, fun _ ↦ rfl⟩

/-- The checks find no fault exactly when the inputs are admissible and the outputs have room for
the statistics. -/
theorem validate_eq_ok_iff {crossLength autoLength : Nat} :
    call.validate crossLength autoLength = .ok () ↔
      call.Admissible ∧ call.window.taps ≤ crossLength ∧ call.window.tapPairs ≤ autoLength := by
  refine ⟨?_, ?_⟩
  · intro h
    unfold validate validateAt at h
    split at h
    · cases h
    · next hdepth =>
        split_ifs at h with hleft hwidth hcross hauto htaps hsource
        rw [firstTap?_eq_none_iff] at htaps
        exact ⟨⟨BitDepth.heldBy_eq_ok_iff.mp hdepth, by omega, by omega, by omega, by omega,
          by omega⟩, by omega, by omega⟩
  · rintro ⟨hcall, hcross, hauto⟩
    have hleft := hcall.left_even
    have hwidth := hcall.width_le
    have hsource := hcall.lastPixel_lt
    have htaps : ¬ (call.firstTap? = none ∨ call.degraded.buffer.size ≤ call.lastTap) := by
      rw [firstTap?_eq_none_iff]
      have hreach := hcall.reach_le
      have hlast := hcall.lastTap_lt
      omega
    unfold validate validateAt
    rw [BitDepth.heldBy_eq_ok_iff.mpr hcall.depth_le]
    simp only [hleft, ne_eq, not_true_eq_false, if_false, Nat.not_lt.mpr hwidth,
      Nat.not_lt.mpr hcross, Nat.not_lt.mpr hauto, htaps, Nat.not_le.mpr hsource]

/-- A call is accepted exactly when its inputs are admissible, the outputs have room for the
statistics, and its request stands for a method. -/
theorem verdict_eq_ok_iff {crossLength autoLength : Nat} {method : Method} :
    call.verdict crossLength autoLength = .ok method ↔
      call.Admissible ∧ call.window.taps ≤ crossLength ∧ call.window.tapPairs ≤ autoLength ∧
        call.options.method.resolve = .ok method := by
  rw [← and_assoc, ← and_assoc, and_assoc (a := call.Admissible), ← validate_eq_ok_iff]
  unfold verdict
  cases hvalid : call.validate crossLength autoLength with
  | error cause => exact ⟨fun h ↦ (by cases h), fun h ↦ (by cases h.1)⟩
  | ok _ => exact ⟨fun h ↦ ⟨rfl, h⟩, fun h ↦ h.2⟩

end Call

end WienerRegression
