import Mathlib.Algebra.Order.Ring.Int
import Mathlib.Order.Bounds.Basic
import Mathlib.Tactic.Ring
import WienerRegression.Proofs.Runs

/-!
# The first fault of a call

A call has to meet a list of requirements, and it is refused for the first one that it does not
meet. The requirements on the two buffers speak of every tap and of every pixel of the unit
(`Call.requirements`), while the checks compute two corners of the degraded unit and one of the
source unit. The corners are the least and the greatest of these indices (`isLeast_tapIndices`,
`isGreatest_tapIndices`, `Patch.isGreatest_pixelIndices`), so the checks find exactly the first
unmet requirement (`verdict_eq_error_iff`). They read no sample, and neither the contents of the
outputs nor the skipping of rows has a part in them (`verdict_eq_of_sameGeometry`).
-/

namespace WienerRegression

namespace Patch

variable {width : SampleWidth}

/-- A pixel further right or further down never has a smaller index, also where coordinates are
negative. -/
theorem signedIndex_le_signedIndex (patch : Patch width) {x y right bottom : Int} (hx : x ≤ right)
    (hy : y ≤ bottom) : patch.signedIndex x y ≤ patch.signedIndex right bottom := by
  have hrow : y * (patch.stride : Int) ≤ bottom * patch.stride :=
    Int.mul_le_mul_of_nonneg_right hy (Int.natCast_nonneg _)
  unfold signedIndex
  omega

/-- The buffer indices of the pixels of a unit. -/
def pixelIndices (patch : Patch width) (rect : Rect) : Set Nat :=
  {index | ∃ x y, rect.left ≤ x ∧ x < rect.right ∧ rect.top ≤ y ∧ y < rect.bottom ∧
    index = patch.index x y}

/-- No pixel of a unit has a larger index than its last one. -/
theorem isGreatest_pixelIndices (patch : Patch width) (rect : Rect) :
    IsGreatest (patch.pixelIndices rect) (patch.lastIndex rect) := by
  have hleft := rect.left_lt_right
  have htop := rect.top_lt_bottom
  refine ⟨⟨rect.right - 1, rect.bottom - 1, by omega, by omega, by omega, by omega, rfl⟩, ?_⟩
  rintro index ⟨x, y, -, hx, -, hy, rfl⟩
  exact patch.index_le_index (Nat.le_sub_one_of_lt hx) (Nat.le_sub_one_of_lt hy)

/-- All pixels of a unit are in the buffer exactly when the last one is. -/
theorem pixels_inside_iff (patch : Patch width) (rect : Rect) :
    (∀ index ∈ patch.pixelIndices rect, index < patch.buffer.size) ↔
      ¬ patch.buffer.size ≤ patch.lastIndex rect := by
  obtain ⟨hlast, hgreatest⟩ := patch.isGreatest_pixelIndices rect
  rw [Nat.not_le]
  exact ⟨fun h ↦ h _ hlast, fun h index hindex ↦ Nat.lt_of_le_of_lt (hgreatest hindex) h⟩

/-- Two patches have buffers of one size and address them alike. Their samples may differ. -/
structure SameLayout {leftWidth rightWidth : SampleWidth} (left : Patch leftWidth)
    (right : Patch rightWidth) : Prop where
  size_eq : left.buffer.size = right.buffer.size
  stride_eq : left.stride = right.stride
  origin_eq : left.origin = right.origin

/-- Patches with one layout give each pixel the same index. -/
theorem SameLayout.index_eq {leftWidth rightWidth : SampleWidth} {left : Patch leftWidth}
    {right : Patch rightWidth} (h : left.SameLayout right) (x y : Nat) :
    left.index x y = right.index x y := by
  rw [index, index, h.origin_eq, h.stride_eq]

/-- Patches with one layout give the last pixel of a unit the same index. -/
theorem SameLayout.lastIndex_eq {leftWidth rightWidth : SampleWidth} {left : Patch leftWidth}
    {right : Patch rightWidth} (h : left.SameLayout right) (rect : Rect) :
    left.lastIndex rect = right.lastIndex rect :=
  h.index_eq _ _

end Patch

/-- A request stands for a method unless it asks for vector instructions. -/
theorem MethodRequest.resolve_eq_error_iff {request : MethodRequest} {cause : StatsError} :
    request.resolve = .error cause ↔ request = .simd ∧ cause = .vectorUnavailable := by
  cases request with
  | simd => exact ⟨fun h ↦ ⟨rfl, (Except.error.inj h).symm⟩, fun h ↦ congrArg Except.error h.2.symm⟩
  | auto => exact ⟨nofun, fun h ↦ nomatch h.1⟩
  | reference => exact ⟨nofun, fun h ↦ nomatch h.1⟩
  | specialized => exact ⟨nofun, fun h ↦ nomatch h.1⟩

/-- A request stands for a method exactly when it does not ask for vector instructions. -/
theorem MethodRequest.exists_resolve_eq_ok_iff {request : MethodRequest} :
    (∃ method, request.resolve = .ok method) ↔ request ≠ .simd := by
  cases request <;> simp [MethodRequest.resolve]

/-- A requirement on a call, and the cause that is reported when it is not met. -/
structure Requirement where
  met : Prop
  reports : StatsError → Prop

namespace Requirement

/-- The first requirement of a list that is not met reports this cause. -/
def FirstUnmet : List Requirement → StatsError → Prop
  | [], _ => False
  | requirement :: rest, cause =>
      (¬ requirement.met ∧ requirement.reports cause) ∨ (requirement.met ∧ FirstUnmet rest cause)

/-- Behind requirements that are all met, the first unmet one is found further on. -/
theorem firstUnmet_append {requirements : List Requirement} (rest : List Requirement)
    (cause : StatsError) :
    FirstUnmet (requirements ++ rest) cause ↔ FirstUnmet requirements cause ∨
      (∀ requirement ∈ requirements, requirement.met) ∧ FirstUnmet rest cause := by
  induction requirements with
  | nil => simp [FirstUnmet]
  | cons requirement others ih =>
      rw [List.cons_append, FirstUnmet, FirstUnmet, ih, List.forall_mem_cons]
      tauto

/-- A first requirement that is not met decides what is reported. -/
theorem firstUnmet_cons_of_unmet {requirement : Requirement} (h : ¬ requirement.met)
    (rest : List Requirement) (cause : StatsError) :
    FirstUnmet (requirement :: rest) cause ↔ requirement.reports cause := by
  rw [FirstUnmet]
  tauto

/-- A first requirement that is met leaves what is reported to the others. -/
theorem firstUnmet_cons_of_met {requirement : Requirement} (h : requirement.met)
    (rest : List Requirement) (cause : StatsError) :
    FirstUnmet (requirement :: rest) cause ↔ FirstUnmet rest cause := by
  rw [FirstUnmet]
  tauto

/-- A check in front of others that find the first of their requirements not met finds the first of
all requirements not met. -/
theorem check_eq_error_iff {α : Type} {requirement : Requirement} {fault : Prop} [Decidable fault]
    {reported cause : StatsError} {others : Except StatsError α} {rest : List Requirement}
    (hmet : requirement.met ↔ ¬ fault) (hreports : requirement.reports cause ↔ cause = reported)
    (hothers : others = .error cause ↔ FirstUnmet rest cause) :
    (if fault then .error reported else others) = .error cause ↔
      FirstUnmet (requirement :: rest) cause := by
  by_cases hfault : fault
  · have hunmet : ¬ requirement.met := fun h ↦ hmet.mp h hfault
    rw [if_pos hfault, firstUnmet_cons_of_unmet hunmet, hreports, Except.error.injEq]
    exact eq_comm
  · rw [if_neg hfault, firstUnmet_cons_of_met (hmet.mpr hfault), hothers]

end Requirement

open Requirement

namespace Call

variable {width : SampleWidth} {call : Call width}

/-- The indices of the taps of all pixels of the unit. A tap before the first sample of the buffer
has a negative index. -/
def tapIndices (call : Call width) : Set Int :=
  {index | ∃ x y r c : Nat, call.rect.left ≤ x ∧ x < call.rect.right ∧ call.rect.top ≤ y ∧
    y < call.rect.bottom ∧ r < call.window.side ∧ c < call.window.side ∧
    index = call.degraded.signedIndex ((x + c : Int) - call.window.halo)
      ((y + r : Int) - call.window.halo)}

/-- The requirements on the inputs of a call and on its outputs, in the order in which they count. A
halo that leaves the degraded buffer is reported with the indices of its first and its last tap, but
a first tap before the first sample is given no index. -/
def inputRequirements (call : Call width) (outputs : Outputs) : List Requirement := [
  ⟨call.depth.bits ≤ width.bits,
    (· = .model (.depthTooWide width.bits call.depth.bits))⟩,
  ⟨call.rect.left % 2 = 0,
    (· = .oddLeft call.rect.left)⟩,
  ⟨call.rect.width ≤ width.stagedRowLimit,
    (· = .rowTooWide call.rect.width width.stagedRowLimit)⟩,
  ⟨call.window.taps ≤ outputs.cross.size,
    (· = .outputTooSmall .cross call.window.taps outputs.cross.size)⟩,
  ⟨call.window.tapPairs ≤ outputs.auto.size,
    (· = .outputTooSmall .auto call.window.tapPairs outputs.auto.size)⟩,
  ⟨∀ index ∈ call.tapIndices, 0 ≤ index ∧ index < call.degraded.buffer.size,
    fun cause ↦ ∃ lowest highest, IsLeast call.tapIndices lowest ∧
      IsGreatest call.tapIndices highest ∧
      cause = .haloOutside (if 0 ≤ lowest then some lowest.toNat else none) highest.toNat
        call.degraded.buffer.size⟩,
  ⟨∀ index ∈ call.source.pixelIndices call.rect, index < call.source.buffer.size,
    fun cause ↦ ∃ highest, IsGreatest (call.source.pixelIndices call.rect) highest ∧
      cause = .sourceOutside highest call.source.buffer.size⟩]

/-- The requirements on a call with these outputs. There must be a method that answers it, which
counts last. -/
def requirements (call : Call width) (outputs : Outputs) : List Requirement :=
  call.inputRequirements outputs ++ [⟨call.options.method ≠ .simd, (· = .vectorUnavailable)⟩]

/-- No tap of the unit has a smaller index than the first tap of its first pixel. -/
theorem isLeast_tapIndices (call : Call width) :
    IsLeast call.tapIndices
      ((call.degraded.index call.rect.left call.rect.top : Nat) - (call.reach : Nat) : Int) := by
  have hcorner : call.degraded.signedIndex ((call.rect.left : Int) - call.window.halo)
      ((call.rect.top : Int) - call.window.halo) =
        (call.degraded.index call.rect.left call.rect.top : Nat) - (call.reach : Nat) := by
    unfold Patch.signedIndex Patch.index reach
    push_cast
    ring
  have hside := call.window.side_pos
  rw [← hcorner]
  refine ⟨⟨call.rect.left, call.rect.top, 0, 0, Nat.le_refl _, call.rect.left_lt_right,
    Nat.le_refl _, call.rect.top_lt_bottom, hside, hside, by simp⟩, ?_⟩
  rintro index ⟨x, y, r, c, hleft, -, htop, -, -, -, rfl⟩
  exact call.degraded.signedIndex_le_signedIndex (by omega) (by omega)

/-- No tap of the unit has a larger index than the last tap of its last pixel. -/
theorem isGreatest_tapIndices (call : Call width) :
    IsGreatest call.tapIndices (call.lastTap : Int) := by
  have hside := call.window.side_eq
  have hleft := call.rect.left_lt_right
  have htop := call.rect.top_lt_bottom
  have hcorner : call.degraded.signedIndex ((call.rect.right - 1 : Nat) + call.window.halo : Int)
      ((call.rect.bottom - 1 : Nat) + call.window.halo : Int) = (call.lastTap : Nat) := by
    unfold Patch.signedIndex lastTap Patch.lastIndex Patch.index reach
    push_cast
    ring
  rw [← hcorner]
  refine ⟨⟨call.rect.right - 1, call.rect.bottom - 1, 2 * call.window.halo, 2 * call.window.halo,
    by omega, by omega, by omega, by omega, by omega, by omega, ?_⟩, ?_⟩
  · congr 1
    · push_cast
      ring
    · push_cast
      ring
  · rintro index ⟨x, y, r, c, -, hright, -, hbottom, hr, hc, rfl⟩
    exact call.degraded.signedIndex_le_signedIndex (by omega) (by omega)

/-- The first tap is given an index when the least index of a tap is one. -/
theorem firstTap?_eq (call : Call width) :
    call.firstTap? =
      if 0 ≤ ((call.degraded.index call.rect.left call.rect.top : Nat) - (call.reach : Nat) : Int)
      then some ((call.degraded.index call.rect.left call.rect.top : Nat) -
        (call.reach : Nat) : Int).toNat
      else none := by
  unfold firstTap?
  dsimp only
  by_cases hreach : call.reach ≤ call.degraded.index call.rect.left call.rect.top
  · rw [if_pos hreach, if_pos (by omega), Int.toNat_sub]
  · rw [if_neg hreach, if_neg (by omega)]

/-- All taps of the unit are in the degraded buffer exactly when the two corners are. -/
theorem taps_inside_iff (call : Call width) :
    (∀ index ∈ call.tapIndices, 0 ≤ index ∧ index < call.degraded.buffer.size) ↔
      ¬ (call.firstTap? = none ∨ call.degraded.buffer.size ≤ call.lastTap) := by
  obtain ⟨hfirst, hleast⟩ := call.isLeast_tapIndices
  obtain ⟨hlast, hgreatest⟩ := call.isGreatest_tapIndices
  rw [firstTap?_eq_none_iff]
  constructor
  · intro h
    have hfirst := h _ hfirst
    have hlast := h _ hlast
    omega
  · intro h index hindex
    have hlow := hleast hindex
    have hhigh := hgreatest hindex
    omega

/-- The least and the greatest index of a tap are the ones that the checks report. -/
theorem reports_halo_iff (call : Call width) (cause : StatsError) :
    (∃ lowest highest, IsLeast call.tapIndices lowest ∧ IsGreatest call.tapIndices highest ∧
      cause = .haloOutside (if 0 ≤ lowest then some lowest.toNat else none) highest.toNat
        call.degraded.buffer.size) ↔
      cause = .haloOutside call.firstTap? call.lastTap call.degraded.buffer.size := by
  rw [firstTap?_eq]
  constructor
  · rintro ⟨lowest, highest, hlowest, hhighest, rfl⟩
    rw [hlowest.unique call.isLeast_tapIndices, hhighest.unique call.isGreatest_tapIndices,
      Int.toNat_natCast]
  · rintro rfl
    exact ⟨_, _, call.isLeast_tapIndices, call.isGreatest_tapIndices, by rw [Int.toNat_natCast]⟩

/-- The greatest index of a pixel is the one that the checks report. -/
theorem reports_source_iff (call : Call width) (cause : StatsError) :
    (∃ highest, IsGreatest (call.source.pixelIndices call.rect) highest ∧
      cause = .sourceOutside highest call.source.buffer.size) ↔
      cause = .sourceOutside (call.source.lastIndex call.rect) call.source.buffer.size := by
  have hlast := call.source.isGreatest_pixelIndices call.rect
  constructor
  · rintro ⟨highest, hhighest, rfl⟩
    rw [hhighest.unique hlast]
  · rintro rfl
    exact ⟨_, hlast, rfl⟩

/-- A call is not valid exactly for the first of the requirements on its inputs that it does not
meet. -/
theorem validate_eq_error_iff {outputs : Outputs} {cause : StatsError} :
    call.validate outputs.cross.size outputs.auto.size = .error cause ↔
      FirstUnmet (call.inputRequirements outputs) cause := by
  unfold validate validateAt inputRequirements
  by_cases hdepth : call.depth.bits ≤ width.bits
  -- the other checks run from the left side to the last source pixel
  · rw [BitDepth.heldBy_eq_ok_iff.mpr hdepth, firstUnmet_cons_of_met hdepth]
    refine check_eq_error_iff not_not.symm Iff.rfl ?_
    refine check_eq_error_iff Nat.not_lt.symm Iff.rfl ?_
    refine check_eq_error_iff Nat.not_lt.symm Iff.rfl ?_
    refine check_eq_error_iff Nat.not_lt.symm Iff.rfl ?_
    refine check_eq_error_iff call.taps_inside_iff (call.reports_halo_iff cause) ?_
    refine check_eq_error_iff (call.source.pixels_inside_iff call.rect)
      (call.reports_source_iff cause) ?_
    exact ⟨nofun, nofun⟩
  · have hheld : call.depth.heldBy width = .error (.depthTooWide width.bits call.depth.bits) :=
      if_pos (Nat.not_le.mp hdepth)
    rw [hheld, firstUnmet_cons_of_unmet hdepth]
    constructor
    · intro h
      exact (Except.error.inj h).symm
    · rintro rfl
      rfl

/-- A call is valid exactly when it meets the requirements on its inputs. -/
theorem validate_eq_ok_iff_met {outputs : Outputs} :
    call.validate outputs.cross.size outputs.auto.size = .ok () ↔
      ∀ requirement ∈ call.inputRequirements outputs, requirement.met := by
  have htaps := call.taps_inside_iff
  have hpixels := call.source.pixels_inside_iff call.rect
  rw [firstTap?_eq_none_iff] at htaps
  rw [validate_eq_ok_iff]
  simp only [inputRequirements, List.forall_mem_cons, htaps, hpixels]
  constructor
  · rintro ⟨⟨hdepth, hleft, hwidth, hreach, hlast, hsource⟩, hcross, hauto⟩
    exact ⟨hdepth, hleft, hwidth, hcross, hauto, by omega, by omega, nofun⟩
  · rintro ⟨hdepth, hleft, hwidth, hcross, hauto, htaps, hsource, -⟩
    exact ⟨⟨hdepth, hleft, hwidth, by omega, by omega, by omega⟩, hcross, hauto⟩

/-- A call is refused exactly for the first of its requirements that it does not meet. -/
theorem verdict_eq_error_iff {outputs : Outputs} {cause : StatsError} :
    call.verdict outputs.cross.size outputs.auto.size = .error cause ↔
      FirstUnmet (call.requirements outputs) cause := by
  have hmethod : FirstUnmet [⟨call.options.method ≠ .simd, (· = .vectorUnavailable)⟩] cause ↔
      call.options.method.resolve = .error cause := by
    rw [MethodRequest.resolve_eq_error_iff]
    simp [FirstUnmet]
  rw [requirements, firstUnmet_append, hmethod, ← validate_eq_error_iff, ← validate_eq_ok_iff_met]
  unfold verdict
  cases call.validate outputs.cross.size outputs.auto.size with
  | error reported => simp
  | ok _ => simp

/-- A call is accepted exactly when it meets all its requirements. -/
theorem exists_verdict_eq_ok_iff {outputs : Outputs} :
    (∃ method, call.verdict outputs.cross.size outputs.auto.size = .ok method) ↔
      ∀ requirement ∈ call.requirements outputs, requirement.met := by
  rw [requirements, List.forall_mem_append, List.forall_mem_singleton,
    ← MethodRequest.exists_resolve_eq_ok_iff, ← validate_eq_ok_iff_met]
  unfold verdict
  cases call.validate outputs.cross.size outputs.auto.size with
  | error reported => simp
  | ok _ => simp

/-- Two calls differ at most in the samples of their buffers and in the rows that they skip. -/
structure SameGeometry (left right : Call width) : Prop where
  window_eq : left.window = right.window
  degraded_layout : left.degraded.SameLayout right.degraded
  source_layout : left.source.SameLayout right.source
  rect_eq : left.rect = right.rect
  depth_eq : left.depth = right.depth
  method_eq : left.options.method = right.options.method

/-- The verdict on a call reads no sample and does not ask whether rows are skipped. -/
theorem verdict_eq_of_sameGeometry {left right : Call width} (h : left.SameGeometry right)
    (crossLength autoLength : Nat) :
    left.verdict crossLength autoLength = right.verdict crossLength autoLength := by
  obtain ⟨hwindow, hdegraded, hsource, hrect, hdepth, hmethod⟩ := h
  have hreach : left.reach = right.reach := by
    rw [reach, reach, hwindow, hdegraded.stride_eq]
  have hfirst : left.firstTap? = right.firstTap? := by
    rw [firstTap?, firstTap?, hreach, hrect, hdegraded.index_eq]
  have hlast : left.lastTap = right.lastTap := by
    rw [lastTap, lastTap, hreach, hrect, hdegraded.lastIndex_eq]
  unfold verdict validate validateAt
  rw [hdepth, hrect, hwindow, hfirst, hlast, hdegraded.size_eq, hsource.size_eq,
    hsource.lastIndex_eq, hmethod]

/-- A run is refused for the cause that the verdict on its call gives. -/
theorem run_outcome_eq_refused_iff {outputs : Outputs} {cause : StatsError} :
    (call.run outputs).outcome = .refused cause ↔
      call.verdict outputs.cross.size outputs.auto.size = .error cause := by
  cases hverdict : call.verdict outputs.cross.size outputs.auto.size with
  | error reported => simp [run_of_error hverdict]
  | ok method => simp [run_of_ok hverdict]

/-- A run is done exactly when its call is accepted. -/
theorem run_outcome_eq_done_iff {outputs : Outputs} :
    (call.run outputs).outcome = .done () ↔
      ∃ method, call.verdict outputs.cross.size outputs.auto.size = .ok method := by
  cases hverdict : call.verdict outputs.cross.size outputs.auto.size with
  | error reported => simp [run_of_error hverdict]
  | ok method => simp [run_of_ok hverdict]

/-- A run is done exactly when its call meets all requirements, and refused exactly for the first
one that the call does not meet, in the order of the list; one of the two is the case. Calls that
differ at most in their samples, in the contents of the outputs and in the rows that they skip come
to the same end. -/
theorem run_outcome_first_unmet (call : Call width) (outputs : Outputs) :
    ((call.run outputs).outcome = .done () ↔
      ∀ requirement ∈ call.requirements outputs, requirement.met) ∧
    (∀ cause, (call.run outputs).outcome = .refused cause ↔
      FirstUnmet (call.requirements outputs) cause) ∧
    ((∃ requirement ∈ call.requirements outputs, ¬ requirement.met) →
      ∃ cause, (call.run outputs).outcome = .refused cause) ∧
    ∀ (other : Call width) (others : Outputs), call.SameGeometry other →
      outputs.cross.size = others.cross.size → outputs.auto.size = others.auto.size →
      (call.run outputs).outcome = (other.run others).outcome := by
  refine ⟨?_, ?_, ?_, ?_⟩
  · rw [run_outcome_eq_done_iff, exists_verdict_eq_ok_iff]
  · intro cause
    rw [run_outcome_eq_refused_iff, verdict_eq_error_iff]
  · rintro ⟨requirement, hmem, hunmet⟩
    cases hverdict : call.verdict outputs.cross.size outputs.auto.size with
    | error cause => exact ⟨cause, run_outcome_eq_refused_iff.mpr hverdict⟩
    | ok method => exact absurd (exists_verdict_eq_ok_iff.mp ⟨method, hverdict⟩ _ hmem) hunmet
  · intro other others hgeometry hcross hauto
    have hsame := verdict_eq_of_sameGeometry hgeometry outputs.cross.size outputs.auto.size
    cases hverdict : call.verdict outputs.cross.size outputs.auto.size with
    | error cause =>
        rw [hverdict, hcross, hauto] at hsame
        rw [run_of_error hverdict, run_of_error hsame.symm]
    | ok method =>
        rw [hverdict, hcross, hauto] at hsame
        rw [run_of_ok hverdict, run_of_ok hsame.symm]

end Call

end WienerRegression
