import WienerRegression.Proofs.NormalEquations

/-!
# What a run does

A run is decided by the verdict on its call. A refused run changes nothing and logs nothing
(`run_of_error`); an accepted one replaces the first entries of the outputs by the coefficients of
the normal equations and leaves one record in the log (`run_of_ok`). From these two follows what a
caller can rely on: the methods agree, no other entry is written, every entry is the sum that it
stands for, and no run is cut short by an access outside an array.
-/

namespace WienerRegression.Call

variable {width : SampleWidth} {call : Call width}

/-- An accepted call has outputs with room for its statistics. -/
theorem hasRoom_of_verdict {outputs : Outputs} {method : Method}
    (h : call.verdict outputs.cross.size outputs.auto.size = .ok method) :
    outputs.HasRoom call.window := by
  obtain ⟨-, hcross, hauto, -⟩ := verdict_eq_ok_iff.mp h
  exact ⟨hcross, hauto⟩

/-- A call that a method answers leaves the answer in the outputs. -/
theorem conclude_of_ok {outputs written : Outputs} {method : Method}
    {answer? : Method → Option Outputs} (h : answer? method = some written) :
    call.conclude outputs (.ok method) answer? =
      ⟨.done (), written, [call.logRecord method]⟩ := by
  unfold conclude
  simp only [h]

/-- A run whose call has a fault is refused for it and leaves no trace. -/
theorem run_of_error {outputs : Outputs} {cause : StatsError}
    (h : call.verdict outputs.cross.size outputs.auto.size = .error cause) :
    call.run outputs = ⟨.refused cause, outputs, []⟩ := by
  unfold run
  rw [h]
  rfl

/-- A run whose call is accepted writes the coefficients of the normal equations. -/
theorem run_of_ok {outputs : Outputs} {method : Method}
    (h : call.verdict outputs.cross.size outputs.auto.size = .ok method) :
    call.run outputs =
      ⟨.done (), outputs.replace call.normalEquations, [call.logRecord method]⟩ := by
  have hcall := (verdict_eq_ok_iff.mp h).1
  unfold run
  rw [h]
  exact conclude_of_ok (hcall.answer?_eq (hasRoom_of_verdict h) method)

/-- An accepted run writes the coefficients and nothing else. -/
theorem wrote_of_ok {outputs : Outputs} {method : Method}
    (h : call.verdict outputs.cross.size outputs.auto.size = .ok method) :
    outputs.Wrote call.normalEquations (outputs.replace call.normalEquations) :=
  Outputs.wrote_replace (hasRoom_of_verdict h) _

/-- The call with another request for a method. -/
def withRequest (call : Call width) (request : MethodRequest) : Call width :=
  { call with options := { call.options with method := request } }

/-- The requested method has no part in the checks. -/
theorem validate_withRequest (call : Call width) (request : MethodRequest)
    (crossLength autoLength : Nat) :
    (call.withRequest request).validate crossLength autoLength =
      call.validate crossLength autoLength := rfl

/-- Valid inputs are answered by the method that the request stands for. -/
theorem verdict_withRequest_of_ok {request : MethodRequest} {method : Method}
    {crossLength autoLength : Nat} (hvalid : call.validate crossLength autoLength = .ok ())
    (hmethod : request.resolve = .ok method) :
    (call.withRequest request).verdict crossLength autoLength = .ok method := by
  unfold verdict
  rw [validate_withRequest, hvalid]
  exact hmethod

/-- A fault of the inputs is found whatever method is requested. -/
theorem verdict_withRequest_of_error {crossLength autoLength : Nat} {cause : StatsError}
    (hvalid : call.validate crossLength autoLength = .error cause) (request : MethodRequest) :
    (call.withRequest request).verdict crossLength autoLength = .error cause := by
  unfold verdict
  rw [validate_withRequest, hvalid]

/-- Valid inputs lead to the same entries in the outputs, whatever method the request stands for. -/
theorem run_withRequest_of_ok {request : MethodRequest} {method : Method} {outputs : Outputs}
    (hvalid : call.validate outputs.cross.size outputs.auto.size = .ok ())
    (hmethod : request.resolve = .ok method) :
    (call.withRequest request).run outputs =
      ⟨.done (), outputs.replace call.normalEquations,
        [(call.withRequest request).logRecord method]⟩ :=
  -- the coefficients of the normal equations do not depend on the request
  run_of_ok (verdict_withRequest_of_ok hvalid hmethod)

/-- Whether the reference method, the specialized method, or the choice between them is requested,
a run is refused for the same cause or leaves the same entries in the outputs. The two methods agree
on any rows that are not too wide, whatever their lengths and weights. -/
theorem run_outputs_same_for_methods (call : Call width) (outputs : Outputs) :
    ((∃ cause, ∀ request ∈ [MethodRequest.reference, .specialized, .auto],
      (call.withRequest request).run outputs = ⟨.refused cause, outputs, []⟩) ∨
    ∃ written,
      (call.withRequest .reference).run outputs =
        ⟨.done (), written, [(call.withRequest .reference).logRecord .reference]⟩ ∧
      (call.withRequest .specialized).run outputs =
        ⟨.done (), written, [(call.withRequest .specialized).logRecord .specialized]⟩ ∧
      (call.withRequest .auto).run outputs =
        ⟨.done (), written, [(call.withRequest .auto).logRecord .specialized]⟩) ∧
    ∀ (average : Int) (rows : List (WeightedRow width call.window))
      (storage : Statistics call.window),
      (∀ row ∈ rows, row.pixels.length ≤ width.stagedRowLimit) →
      CenteredSums.accumulate call.depth average rows storage =
        (StagedSums.ofRows rows).statistics call.depth average
          (WeightedRow.total rows fun _ ↦ 1) := by
  refine ⟨?_, ?_⟩
  · cases hvalid : call.validate outputs.cross.size outputs.auto.size with
    | error cause =>
        left
        refine ⟨cause, ?_⟩
        intro request _
        exact run_of_error (verdict_withRequest_of_error hvalid request)
    | ok _ =>
        right
        exact ⟨outputs.replace call.normalEquations, run_withRequest_of_ok hvalid rfl,
          run_withRequest_of_ok hvalid rfl, run_withRequest_of_ok hvalid rfl⟩
  · intro average rows storage hfits
    exact accumulate_eq_statistics call.depth average hfits rfl storage

/-- There are values that depend on the call alone such that a run with any outputs is either
refused, with the outputs and the log as before, or writes these values to the first entries of the
outputs, changes no other entry, and logs one record with the data of the call. -/
theorem run_writes_prefix_or_nothing (call : Call width) :
    CallRecord.level = "DEBUG" ∧
    ∃ values : Statistics call.window, ∀ outputs : Outputs,
      (∃ cause, call.verdict outputs.cross.size outputs.auto.size = .error cause ∧
        call.run outputs = ⟨.refused cause, outputs, []⟩) ∨
      ∃ method written, call.verdict outputs.cross.size outputs.auto.size = .ok method ∧
        call.options.method.resolve = .ok method ∧
        call.run outputs = ⟨.done (), written,
          [{ requested := call.options.method, method := method, window := call.window,
             depth := call.depth, rect := call.rect, sparse := call.options.sparse }]⟩ ∧
        outputs.Wrote values written := by
  refine ⟨rfl, call.normalEquations, ?_⟩
  intro outputs
  cases hverdict : call.verdict outputs.cross.size outputs.auto.size with
  | error cause => exact .inl ⟨cause, rfl, run_of_error hverdict⟩
  | ok method =>
      have hroom := hasRoom_of_verdict hverdict
      have hmethod := (verdict_eq_ok_iff.mp hverdict).2.2.2
      exact .inr ⟨method, _, rfl, hmethod, run_of_ok hverdict, Outputs.wrote_replace hroom _⟩

/-- The entries that an accepted run of the reference method leaves. The entry of the tap in row `r`
and column `c` of the window, and the entry of every pair of taps on either side of the diagonal, is
the weighted sum of the products of the two deviations over the pixels of the scanned rows, divided
and rounded toward zero. The average is that of all rows of the unit. All samples in the sums are
those of the buffers. -/
theorem reference_run_entries (call : Call width) (outputs : Outputs)
    (haccepted : call.verdict outputs.cross.size outputs.auto.size = .ok .reference) :
    ∃ written, call.run outputs = ⟨.done (), written, [call.logRecord .reference]⟩ ∧
      (∀ r < call.window.side, ∀ c < call.window.side,
        written.cross[c * call.window.side + r]? =
          some ((call.weightedSum fun x y ↦
            ((call.tapAt r c x y).val - (call.degraded.mean call.rect)) *
              ((call.source.sampleAt x y).val - (call.degraded.mean call.rect))).tdiv
                (2 ^ (call.depth.bits - 8)))) ∧
      (∀ first second : Fin call.window.taps,
        written.auto[first.val * call.window.taps + second.val]? =
          some ((call.weightedSum fun x y ↦
            ((call.tapAt (call.window.tapRow first) (call.window.tapColumn first) x y).val -
                (call.degraded.mean call.rect)) *
              ((call.tapAt (call.window.tapRow second) (call.window.tapColumn second) x y).val -
                (call.degraded.mean call.rect))).tdiv (2 ^ (call.depth.bits - 8)))) ∧
      ∀ x y, call.rect.left ≤ x → x < call.rect.right → call.rect.top ≤ y →
        y < call.rect.bottom →
        (∀ r < call.window.side, ∀ c < call.window.side, ∃ index,
          index + (call.window.halo * call.degraded.stride + call.window.halo) =
            call.degraded.index x y + r * call.degraded.stride + c ∧
          call.degraded.buffer[index]? = some (call.tapAt r c x y)) ∧
        call.source.buffer[call.source.index x y]? = some (call.source.sampleAt x y) ∧
        call.degraded.buffer[call.degraded.index x y]? = some (call.degraded.sampleAt x y) := by
  have hcall := (verdict_eq_ok_iff.mp haccepted).1
  have hwrote := Outputs.wrote_replace (hasRoom_of_verdict haccepted) call.normalEquations
  refine ⟨_, run_of_ok haccepted, ?_, ?_, ?_⟩
  · intro r hr c hc
    rw [← call.depth.divisor_eq_two_pow]
    exact (hwrote.cross_tap ⟨call.window.tapIndex r c, call.window.tapIndex_lt hr hc⟩).trans
      (congrArg some (call.get_cross_normalEquations hr hc))
  · intro first second
    rw [← call.depth.divisor_eq_two_pow]
    exact (hwrote.auto_entry (RowMajor.index first second)).trans
      (congrArg some (call.get_auto_normalEquations first second))
  · intro x y hleft hright htop hbottom
    refine ⟨?_, Patch.getElem?_index (Patch.index_lt_size hcall.lastPixel_lt hright hbottom),
      Patch.getElem?_index (Patch.index_lt_size hcall.lastDegraded_lt hright hbottom)⟩
    intro r hr c hc
    exact hcall.exists_index_tapAt hleft hright htop hbottom hr hc

/-- A sparse call for 10-bit content. Of the five rows of its unit the first is scanned with
weight 4 and the last with weight 1. -/
def sparseChroma : Call .word where
  window := .chroma
  degraded := {
    buffer := ((List.range 63).map fun i ↦ Sample.truncate .word (i * i % 101)).toArray
    stride := 7
    origin := 16
    stride_pos := Nat.zero_lt_succ _
    origin_lt := by decide }
  source := {
    buffer := ((List.range 15).map fun i ↦ Sample.truncate .word (i * i % 89)).toArray
    stride := 3
    origin := 0
    stride_pos := Nat.zero_lt_succ _
    origin_lt := by decide }
  rect := ⟨0, 3, 0, 5, Nat.zero_lt_succ _, Nat.zero_lt_succ _⟩
  depth := .ten
  options := ⟨true, .reference⟩

/-- The call `sparseChroma` is accepted. An entry of the vector and an entry below the diagonal of
the matrix are negative and rounded up. -/
theorem reference_run_sparseChroma :
    sparseChroma.verdict 25 626 = .ok .reference ∧
    ∃ written, sparseChroma.run ⟨Array.replicate 25 9, Array.replicate 626 9⟩ =
        ⟨.done (), written, [sparseChroma.logRecord .reference]⟩ ∧
      written.cross[1 * 5 + 2]? = some (Int.tdiv (-5821) 4) ∧
      written.auto[11 * 25 + 7]? = some (Int.tdiv (-2662) 4) := by
  have haccepted : sparseChroma.verdict 25 626 = .ok .reference := by decide
  obtain ⟨written, hrun, hcross, hauto, -⟩ := reference_run_entries sparseChroma
    ⟨Array.replicate 25 9, Array.replicate 626 9⟩ (by simpa using haccepted)
  refine ⟨haccepted, written, hrun, ?_, ?_⟩
  · exact (hcross 2 (by decide) 1 (by decide)).trans (by decide +kernel)
  · exact (hauto ⟨11, by decide⟩ ⟨7, by decide⟩).trans (by decide +kernel)

/-- No run is cut short by an access outside an array, and neither is an average. In an accepted
call the halo of every row of the unit begins in the degraded buffer, every tap of every pixel is in
it, the rows that are read end within their buffers, and every entry that is written is in its
output. -/
theorem run_accesses_in_range (call : Call width) (outputs : Outputs) :
    (call.run outputs).outcome ≠ .outside ∧
    (∀ method, call.verdict outputs.cross.size outputs.auto.size = .ok method →
      (∀ row, call.rect.top ≤ row → row < call.rect.bottom →
        call.reach ≤ call.degraded.index call.rect.left row ∧
        (∀ column < call.rect.width, ∀ r < call.window.side, ∀ c < call.window.side,
          call.degraded.index call.rect.left row - call.reach + column +
            r * call.degraded.stride + c < call.degraded.buffer.size) ∧
        call.source.index call.rect.left row + call.rect.width ≤ call.source.buffer.size ∧
        call.degraded.index call.rect.left row + call.rect.width ≤ call.degraded.buffer.size) ∧
      (∀ tap < call.window.taps, tap < outputs.cross.size) ∧
      ∀ first < call.window.taps, ∀ second < call.window.taps,
        first * call.window.taps + second < outputs.auto.size) ∧
    ∀ (patch : Patch width) (rect : Rect), patch.average rect ≠ .outside := by
  refine ⟨?_, ?_, ?_⟩
  · cases hverdict : call.verdict outputs.cross.size outputs.auto.size with
    | error cause =>
        rw [run_of_error hverdict]
        nofun
    | ok method =>
        rw [run_of_ok hverdict]
        nofun
  · intro method hverdict
    have hcall := (verdict_eq_ok_iff.mp hverdict).1
    have hroom := hasRoom_of_verdict hverdict
    refine ⟨?_, ?_, ?_⟩
    · intro row htop hbottom
      refine ⟨hcall.reach_le_index htop, ?_, Patch.row_le_size hcall.lastPixel_lt hbottom,
        Patch.row_le_size hcall.lastDegraded_lt hbottom⟩
      intro column hcolumn r hr c hc
      exact Nat.lt_of_le_of_lt (hcall.index_le_lastTap htop hbottom hcolumn hr hc)
        hcall.lastTap_lt
    · intro tap htap
      exact Nat.lt_of_lt_of_le htap hroom.cross_le
    · intro first hfirst second hsecond
      have hentry := (RowMajor.index ⟨first, hfirst⟩ ⟨second, hsecond⟩).isLt
      exact Nat.lt_of_lt_of_le hentry hroom.auto_le
  · intro patch rect
    rw [Patch.average_eq]
    split
    · nofun
    · nofun

end WienerRegression.Call
