import WienerRegression.Proofs.Acceptance
import WienerRegression.Proofs.FixtureChanges
import WienerRegression.Proofs.GeneratorSteps

/-!
# The samples of a filled fixture

The random fills thread a generator through the buffers. Each draw is made by the generator that the
draws before it leave (`get_drawMany`), so the position of a sample tells which draw it is: a fill
at random takes the draws for the two buffers in turn, and a fill with columns takes the row of the
degraded buffer before that of the source buffer (`fills_are_drawn`). A storage format that holds
the content holds every draw as it is (`isDrawn_drawSample`). Words have to count the samples of
the square: the buffers of a larger one are no square, and may have no sample to fill
(`fills_without_square`).
-/

namespace WienerRegression

/-- The largest sample value has all bits set. -/
theorem BitDepth.maxValue_add_one (depth : BitDepth) : depth.maxValue + 1 = 2 ^ depth.bits := by
  cases depth <;> decide

/-- A storage format that holds the content has a level for every sample value. -/
theorem BitDepth.maxValue_lt_levels {depth : BitDepth} {width : SampleWidth}
    (h : depth.heldBy width = .ok ()) : depth.maxValue < width.levels := by
  have hbits := heldBy_eq_ok_iff.mp h
  have hlevels : width.levels = 2 ^ width.bits := by
    cases width <;> decide
  have hpow : 2 ^ depth.bits ≤ 2 ^ width.bits := Nat.pow_le_pow_right Nat.two_pos hbits
  rw [hlevels, ← Nat.add_one_le_iff, depth.maxValue_add_one]
  exact hpow

/-- A sample is what a generator yields at the draw with an index, counted from zero, narrowed to
the storage format. A format that holds the content holds the draw as it is, and the draw does not
exceed the largest value of the content. -/
structure Sample.IsDrawn {width : SampleWidth} (sample : Sample width) (depth : BitDepth)
    (generator : Generator) (index : Nat) : Prop where
  eq_truncate : sample = truncate width (generator.drawn (.sample depth.bits) index)
  val_eq : depth.heldBy width = .ok () → sample.val = generator.drawn (.sample depth.bits) index
  val_le : depth.heldBy width = .ok () → sample.val ≤ depth.maxValue

/-- The sample in a position of a buffer is what a generator yields at the draw with an index. -/
def DrawnAt {width : SampleWidth} (samples : Array (Sample width)) (position : Nat)
    (depth : BitDepth) (generator : Generator) (index : Nat) : Prop :=
  ∃ sample, samples[position]? = some sample ∧ sample.IsDrawn depth generator index

/-- An entry of a vector is the one in its position. -/
theorem drawnAt_of_get {width : SampleWidth} {count : Nat} {samples : Vector (Sample width) count}
    {position : Fin count} {depth : BitDepth} {generator : Generator} {index : Nat}
    (h : (samples.get position).IsDrawn depth generator index) :
    DrawnAt samples.toArray position depth generator index :=
  ⟨samples.get position, by simp [Vector.get], h⟩

namespace Fixture

variable {width : SampleWidth} {fixture : Fixture width} {window : Window} {side : Nat}

/-! ## Draws in order -/

section DrawMany

variable {α : Type} {steps : Nat} {draw : Generator → α × Generator}

/-- Draws of some steps each take as many times those steps. -/
theorem snd_drawMany (hdraw : ∀ generator, (draw generator).2 = generator.after steps) (count : Nat)
    (generator : Generator) :
    (drawMany count draw generator).2 = generator.after (steps * count) := by
  induction count with
  | zero => rfl
  | succ count ih => rw [drawMany_succ, hdraw, ih, ← Generator.after_add, Nat.mul_succ]

/-- Each of several draws is made by the generator that the draws before it leave. -/
theorem get_drawMany (hdraw : ∀ generator, (draw generator).2 = generator.after steps) {count : Nat}
    (generator : Generator) (index : Fin count) :
    (drawMany count draw generator).1.get index = (draw (generator.after (steps * index))).1 := by
  induction count with
  | zero => exact index.elim0
  | succ count ih =>
      rw [drawMany_succ]
      show ((drawMany count draw generator).1.push _)[index.val] = _
      rw [Vector.getElem_push]
      by_cases hearlier : index.val < count
      · rw [dif_pos hearlier]
        exact ih ⟨index, hearlier⟩
      · have hlast : index.val = count := by omega
        rw [dif_neg hearlier, snd_drawMany hdraw, hlast]

end DrawMany

/-- A sample of the content takes one step of the generator. -/
theorem snd_drawSample (width : SampleWidth) (depth : BitDepth) (generator : Generator) :
    (drawSample width depth generator).2 = generator.after 1 :=
  rfl

/-- A sample of the content is the draw whose turn it is. -/
theorem isDrawn_drawSample (width : SampleWidth) (depth : BitDepth) (generator : Generator)
    (index : Nat) :
    (drawSample width depth (generator.after index)).1.IsDrawn depth generator index := by
  have hdrawn : (drawSample width depth (generator.after index)).1 =
      Sample.truncate width (generator.drawn (.sample depth.bits) index) := by
    rw [generator.drawn_sample]
    rfl
  have hle : generator.drawn (.sample depth.bits) index ≤ depth.maxValue := by
    have hlt : generator.drawn (.sample depth.bits) index < 2 ^ depth.bits := by
      rw [generator.drawn_sample]
      cases depth <;> exact Generator.drawSample_lt _ (by decide) (by decide)
    rw [← depth.maxValue_add_one] at hlt
    exact Nat.le_of_lt_succ hlt
  have hexact : depth.heldBy width = .ok () →
      (drawSample width depth (generator.after index)).1.val =
        generator.drawn (.sample depth.bits) index := by
    intro hheld
    rw [hdrawn, Sample.val_truncate]
    exact Nat.mod_eq_of_lt (Nat.lt_of_le_of_lt hle (BitDepth.maxValue_lt_levels hheld))
  exact ⟨hdrawn, hexact, fun hheld ↦ hexact hheld ▸ hle⟩

/-- A row of samples holds the draws from its first one on. -/
theorem isDrawn_get_drawMany (width : SampleWidth) (depth : BitDepth) (generator : Generator)
    (start : Nat) {count : Nat} (index : Fin count) :
    ((drawMany count (drawSample width depth) (generator.after start)).1.get index).IsDrawn depth
      generator (start + index) := by
  rw [get_drawMany (snd_drawSample width depth), Nat.one_mul, ← Generator.after_add]
  exact isDrawn_drawSample width depth generator (start + index)

/-! ## The fills -/

/-- A pair of samples takes two steps of the generator. -/
theorem snd_drawPair (width : SampleWidth) (depth : BitDepth) (generator : Generator) :
    (drawPair width depth generator).2 = generator.after 2 :=
  rfl

/-- The samples for one position are two draws in succession. -/
theorem isDrawn_get_drawPair (width : SampleWidth) (depth : BitDepth) (generator : Generator)
    {count : Nat} (index : Fin count) :
    ((drawMany count (drawPair width depth) generator).1.get index).1.IsDrawn depth generator
        (2 * index) ∧
      ((drawMany count (drawPair width depth) generator).1.get index).2.IsDrawn depth generator
        (2 * index + 1) := by
  rw [get_drawMany (snd_drawPair width depth)]
  refine ⟨isDrawn_drawSample width depth generator (2 * index), ?_⟩
  have hsource := isDrawn_drawSample width depth generator (2 * index + 1)
  rwa [Generator.after_succ] at hsource

/-- A fill at random draws the samples position by position. -/
theorem fillRandom_eq (fixture : Fixture width) (depth : BitDepth) (generator : Generator) :
    fixture.fillRandom depth generator =
      ({ fixture with
          degraded := (drawMany _ (drawPair width depth) generator).1.map Prod.fst
          source := (drawMany _ (drawPair width depth) generator).1.map Prod.snd },
        generator.after (2 * fixture.length)) := by
  rw [← snd_drawMany (snd_drawPair width depth)]
  rfl

/-- A fill with columns draws a row for the degraded buffer, then one for the source buffer. -/
theorem fillColumns_eq (fixture : Fixture width) (depth : BitDepth) (generator : Generator) :
    fixture.fillColumns depth generator =
      ({ fixture with
          degraded := repeatRow
            (drawMany fixture.side (drawSample width depth) (generator.after 0)).1 fixture.degraded
          source := repeatRow
            (drawMany fixture.side (drawSample width depth) (generator.after fixture.side)).1
            fixture.source },
        generator.after (2 * fixture.side)) := by
  have hdegraded := snd_drawMany (snd_drawSample width depth) fixture.side generator
  have hsource := snd_drawMany (snd_drawSample width depth) fixture.side
    (generator.after fixture.side)
  rw [Nat.one_mul] at hdegraded hsource
  rw [← Generator.after_add, ← Nat.two_mul] at hsource
  rw [← hsource, ← hdegraded]
  rfl

/-- Every entry of the whole rows of a buffer in which a row of draws is repeated is the draw of its
column. -/
theorem drawnAt_repeatRow (width : SampleWidth) (depth : BitDepth) (generator : Generator)
    (start : Nat) {side length : Nat} (samples : Vector (Sample width) length) {index : Nat}
    (h : index < length / side * side) :
    DrawnAt (repeatRow (drawMany side (drawSample width depth) (generator.after start)).1
      samples).toArray index depth generator (start + index % side) := by
  have hcolumn : index % side < side := Nat.mod_lt _ (Nat.pos_of_lt_mul_left h)
  unfold DrawnAt
  rw [getElem?_repeatRow_of_lt h]
  exact drawnAt_of_get (isDrawn_get_drawMany width depth generator start ⟨_, hcolumn⟩)

/-- A fill at random of a square changes only the samples. Counted from zero, the draws with even
numbers are the degraded samples and those with odd numbers the source samples, position by
position, and no further draw is made. A fill with columns changes only the samples too. Every row
of the degraded buffer holds the first draws, as many as a row has samples, and every row of the
source buffer as many further draws, and these are all. -/
theorem fills_are_drawn (h : fixture.WellFormed window side) (depth : BitDepth)
    (generator : Generator) :
    (∃ degraded source,
      fixture.fillRandom depth generator =
        ({ fixture with degraded := degraded, source := source },
          generator.after (2 * side ^ 2)) ∧
      ∀ index < side ^ 2,
        DrawnAt degraded.toArray index depth generator (2 * index) ∧
        DrawnAt source.toArray index depth generator (2 * index + 1)) ∧
    ∃ degraded source,
      fixture.fillColumns depth generator =
        ({ fixture with degraded := degraded, source := source }, generator.after (2 * side)) ∧
      ∀ y < side, ∀ x < side,
        DrawnAt degraded.toArray (y * side + x) depth generator x ∧
        DrawnAt source.toArray (y * side + x) depth generator (side + x) := by
  have hlength : fixture.length = side ^ 2 := h.length_eq.trans (pow_two side).symm
  constructor
  case left =>
    rw [← hlength]
    refine ⟨_, _, fixture.fillRandom_eq depth generator, ?_⟩
    intro index hindex
    obtain ⟨hdegraded, hsource⟩ :=
      isDrawn_get_drawPair width depth generator (⟨index, hindex⟩ : Fin fixture.length)
    exact ⟨⟨_, by simp [hindex, Vector.get], hdegraded⟩, _, by simp [hindex, Vector.get], hsource⟩
  case right =>
    rw [← h.side_eq]
    refine ⟨_, _, fixture.fillColumns_eq depth generator, ?_⟩
    intro y hy x hx
    -- the buffers consist of whole rows
    have hwhole : y * fixture.side + x < fixture.length / fixture.side * fixture.side := by
      rw [h.length_eq, ← h.side_eq, Nat.mul_div_cancel _ (Nat.zero_lt_of_lt hx)]
      exact pixel_lt hy hx
    have hcolumn : (y * fixture.side + x) % fixture.side = x := by
      rw [Nat.mul_add_mod_self_right, Nat.mod_eq_of_lt hx]
    have hdegraded := drawnAt_repeatRow width depth generator 0 fixture.degraded hwhole
    have hsource := drawnAt_repeatRow width depth generator fixture.side fixture.source hwhole
    rw [hcolumn] at hdegraded hsource
    rw [Nat.zero_add] at hdegraded
    exact ⟨hdegraded, hsource⟩

/-- A square of twelve by twelve words for content of 10 bits, filled from the seed 9: the source
sample in position 143 of a fill at random is the last of 288 draws, and in a fill with columns the
last source row ends with the last of 24 draws. -/
theorem fills_are_drawn_twelveByTwelve :
    (black .word .chroma 12).WellFormed .chroma 12 ∧ BitDepth.ten.heldBy .word = .ok () ∧
    (∃ degraded source, (black .word .chroma 12).fillRandom .ten (.ofSeed 9) =
        (⟨.chroma, 12, 12, 12, 144, degraded, source⟩, (Generator.ofSeed 9).after (2 * 12 ^ 2)) ∧
      ∃ sample, source.toArray[143]? = some sample ∧
        sample.val = (Generator.ofSeed 9).drawn (.sample 10) 287) ∧
    ∃ degraded source, (black .word .chroma 12).fillColumns .ten (.ofSeed 9) =
        (⟨.chroma, 12, 12, 12, 144, degraded, source⟩, (Generator.ofSeed 9).after (2 * 12)) ∧
      ∃ sample, source.toArray[143]? = some sample ∧
        sample.val = (Generator.ofSeed 9).drawn (.sample 10) 23 := by
  have hblack : (black .word .chroma 12).WellFormed .chroma 12 :=
    wellFormed_black (by decide) (by decide)
  have hheld : BitDepth.ten.heldBy .word = .ok () := rfl
  obtain ⟨⟨degraded, source, hrandom, hsamples⟩, columns, sources, hcolumns, hrows⟩ :=
    fills_are_drawn hblack .ten (.ofSeed 9)
  obtain ⟨last, hlast, hdrawn⟩ := (hsamples 143 (by decide)).2
  obtain ⟨corner, hcorner, hcornerDrawn⟩ := (hrows 11 (by decide) 11 (by decide)).2
  exact ⟨hblack, hheld, ⟨degraded, source, hrandom, last, hlast, hdrawn.val_eq hheld⟩, columns,
    sources, hcolumns, corner, hcorner, hcornerDrawn.val_eq hheld⟩

/-- The fixture of side `2 ^ 32` has empty buffers: neither fill leaves a sample in the first
position of the square, and the random one makes no draw. A side of `2 ^ 31` makes no fixture for
words. -/
theorem fills_without_square :
    (∃ start : Fixture .byte, ofSide? .byte .luma (2 ^ 32) = .done start ∧
      (start.fillRandom .eight (.ofSeed 9)).1.degraded.toArray[0]? = none ∧
      (start.fillColumns .eight (.ofSeed 9)).1.degraded.toArray[0]? = none ∧
      (start.fillRandom .eight (.ofSeed 9)).2 = .ofSeed 9) ∧
    ofSide? .word .chroma (2 ^ 31) = .outside := by
  refine ⟨⟨black .byte .luma (2 ^ 32), rfl, ?_, ?_, rfl⟩, rfl⟩
  · rw [Array.getElem?_eq_none_iff, Vector.size_toArray]
    exact Nat.zero_le 0
  · rw [Array.getElem?_eq_none_iff, Vector.size_toArray]
    exact Nat.zero_le 0

end Fixture

end WienerRegression
