import Mathlib.Data.Nat.ModEq
import Mathlib.Data.UInt
import Mathlib.Dynamics.PeriodicPts.Lemmas
import Mathlib.Tactic.Ring
import WienerRegression.Proofs.GeneratorSteps

/-!
# The period of the generator

The multiplier is one more than a multiple of four and the increment is odd. Then `2 ^ k` steps are
again a multiplication and an addition, by one more than a multiple of `2 ^ (k + 2)` and of an odd
multiple of `2 ^ k` (`exists_state_after_two_pow`). So `2 ^ 64` steps lead back to the same state
and `2 ^ 63` steps do not, and the generator passes through all states before it repeats one
(`minimalPeriod_next`). Steps can therefore be undone, and streams from different seeds never meet
(`period_of_seeds`).
-/

namespace WienerRegression.Generator

open scoped UInt64.CommRing

/-! ## Doubling the number of steps -/

/-- The multiplier is one more than a multiple of four. -/
theorem multiplier_eq : multiplier = 1 + 2 ^ 2 * 1591034055961698251 := by
  decide +kernel

/-- The increment is odd. -/
theorem increment_eq : increment = 2 * 721347520444481703 + 1 := by
  decide +kernel

/-- A generator is its state. -/
theorem state_inj {left right : Generator} : left.state = right.state ↔ left = right :=
  ⟨congrArg Generator.mk, congrArg Generator.state⟩

/-- A state is multiplied and added to in each step. -/
theorem state_next (generator : Generator) :
    generator.next.state = multiplier * generator.state + increment := by
  rw [next, mul_comm]

/-- In `2 ^ k` steps, a state is multiplied by one more than a multiple of `2 ^ (k + 2)`, and an odd
multiple of `2 ^ k` is added. -/
theorem exists_state_after_two_pow (k : Nat) :
    ∃ factor summand : UInt64, ∀ generator : Generator,
      (generator.after (2 ^ k)).state =
        (1 + 2 ^ (k + 2) * factor) * generator.state + 2 ^ k * (2 * summand + 1) := by
  induction k with
  | zero =>
      refine ⟨1591034055961698251, 721347520444481703, fun generator ↦ ?_⟩
      show generator.next.state = _
      rw [state_next, multiplier_eq, increment_eq, zero_add, pow_zero, one_mul]
  | succ k ih =>
      obtain ⟨factor, summand, hstate⟩ := ih
      refine ⟨factor + 2 ^ (k + 1) * factor ^ 2, summand + 2 ^ k * factor * (2 * summand + 1),
        fun generator ↦ ?_⟩
      -- twice as many steps are these steps made twice
      rw [pow_succ, mul_two, after_add, hstate, hstate]
      ring

/-- A word has 64 bits. -/
theorem two_pow_sixtyFour : (2 : UInt64) ^ 64 = 0 := by
  decide +kernel

/-- `2 ^ 64` steps lead back to the generator. -/
theorem after_two_pow_sixtyFour (generator : Generator) : generator.after (2 ^ 64) = generator := by
  obtain ⟨factor, summand, hstate⟩ := exists_state_after_two_pow 64
  have hstate := hstate generator
  rw [pow_add, two_pow_sixtyFour, zero_mul, zero_mul, zero_mul, add_zero, add_zero, one_mul]
    at hstate
  exact state_inj.mp hstate

/-- `2 ^ 63` steps change the highest bit of the state. -/
theorem after_two_pow_sixtyThree_ne (generator : Generator) :
    generator.after (2 ^ 63) ≠ generator := by
  obtain ⟨factor, summand, hstate⟩ := exists_state_after_two_pow 63
  intro hequal
  have hstate := hstate generator
  have hsum : (1 + 2 ^ (63 + 2) * factor) * generator.state + 2 ^ 63 * (2 * summand + 1) =
      generator.state + 2 ^ 63 + 2 ^ 64 * (2 * factor * generator.state + summand) := by
    ring
  rw [hequal, hsum, two_pow_sixtyFour, zero_mul, add_zero] at hstate
  have hbit : (2 : UInt64) ^ 63 = 0 := left_eq_add.mp hstate
  exact absurd hbit (by decide +kernel)

/-! ## The period -/

/-- A generator passes through `2 ^ 64` states before it repeats one. -/
theorem minimalPeriod_next (generator : Generator) :
    Function.minimalPeriod next generator = 2 ^ 64 := by
  have htwo : Fact (Nat.Prime 2) := ⟨Nat.prime_two⟩
  exact Function.minimalPeriod_eq_prime_pow generator.after_two_pow_sixtyThree_ne
    generator.after_two_pow_sixtyFour

/-- Two numbers of steps lead to the same generator exactly when they are congruent modulo
`2 ^ 64`. -/
theorem after_eq_after_iff (generator : Generator) (first second : Nat) :
    generator.after first = generator.after second ↔ first ≡ second [MOD 2 ^ 64] := by
  have hperiod := generator.minimalPeriod_next
  have hmod : ∀ steps, generator.after (steps % 2 ^ 64) = generator.after steps := by
    intro steps
    rw [← hperiod]
    exact Function.iterate_mod_minimalPeriod_eq
  have hlt : ∀ steps, steps % 2 ^ 64 < Function.minimalPeriod next generator := by
    intro steps
    rw [hperiod]
    exact Nat.mod_lt _ (Nat.two_pow_pos 64)
  rw [← hmod first, ← hmod second]
  exact Function.iterate_eq_iterate_iff_of_lt_minimalPeriod (hlt first) (hlt second)

/-- Any `2 ^ 64` consecutive numbers of steps lead to every generator. -/
theorem exists_after_eq (generator other : Generator) (start : Nat) :
    ∃ steps, start ≤ steps ∧ steps < start + 2 ^ 64 ∧ generator.after steps = other := by
  -- as many numbers of steps as there are words lead to different states, hence to all of them
  let reached (index : Fin (2 ^ 64)) : Fin UInt64.size :=
    (generator.after (start + index)).state.toFin
  have hinjective : Function.Injective reached := by
    intro first second hequal
    have hstate : generator.after (start + first) = generator.after (start + second) :=
      state_inj.mp (UInt64.toFin_inj.mp hequal)
    have hmod := Nat.ModEq.add_left_cancel' start
      ((generator.after_eq_after_iff _ _).mp hstate)
    exact Fin.ext (Nat.ModEq.eq_of_lt_of_lt hmod first.isLt second.isLt)
  obtain ⟨index, hindex⟩ := Finite.surjective_of_injective hinjective other.state.toFin
  exact ⟨start + index, Nat.le_add_right _ _, Nat.add_lt_add_left index.isLt _,
    state_inj.mp (UInt64.toFin_inj.mp hindex)⟩

/-- Different generators are different after any number of steps. -/
theorem after_injective (steps : Nat) :
    Function.Injective fun generator ↦ after generator steps := by
  -- the steps that are left of a whole number of periods lead back
  have hback : ∀ generator : Generator,
      (generator.after steps).after (2 ^ 64 * steps - steps) = generator := by
    intro generator
    have hle : steps ≤ 2 ^ 64 * steps := Nat.le_mul_of_pos_left steps (Nat.two_pow_pos 64)
    rw [← after_add, Nat.add_sub_cancel' hle]
    refine (generator.after_eq_after_iff _ 0).mpr ?_
    exact Nat.mul_mod_right _ _
  intro left right hequal
  have hsame : left.after steps = right.after steps := hequal
  rw [← hback left, hsame, hback right]

/-- Different seeds make different generators. -/
theorem ofSeed_injective : Function.Injective ofSeed := by
  intro left right hequal
  have hword : left.toUInt64 = right.toUInt64 := congrArg Generator.state hequal
  exact UInt32.toNat_inj.mp (by simpa using congrArg UInt64.toNat hword)

/-- The words that a generator draws from any seed repeat exactly after `2 ^ 64` draws, and any
`2 ^ 64` consecutive draws yield every word exactly once. A draw takes one step, whatever it is cut
down to, and a draw below zero takes none. Generators from different seeds are in different states
whenever they have taken as many steps, whichever draws each of them has made. -/
theorem period_of_seeds :
    (∀ (seed : UInt32) (first second : Nat),
      (ofSeed seed).drawn .word first = (ofSeed seed).drawn .word second ↔
        first ≡ second [MOD 2 ^ 64]) ∧
    (∀ (seed : UInt32) (start word : Nat), word < 2 ^ 64 →
      ∃! index, start ≤ index ∧ index < start + 2 ^ 64 ∧
        (ofSeed seed).drawn .word index = word) ∧
    (∀ (generator : Generator) (draw : Draw),
      (generator.make draw).2 = if draw = .below 0 then generator else generator.next) ∧
    ∀ left right : UInt32, left ≠ right → ∀ leftDraws rightDraws : List Draw,
      leftDraws.countP (· ≠ .below 0) = rightDraws.countP (· ≠ .below 0) →
        ((ofSeed left).makeAll leftDraws).state ≠ ((ofSeed right).makeAll rightDraws).state := by
  have hdrawn : ∀ (seed : UInt32) (first second : Nat),
      (ofSeed seed).drawn .word first = (ofSeed seed).drawn .word second ↔
        first ≡ second [MOD 2 ^ 64] := by
    intro seed first second
    rw [drawn_word, drawn_word, UInt64.toNat_inj, state_inj, after_eq_after_iff]
    exact Nat.ModEq.add_iff_right rfl
  refine ⟨hdrawn, ?_, snd_make, ?_⟩
  · intro seed start word hword
    obtain ⟨steps, hlow, hhigh, hsteps⟩ :=
      (ofSeed seed).exists_after_eq ⟨UInt64.ofNat word⟩ (start + 1)
    obtain ⟨index, rfl⟩ : ∃ index, steps = index + 1 := ⟨steps - 1, by omega⟩
    have hindex : (ofSeed seed).drawn .word index = word := by
      rw [drawn_word, hsteps, UInt64.toNat_ofNat']
      exact Nat.mod_eq_of_lt hword
    refine ⟨index, ⟨by omega, by omega, hindex⟩, ?_⟩
    rintro other ⟨hotherLow, hotherHigh, hother⟩
    have hmod : other % 2 ^ 64 = index % 2 ^ 64 :=
      (hdrawn seed other index).mp (hother.trans hindex.symm)
    omega
  · intro left right hseeds leftDraws rightDraws hcount hequal
    rw [makeAll_eq_after, makeAll_eq_after, hcount, state_inj] at hequal
    exact hseeds (ofSeed_injective (after_injective _ hequal))

/-- From the seeds 42 and 43, a word and a sample lead to other states than the high half of a word
and a number below seven do. The draws below zero do not count. The first word from the seed 42 is
drawn again after `2 ^ 64` draws. -/
theorem period_of_seeds_fortyTwo :
    (42 : UInt32) ≠ 43 ∧
    [Draw.word, .below 0, .sample 10].countP (· ≠ .below 0) =
      [Draw.high, .below 7].countP (· ≠ .below 0) ∧
    ((ofSeed 42).makeAll [.word, .below 0, .sample 10]).state ≠
      ((ofSeed 43).makeAll [.high, .below 7]).state ∧
    (ofSeed 42).drawn .word 0 = (ofSeed 42).drawn .word (2 ^ 64) ∧
    0 < 2 ^ 64 ∧
    ∃! index, 5 ≤ index ∧ index < 5 + 2 ^ 64 ∧ (ofSeed 42).drawn .word index = 0 := by
  obtain ⟨hrepeats, hevery, -, happart⟩ := period_of_seeds
  have hseeds : (42 : UInt32) ≠ 43 := by decide
  exact ⟨hseeds, by decide, happart 42 43 hseeds _ _ (by decide),
    (hrepeats 42 0 (2 ^ 64)).mpr (by decide), by decide, hevery 42 5 0 (by decide)⟩

end WienerRegression.Generator
