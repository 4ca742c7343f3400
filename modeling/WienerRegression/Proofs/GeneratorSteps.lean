import Mathlib.Algebra.Ring.Nat
import Mathlib.Logic.Function.Iterate
import WienerRegression.Generator

/-!
# Draws as steps

A draw of any kind moves a generator one step on, and where there is nothing to draw the generator
stays as it is (`snd_make`). What is drawn after other draws therefore depends on their number and
not on what they were cut down to (`makeAll_eq_after`).
-/

namespace WienerRegression.Generator

/-- The generator after a number of steps. -/
def after (generator : Generator) (steps : Nat) : Generator :=
  next^[steps] generator

/-- One more step is a step of the generator after the steps before it. -/
theorem after_succ (generator : Generator) (steps : Nat) :
    generator.after (steps + 1) = (generator.after steps).next :=
  Function.iterate_succ_apply' next steps generator

/-- Steps after other steps are further steps. -/
theorem after_add (generator : Generator) (first second : Nat) :
    generator.after (first + second) = (generator.after first).after second := by
  rw [Nat.add_comm]
  exact Function.iterate_add_apply next second first generator

/-- A draw takes one step, unless it is one below zero. -/
theorem snd_make (generator : Generator) (draw : Draw) :
    (generator.make draw).2 = if draw = .below 0 then generator else generator.next := by
  cases draw with
  | word => rfl
  | high => rfl
  | sample bits => rfl
  | below bound =>
      cases bound with
      | zero => rfl
      | succ bound => rfl

/-- The first of several draws is made before the others. -/
theorem makeAll_cons (generator : Generator) (draw : Draw) (rest : List Draw) :
    generator.makeAll (draw :: rest) = (generator.make draw).2.makeAll rest :=
  rfl

/-- Draws take as many steps as there are draws that are not below zero. -/
theorem makeAll_eq_after (generator : Generator) (draws : List Draw) :
    generator.makeAll draws = generator.after (draws.countP (· ≠ .below 0)) := by
  induction draws generalizing generator with
  | nil => rfl
  | cons draw rest ih =>
      rw [makeAll_cons, ih, snd_make, List.countP_cons]
      by_cases hnothing : draw = .below 0
      · simp [hnothing]
      · rw [if_neg hnothing, if_pos (by simpa using hnothing), Nat.add_comm, after_add]
        rfl

/-! ## Draws of one kind -/

/-- The number that a generator yields at the draw with an index, counted from zero, if it makes
draws of one kind only. -/
def drawn (generator : Generator) (draw : Draw) (index : Nat) : Nat :=
  ((generator.makeAll (List.replicate index draw)).make draw).1

/-- A draw after others of its kind is made by the generator after as many steps. -/
theorem drawn_eq (generator : Generator) (draw : Draw) (hdraw : draw ≠ .below 0) (index : Nat) :
    generator.drawn draw index = ((generator.after index).make draw).1 := by
  have hcount : (List.replicate index draw).countP (· ≠ .below 0) = index := by
    rw [List.countP_replicate, if_pos (by simpa using hdraw)]
  rw [drawn, makeAll_eq_after, hcount]

/-- A word is the state after one step more. -/
theorem drawn_word (generator : Generator) (index : Nat) :
    generator.drawn .word index = (generator.after (index + 1)).state.toNat := by
  rw [drawn_eq generator .word nofun, after_succ]
  rfl

/-- A sample is made by the generator after as many steps. -/
theorem drawn_sample (generator : Generator) (bits index : Nat) :
    generator.drawn (.sample bits) index = ((generator.after index).drawSample bits).1 :=
  drawn_eq generator (.sample bits) nofun index

/-- A sample has no more bits than it is drawn with. -/
theorem drawSample_lt (generator : Generator) {bits : Nat} (hpos : 1 ≤ bits) (hbits : bits ≤ 32) :
    (generator.drawSample bits).1 < 2 ^ bits := by
  have hshift : (UInt32.ofNat (32 - bits)).toNat % 32 = 32 - bits := by
    rw [UInt32.toNat_ofNat']
    omega
  have hpow : 2 ^ (32 - bits) * 2 ^ bits = 2 ^ 32 := by
    rw [← Nat.pow_add, Nat.sub_add_cancel hbits]
  show (generator.drawHigh.1 >>> UInt32.ofNat (32 - bits)).toNat < 2 ^ bits
  rw [UInt32.toNat_shiftRight, hshift, Nat.shiftRight_eq_div_pow]
  refine Nat.div_lt_of_lt_mul ?_
  rw [hpow]
  exact generator.drawHigh.1.toNat_lt

end WienerRegression.Generator
