/-!
# Machine words

Indices, lengths and counts are held in unsigned 64-bit words, and totals in signed ones. Arithmetic
on words wraps around, so it leaves the exact result modulo `UInt64.size`. Since the reduction
passes through sums, differences and products, it is made once, on the exact result of a formula.
-/

namespace WienerRegression

/-- The unsigned word that a formula leaves whose exact result is `value`. -/
@[inline] def toWord (value : Nat) : Nat :=
  (UInt64.ofNat value).toNat

/-- The signed word that a formula leaves whose exact result is `value`. -/
@[inline] def toSignedWord (value : Int) : Int :=
  (Int64.ofInt value).toInt

/-- A word keeps the low 64 bits. -/
theorem toWord_eq_mod (value : Nat) : toWord value = value % UInt64.size :=
  UInt64.toNat_ofNat'

/-- A value below the number of words is kept as it is. -/
theorem toWord_of_lt {value : Nat} (h : value < UInt64.size) : toWord value = value := by
  rw [toWord_eq_mod, Nat.mod_eq_of_lt h]

/-- A value between the bounds of a signed word is kept as it is. -/
theorem toSignedWord_of_fits {value : Int} (hlow : -0x8000000000000000 ≤ value)
    (hhigh : value < 0x8000000000000000) : toSignedWord value = value :=
  Int64.toInt_ofInt_of_le hlow hhigh

end WienerRegression
