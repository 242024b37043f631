import Mathlib.Algebra.Field.Rat
import Mathlib.Algebra.Order.Ring.Rat
import Mathlib.Data.Nat.Sqrt
import TieredCalculus.Scalar

/-! # Rational scalars

Exact numbers on which every definition can be run. The root of the square of a rational
number is exact; elsewhere numerator and denominator are rounded down.
-/

namespace TieredCalculus

instance : Scalar ℚ where
  sqrt := fun x => (Nat.sqrt x.num.toNat : ℚ) / (Nat.sqrt x.den : ℚ)
  epsilon := 1 / 2 ^ 52
  isFinite := fun _ => true

example : Scalar.sqrt (4 / 9 : ℚ) = 2 / 3 := by decide +kernel

end TieredCalculus
