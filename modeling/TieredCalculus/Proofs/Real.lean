import Mathlib.Analysis.Real.Sqrt
import TieredCalculus.Scalar

/-! # Real scalars

Exact numbers with exact roots.
-/

namespace TieredCalculus

/-- Roots of numbers that are not negative are exact. -/
def Scalar.RootExact (α : Type) [Zero α] [Mul α] [LE α] [Scalar α] : Prop :=
  ∀ x : α, 0 ≤ x → 0 ≤ Scalar.sqrt x ∧ Scalar.sqrt x * Scalar.sqrt x = x

theorem Scalar.RootExact.sqrt_mul_self {α : Type} [Ring α] [LinearOrder α]
    [IsStrictOrderedRing α] [Scalar α] (h : RootExact α) (x : α) : sqrt (x * x) = |x| := by
  obtain ⟨hnonneg, hsq⟩ := h (x * x) (mul_self_nonneg x)
  rw [← abs_of_nonneg hnonneg]
  exact abs_eq_iff_mul_self_eq.2 hsq

noncomputable instance : Scalar ℝ where
  sqrt := Real.sqrt
  epsilon := 1 / 2 ^ 52
  isFinite := fun _ => true

theorem Scalar.rootExact_real : Scalar.RootExact ℝ :=
  fun x hx => ⟨Real.sqrt_nonneg x, Real.mul_self_sqrt hx⟩

end TieredCalculus
