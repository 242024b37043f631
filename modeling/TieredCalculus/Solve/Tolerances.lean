import TieredCalculus.Linear.Square
import TieredCalculus.Solve.SolveError
import TieredCalculus.Tensor.Arithmetic

/-! # Convergence

A batch entry has converged when the norm of its residual is below an absolute tolerance, or
below a fraction of the norm that it started from.
-/

namespace TieredCalculus

variable {α : Type}

/-- Consecutive pieces of `n` members, the last one shorter where the list runs out. Pieces of
length zero are read as pieces of length one. -/
def chunks (n : Nat) (xs : List α) : List (List α) :=
  (List.range ((xs.length + (n - 1)) / max n 1)).map fun k => (xs.drop (k * max n 1)).take (max n 1)

/-- The norm of every batch entry of a packed vector. -/
def Tensor.rowNorms [Zero α] [Add α] [Mul α] [Scalar α] (t : Tensor α) : List α :=
  if t.baseNumel = 0 then List.replicate t.leading.numel 0
  else (chunks t.baseNumel t.toList).map Linear.norm

structure Tolerances (α : Type) where
  absolute : α
  relative : α
  maxIterations : Nat

namespace Tolerances

def standard [OfScientific α] : Tolerances α := ⟨1e-10, 1e-8, 100⟩

/-- Checks that the tolerances are not negative and that an iteration is allowed. -/
def validate [Zero α] [LE α] [DecidableLE α] (t : Tolerances α) :
    Except (SolveError α) Unit :=
  if !(0 ≤ t.absolute) || !(0 ≤ t.relative) then
    .error (.invalidConfig (.tolerances t.absolute t.relative))
  else if t.maxIterations = 0 then .error (.invalidConfig .noIterations)
  else .ok ()

theorem validate_eq_ok [Zero α] [LE α] [DecidableLE α] {t : Tolerances α} :
    t.validate = .ok () ↔ 0 ≤ t.absolute ∧ 0 ≤ t.relative ∧ 0 < t.maxIterations := by
  unfold validate
  by_cases ha : 0 ≤ t.absolute <;> by_cases hr : 0 ≤ t.relative <;>
    by_cases hm : t.maxIterations = 0 <;> simp [ha, hr, hm, Nat.pos_iff_ne_zero]

/-- Whether every entry has converged, given the current and the initial norms. -/
def met [LT α] [DecidableLT α] [Div α] (t : Tolerances α) (norms initial : List α) : Bool :=
  (norms.zip initial).all fun p => p.1 < t.absolute || p.1 / p.2 < t.relative

end Tolerances

end TieredCalculus
