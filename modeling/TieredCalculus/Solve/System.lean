import TieredCalculus.Axis
import TieredCalculus.Solve.SolveError
import TieredCalculus.Tensor.Basic

/-! # Nonlinear systems

A system of equations `r(u) = 0` in packed form. It holds the solution last set, and residual
and Jacobian are those at that solution; evaluating them may change what the system keeps.
-/

namespace TieredCalculus

/-- A square nonlinear system whose state is a `σ`. Solutions and residuals are `(batch; n)`,
Jacobians `(batch; n, n)`. -/
structure NonlinearSystem (σ α : Type) where
  unknownAxis : Axis
  residualAxis : Axis
  setSolution : Tensor α → Update (SolveError α) σ Unit
  solution : σ → Option (Tensor α)
  residual : Update (SolveError α) σ (Tensor α)
  jacobian : Update (SolveError α) σ (Tensor α)
  residualAndJacobian : Update (SolveError α) σ (Tensor α × Tensor α) := do
    let r ← residual
    let j ← jacobian
    return (r, j)
  /-- Whether the residual feeds an outer differentiation, which asks for one more Newton
  update after convergence. -/
  requiresGradient : σ → Bool := fun _ => false

inductive Outcome where
  | converged
  | iterationLimit
  deriving DecidableEq

def Outcome.text : Outcome → String
  | converged => "converged"
  | iterationLimit => "maximum iterations reached"

/-- What a solve returns: why it stopped, the last iterate and the number of iterations, which
is the limit when that was reached. -/
structure Solution (α : Type) where
  outcome : Outcome
  value : Tensor α
  iterations : Nat

end TieredCalculus
