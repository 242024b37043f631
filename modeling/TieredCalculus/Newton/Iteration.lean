import TieredCalculus.Linear.Batched
import TieredCalculus.Solve.System
import TieredCalculus.Solve.Tolerances

/-! # The Newton iteration

All solvers of the family share one loop: evaluate the initial residual, then update the
iterate until every batch entry has converged. They differ in their update, which may move
the system to trial points, and in the data that they keep during a solve.
-/

namespace TieredCalculus

variable {σ τ α : Type}

/-- A member of the Newton family, for systems of state `σ`, keeping a `τ` during a solve. -/
structure Iteration (σ τ α : Type) where
  tolerances : Tolerances α
  linear : LinearSolver α
  validate : Except (SolveError α) Unit
  /-- The data at the start, read off the system as it stands and the initial iterate. -/
  prepare : NonlinearSystem σ α → σ → Tensor α → Except (SolveError α) τ
  update : NonlinearSystem σ α → Tensor α → Tensor α → Tensor α →
    Update (SolveError α) (σ × τ) (Tensor α)

def LinearSolver.newtonStep [Neg α] [Mul α] [One α] (linear : LinearSolver α)
    (r j : Tensor α) : Except (SolveError α) (Tensor α) :=
  linear.solve j r.neg

namespace Iteration

variable [Zero α] [One α] [Add α] [Neg α] [Mul α] [Div α] [LT α] [DecidableLT α] [Scalar α]

/-- Ends a solve whose iterate has converged. A system that feeds an outer differentiation
gets one more full Newton step. -/
def finish (it : Iteration σ τ α) (sys : NonlinearSystem σ α) (u r : Tensor α)
    (iterations : Nat) : Update (SolveError α) σ (Solution α) := do
  if sys.requiresGradient (← get) then
    let j ← sys.jacobian
    let step ← it.linear.newtonStep r j
    let u ← u.add step
    sys.setSolution u
    return ⟨.converged, u, iterations⟩
  else
    return ⟨.converged, u, iterations⟩

/-- Iteration number `i` and up to `remaining - 1` more after it. -/
def loop (it : Iteration σ τ α) (sys : NonlinearSystem σ α) (initial : List α) :
    (remaining i : Nat) → (u r : Tensor α) → Update (SolveError α) (σ × τ) (Solution α)
  | 0, _, u, _ => return ⟨.iterationLimit, u, it.tolerances.maxIterations⟩
  | remaining + 1, i, u, r => do
    let j ← sys.jacobian.onFirst
    let u ← it.update sys u r j
    (sys.setSolution u).onFirst
    let r ← sys.residual.onFirst
    if it.tolerances.met r.rowNorms initial then (it.finish sys u r i).onFirst
    else it.loop sys initial remaining (i + 1) u r

/-- Iterates from a guess until every batch entry has converged or the limit is reached. The
limit counts the initial evaluation. -/
def solve (it : Iteration σ τ α) (sys : NonlinearSystem σ α) (guess : Tensor α) :
    Update (SolveError α) σ (Solution α) := do
  it.validate
  sys.setSolution guess
  let r ← sys.residual
  let batch ← Shape.broadcast guess.batch r.batch
  let u ← guess.expandBatch batch
  let initial := r.rowNorms
  if it.tolerances.met initial initial then it.finish sys u r 0
  else
    let data ← it.prepare sys (← get) u
    (it.loop sys initial (it.tolerances.maxIterations - 1) 1 u r).beside data

end Iteration

/-! ## Plain Newton -/

structure Newton (α : Type) where
  tolerances : Tolerances α
  linear : LinearSolver α

namespace Newton

variable [Zero α] [One α] [Add α] [Neg α] [Mul α] [LE α] [DecidableLE α]

def iteration (s : Newton α) : Iteration σ Unit α where
  tolerances := s.tolerances
  linear := s.linear
  validate := s.tolerances.validate
  prepare := fun _ _ _ => .ok ()
  update := fun _ u r j => do
    let step ← s.linear.newtonStep r j
    u.add step

end Newton

end TieredCalculus
