import TieredCalculus.Assembly.Blocks
import TieredCalculus.Solve.System

/-! # Models

A model maps named inputs to named outputs, in packed form. Seen with some of its inputs as
unknowns and some of its outputs as residuals, the others fixed, it is a nonlinear system.
-/

namespace TieredCalculus

variable {μ α : Type}

structure ModelOutput (α : Type) where
  values : PathMap (Tensor α)
  derivatives : PathMap (PathMap (Tensor α))

structure Model (μ α : Type) where
  inputAxis : Axis
  outputAxis : Axis
  evaluate : PathMap (Tensor α) → Bool → Update (SolveError α) μ (ModelOutput α)
  invalidate : μ → μ

/-- A model as a system of equations: the unknowns are a sub-axis of its inputs and the
residuals a sub-axis of its outputs, of equal size, and the other inputs are given. -/
structure ModelSystem (μ α : Type) where
  model : Model μ α
  given : PathMap (Tensor α)
  unknownAxis : Axis
  residualAxis : Axis
  square : unknownAxis.size = residualAxis.size

namespace ModelSystem

def onAxes (model : Model μ α) (given : PathMap (Tensor α)) (unknownAxis residualAxis : Axis) :
    Except (SolveError α) (ModelSystem μ α) :=
  if h : unknownAxis.size = residualAxis.size then
    .ok ⟨model, given, unknownAxis, residualAxis, h⟩
  else
    .error (.invalidConfig (.notSquare unknownAxis.size unknownAxis.path residualAxis.size
      residualAxis.path))

def onSubaxes (model : Model μ α) (given : PathMap (Tensor α)) (unknown residual : Path) :
    Except (SolveError α) (ModelSystem μ α) := do
  let unknownAxis ← model.inputAxis.subaxis unknown
  let residualAxis ← model.outputAxis.subaxis residual
  onAxes model given unknownAxis residualAxis

structure State (μ α : Type) where
  model : μ
  solution : Option (Tensor α)

variable [Zero α]

def evaluate (s : ModelSystem μ α) (derivatives : Bool) :
    Update (SolveError α) (State μ α) (ModelOutput α) := do
  match (← get).solution with
  | none => throw (.missingInput s.unknownAxis.path)
  | some u =>
    let unknowns ← s.unknownAxis.unpack u
    Update.onPart (·.model) (fun st m => { st with model := m })
      (s.model.evaluate (s.given.insertAll unknowns.entries) derivatives)

def packResidual (s : ModelSystem μ α) (out : ModelOutput α) : Except TensorError (Tensor α) :=
  s.residualAxis.pack out.values

def packJacobian (s : ModelSystem μ α) (out : ModelOutput α) : Except TensorError (Tensor α) :=
  s.residualAxis.packBlocks s.unknownAxis out.derivatives

def system (s : ModelSystem μ α) : NonlinearSystem (State μ α) α where
  unknownAxis := s.unknownAxis
  residualAxis := s.residualAxis
  setSolution := fun u => modify fun st => { st with solution := some u }
  solution := (·.solution)
  residual := do s.packResidual (← s.evaluate false)
  jacobian := do s.packJacobian (← s.evaluate true)
  residualAndJacobian := do
    let out ← s.evaluate true
    let r ← s.packResidual out
    let j ← s.packJacobian out
    return (r, j)

end ModelSystem

end TieredCalculus
