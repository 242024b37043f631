import TieredCalculus.Linear.Batched
import TieredCalculus.Model.Basic
import TieredCalculus.Variable

/-! # Implicit updates

An implicit update solves the residuals of a model for its unknowns. Its inputs are those of
the model, the unknowns being read as the guess; its outputs are the converged unknowns and,
by the implicit function theorem, their sensitivities `du/dg = -(∂r/∂u)⁻¹ ∂r/∂g` to the given
inputs. It is a model itself, so implicit updates nest.
-/

namespace TieredCalculus

variable {μ α : Type}

/-- A model solved for the unknowns on one of its input sub-axes. -/
structure ImplicitUpdate (μ α : Type) where
  model : Model μ α
  solve : NonlinearSystem (ModelSystem.State μ α) α → Tensor α →
    Update (SolveError α) (ModelSystem.State μ α) (Solution α)
  linear : LinearSolver α
  unknownAxis : Axis
  residualAxis : Axis
  givenAxis : Axis
  outputAxis : Axis

namespace ImplicitUpdate

structure State (μ α : Type) where
  model : μ
  outputs : List (Variable α)

/-! ## Construction -/

/-- The axis of some variables under their absolute names. -/
def rebuild (leaves : List VariableLayout) : Except TensorError Axis :=
  match (leaves.forM fun v => AxisPlan.declare v.name v.middle v.base).outcome .empty with
  | (.ok _, plan) => .ok plan.freeze
  | (.error e, _) => .error e

structure Placement where
  unknown : String := "state"
  residual : String := "residual"

/-- The update for the unknowns and residuals on two sub-axes, which have to be of one size.
All other inputs of the model are given. -/
def create (model : Model μ α)
    (solve : NonlinearSystem (ModelSystem.State μ α) α → Tensor α →
      Update (SolveError α) (ModelSystem.State μ α) (Solution α))
    (linear : LinearSolver α) (place : Placement) :
    Except (SolveError α) (ImplicitUpdate μ α) := do
  let unknownAxis ← model.inputAxis.subaxis place.unknown
  let residualAxis ← model.outputAxis.subaxis place.residual
  if unknownAxis.size ≠ residualAxis.size then
    throw (.invalidConfig (.notSquareUpdate place.residual residualAxis.size place.unknown
      unknownAxis.size))
  let givenAxis ← rebuild <|
    model.inputAxis.leaves.filter fun v => !v.name.isUnder unknownAxis.path
  let outputAxis ← rebuild unknownAxis.leaves
  return ⟨model, solve, linear, unknownAxis, residualAxis, givenAxis, outputAxis⟩

/-- A variable of an axis as a quantity with all its intermediate dimensions intrinsic. -/
def quantityOf (v : VariableLayout) : Quantity := ⟨v.name, v.middle, v.middle.length, v.base⟩

def initialState (s : ImplicitUpdate μ α) (model : μ) : State μ α :=
  ⟨model, s.unknownAxis.leaves.map fun v => .ofQuantity (quantityOf v)⟩

def State.output? (st : State μ α) (name : Path) : Option (Variable α) :=
  st.outputs.find? fun v => v.name = name

/-! ## Evaluation -/

def checkInputs (s : ImplicitUpdate μ α) (inputs : PathMap (Tensor α)) :
    Except (SolveError α) Unit :=
  match (s.unknownAxis.leaves ++ s.givenAxis.leaves).find? fun v =>
    !inputs.contains v.name with
  | some v => .error (.missingInput v.name)
  | none => .ok ()

/-- Changes the output variables one after another, keeping those changed before a failure. -/
def changeEach (change : Variable α → Update TensorError (Variable α) Unit) :
    Update TensorError (List (Variable α)) Unit := fun vs =>
  match vs with
  | [] => .ok () []
  | v :: rest =>
    match change v v with
    | .error e v => .error e (v :: rest)
    | .ok _ v =>
      match changeEach change rest with
      | .ok _ rest => .ok () (v :: rest)
      | .error e rest => .error e (v :: rest)

def onOutputs (change : Update TensorError (List (Variable α)) Unit) :
    Update (SolveError α) (State μ α) Unit :=
  Update.onPart (·.outputs) (fun st vs => { st with outputs := vs })
    (change.mapError .tensor)

variable [Zero α]

def storeValues (values : PathMap (Tensor α)) : Update TensorError (List (Variable α)) Unit :=
  changeEach fun y =>
    match values.get? y.name with
    | none => throw (.unknown (.item y.name))
    | some t => Variable.setAssembledValue t

def storeSensitivities (blocks : PathMap (PathMap (Tensor α))) (givens : List Quantity)
    (y : Variable α) : Update TensorError (Variable α) Unit :=
  givens.forM fun g =>
    match (blocks.get? y.name).bind (·.get? g.name) with
    | none => throw (.unknown (.derivative y.name g.name))
    | some block => do
      let dense ← block.disassemble [y.quantity.middle, g.middle] [y.quantity.base, g.base]
      Variable.changeDerivative g (Derivative.assign dense)

/-- The sensitivities of the unknowns to the given inputs at a solution, from the model's
output there. They are stored in the output variables and returned in packed form. -/
def sensitivities (s : ImplicitUpdate μ α) (out : ModelOutput α) :
    Update (SolveError α) (State μ α) (PathMap (PathMap (Tensor α))) := do
  let _ ← s.residualAxis.pack out.values
  if s.givenAxis.leaves.isEmpty then
    return .empty
  let j ← s.residualAxis.packBlocks s.unknownAxis out.derivatives
  let b ← match s.residualAxis.packBlocks s.givenAxis out.derivatives with
    | .error .emptyAssembly =>
      pure (Tensor.zeros j.batch [] [s.residualAxis.size, s.givenAxis.size])
    | packed => packed
  let x ← s.linear.sensitivity j b
  let blocks ← s.unknownAxis.unpackBlocks s.givenAxis x
  let givens := s.givenAxis.leaves.map quantityOf
  onOutputs (changeEach (storeSensitivities blocks givens))
  return blocks

def evaluate (s : ImplicitUpdate μ α) (inputs : PathMap (Tensor α)) (derivatives : Bool) :
    Update (SolveError α) (State μ α) (ModelOutput α) := do
  s.checkInputs inputs
  modify fun st => ⟨s.model.invalidate st.model, st.outputs.map Variable.clear⟩
  let guess ← s.unknownAxis.pack inputs
  let given := inputs.filterKeys s.givenAxis.hasVariable
  let problem ← ModelSystem.onAxes s.model given s.unknownAxis s.residualAxis
  let onSystem := fun {β : Type} (x : Update (SolveError α) (ModelSystem.State μ α) β) =>
    Update.onPart (fun st : State μ α => ⟨st.model, none⟩)
      (fun st sys => { st with model := sys.model }) x
  let solved ← onSystem (s.solve problem.system guess)
  if solved.outcome ≠ .converged then
    throw (.notConverged solved.iterations)
  let values ← s.unknownAxis.unpack solved.value
  onOutputs (storeValues values)
  if derivatives then
    let out ← onSystem do
      problem.system.setSolution solved.value
      problem.evaluate true
    return ⟨values, ← s.sensitivities out⟩
  else
    return ⟨values, .empty⟩

def toModel (s : ImplicitUpdate μ α) : Model (State μ α) α where
  inputAxis := s.model.inputAxis
  outputAxis := s.outputAxis
  evaluate := s.evaluate
  invalidate := fun st => { st with model := s.model.invalidate st.model }

end ImplicitUpdate

end TieredCalculus
