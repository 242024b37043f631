import TieredCalculus.Scalar
import TieredCalculus.TensorError
import TieredCalculus.Update

/-! # Errors of solves

A solve fails with an error of the tensors it works on or with a cause of its own. Running
out of iterations is not an error of a solver; only an implicit update makes it one.
-/

namespace TieredCalculus

inductive ConfigFault (α : Type) where
  | tolerances (absolute relative : α)
  | noIterations
  | noTrials
  | cutback (divisor : α)
  | radii (initial maximum : α)
  | factors
  | notSquare (unknowns : Nat) (unknownPath : Path) (residuals : Nat) (residualPath : Path)
  | notSquareUpdate (residualPath : String) (residuals : Nat) (unknownPath : String)
      (unknowns : Nat)

namespace ConfigFault

variable {α : Type} [DecimalText α]

def message : ConfigFault α → String
  | tolerances absolute relative =>
    s!"tolerances must be non-negative, got atol = {DecimalText.text absolute}, " ++
      s!"rtol = {DecimalText.text relative}"
  | noIterations => "max_iterations must be at least 1"
  | noTrials => "line search needs at least one trial step"
  | cutback divisor => s!"line search cutback must exceed 1, got {DecimalText.text divisor}"
  | radii initial maximum =>
    "trust-region radii must satisfy 0 < delta_0 <= delta_max, got " ++
      s!"{DecimalText.text initial} and {DecimalText.text maximum}"
  | factors => "trust-region factors must satisfy 0 < reduce_factor < 1 < expand_factor"
  | notSquare unknowns unknownPath residuals residualPath =>
    s!"system is not square: {unknowns} unknowns '{unknownPath.text}' but {residuals} " ++
      s!"residuals '{residualPath.text}'"
  | notSquareUpdate residualPath residuals unknownPath unknowns =>
    s!"residual '{residualPath}' has size {residuals} but unknowns '{unknownPath}' have " ++
      s!"size {unknowns}"

end ConfigFault

inductive SolveError (α : Type) where
  | tensor (error : TensorError)
  | singularMatrix (entry : Nat)
  | notConverged (iterations : Nat)
  | invalidConfig (fault : ConfigFault α)
  | missingInput (name : Path)

namespace SolveError

variable {α : Type}

def message [DecimalText α] : SolveError α → String
  | tensor error => error.message
  | singularMatrix entry => s!"singular matrix in batch entry {entry}"
  | notConverged iterations =>
    s!"nonlinear solve did not converge after {iterations} iterations"
  | invalidConfig fault => s!"invalid solver configuration: {fault.message}"
  | missingInput name => s!"missing input '{name.text}'"

def ofTensor {β : Type} : Except TensorError β → Except (SolveError α) β
  | .ok b => .ok b
  | .error e => .error (.tensor e)

@[simp] theorem ofTensor_eq_ok {β : Type} {x : Except TensorError β} {b : β} :
    (ofTensor x : Except (SolveError α) β) = .ok b ↔ x = .ok b := by
  cases x <;> simp [ofTensor]

instance : MonadLift (Except TensorError) (Except (SolveError α)) := ⟨ofTensor⟩

instance {σ : Type} : MonadLift (Except TensorError) (EStateM (SolveError α) σ) :=
  ⟨fun x => Update.ofExcept (ofTensor x)⟩

theorem lift_eq_ok {σ β : Type} {x : Except TensorError β} {s s' : σ} {b : β} :
    (liftM x : Update (SolveError α) σ β) s = .ok b s' ↔ x = .ok b ∧ s' = s :=
  Update.lift_eq_ok.trans (and_congr_left' ofTensor_eq_ok)

end SolveError

end TieredCalculus
