import TieredCalculus.Newton.LineSearch
import TieredCalculus.Newton.TrustRegion

/-! # Solvers

The members of the Newton family as one type.
-/

namespace TieredCalculus

variable {σ α : Type}

inductive Solver (α : Type) where
  | newton (s : Newton α)
  | lineSearch (s : LineSearch α)
  | trustRegion (s : TrustRegion α)

def Solver.solve [Zero α] [One α] [Neg α] [Add α] [Sub α] [Mul α] [Div α] [BEq α] [LT α]
    [DecidableLT α] [LE α] [DecidableLE α] [Scalar α] [OfScientific α] (s : Solver α)
    (sys : NonlinearSystem σ α) (guess : Tensor α) :
    Update (SolveError α) σ (Solution α) :=
  match s with
  | .newton s => s.iteration.solve sys guess
  | .lineSearch s => s.iteration.solve sys guess
  | .trustRegion s => s.iteration.solve sys guess

end TieredCalculus
