import TieredCalculus.Derivative.Compose
import TieredCalculus.Model.ImplicitUpdate
import TieredCalculus.Newton.Solver
import TieredCalculus.Proofs.Newton.Run
import TieredCalculus.Proofs.Newton.Memoryless
import TieredCalculus.Proofs.Newton.Refinement
import TieredCalculus.Proofs.Newton.Trials
import TieredCalculus.Proofs.Shape.Joins
import TieredCalculus.Proofs.Shape.Dimensions
import TieredCalculus.Proofs.Tensor.View
import TieredCalculus.Proofs.Tensor.Operands
import TieredCalculus.Proofs.Tensor.Contraction
import TieredCalculus.Proofs.Derivative.Stored
import TieredCalculus.Proofs.Derivative.Composition
import TieredCalculus.Proofs.Derivative.ChainRule
import TieredCalculus.Proofs.Linear.Lu
import TieredCalculus.Proofs.Tensor.Runs
import TieredCalculus.Proofs.Linear.Batched
import TieredCalculus.Proofs.Newton.Direction
import TieredCalculus.Proofs.Newton.Descent
import TieredCalculus.Proofs.Newton.Convergence
import TieredCalculus.Proofs.Newton.Entries
import TieredCalculus.Proofs.Newton.EntrySteps
import TieredCalculus.Proofs.Newton.EntryMultipliers
import TieredCalculus.Proofs.Newton.EntryRegions
import TieredCalculus.Proofs.Newton.Neighbours
import TieredCalculus.Proofs.Newton.Held
import TieredCalculus.Proofs.Newton.UpdatesMade
import TieredCalculus.Proofs.Axis.Layout
import TieredCalculus.Proofs.Shape.Bounds
import TieredCalculus.Proofs.Shape.Groupings
import TieredCalculus.Proofs.Assembly.Windows
import TieredCalculus.Proofs.Assembly.Blocks
import TieredCalculus.Proofs.Linear.Sensitivity
import TieredCalculus.Proofs.Linear.EntryByEntry
import TieredCalculus.Proofs.Model.ImplicitFunction
import TieredCalculus.Proofs.Model.Outputs
import TieredCalculus.Proofs.Model.Evaluation
import TieredCalculus.Proofs.Model.Calls
import TieredCalculus.Proofs.Model.Partition
import TieredCalculus.Proofs.Derivative.Promotion
import TieredCalculus.Proofs.Assembly.Groups
import TieredCalculus.Proofs.Derivative.Assembly
import TieredCalculus.Proofs.Derivative.Reached
import TieredCalculus.Proofs.Derivative.Failures
import TieredCalculus.Proofs.Derivative.Shaped
import TieredCalculus.Proofs.Axis.Levels
import TieredCalculus.Proofs.Axis.Order
import TieredCalculus.Proofs.Axis.Conflicts
import TieredCalculus.Proofs.Assembly.Vectors
import TieredCalculus.Proofs.Assembly.RoundTrip
import TieredCalculus.Proofs.Assembly.Subaxes
import TieredCalculus.Proofs.Linear.Pivoting
import TieredCalculus.Proofs.Linear.Acceptance
import TieredCalculus.Proofs.Newton.StepLengths
import TieredCalculus.Proofs.Newton.SufficientDecrease
import TieredCalculus.Proofs.Linear.NormalMatrix
import TieredCalculus.Proofs.Real
import TieredCalculus.Proofs.Newton.Scale
import TieredCalculus.Proofs.Newton.Refused
import TieredCalculus.Proofs.Newton.Singular
import TieredCalculus.Proofs.Newton.Radii
import TieredCalculus.Proofs.Newton.WellPosed
import TieredCalculus.Proofs.Newton.Affine
import TieredCalculus.Proofs.Derivative.SecondOrder
import TieredCalculus.Proofs.Tensor.Entrywise
import TieredCalculus.Proofs.Tensor.Diagonals
import TieredCalculus.Proofs.Tensor.Sums
import TieredCalculus.Proofs.Tensor.Slices
import TieredCalculus.Proofs.Components
import TieredCalculus.Proofs.Derivative.Through
import TieredCalculus.Proofs.Derivative.Expansion
import TieredCalculus.Proofs.Derivative.Assignment
import TieredCalculus.Proofs.Derivative.Recount
import TieredCalculus.Proofs.Derivative.Accumulation
import TieredCalculus.Proofs.Derivative.Contributions
import TieredCalculus.Proofs.Derivative.Jacobian
