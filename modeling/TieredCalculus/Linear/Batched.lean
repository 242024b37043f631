import TieredCalculus.Linear.Lu
import TieredCalculus.Solve.SolveError
import TieredCalculus.Tensor.Arithmetic

/-! # Linear systems of a batch

A packed matrix `(batch; n, n)` and right-hand side `(batch; n)` or `(batch; n, m)` hold one
linear system per batch entry. Batches broadcast, every entry is factored once, and the first
entry whose matrix is refused makes the whole solve fail.
-/

namespace TieredCalculus

namespace Tensor

variable {α : Type} [Zero α]

def vectorRun (t : Tensor α) (n k : Nat) : Vector α n :=
  .ofFn fun i => t.data[k * n + i]?.getD 0

def squareRun (t : Tensor α) (n k : Nat) : Square α n :=
  .ofFn fun i j => t.data[(k * n + i) * n + j]?.getD 0

end Tensor

structure LinearSolver (α : Type) where
  /-- The solutions of `J x = b`, given `J` and `b`. -/
  solve : Tensor α → Tensor α → Except (SolveError α) (Tensor α)
  /-- The sensitivities `-J⁻¹ B`, given `J` and `B`. -/
  sensitivity : Tensor α → Tensor α → Except (SolveError α) (Tensor α)

namespace LinearSolver

variable {α : Type}

def squareSize (j : Tensor α) : Except (SolveError α) Nat :=
  match j.base with
  | [r, c] =>
    if r = c && j.middle.length = 0 then .ok r
    else .error (.tensor (.invalidShape (.notSquare j.shape)))
  | _ => .error (.tensor (.invalidShape (.notSquare j.shape)))

def checkRight (b : Tensor α) (expected : Shape) : Except (SolveError α) Unit :=
  if b.middle.length ≠ 0 || b.base ≠ expected then
    .error (.tensor (.invalidShape (.rightHandSide expected b.shape)))
  else .ok ()

variable [Zero α] [Neg α] [Sub α] [Mul α] [Div α] [LT α] [DecidableLT α] [LE α] [DecidableLE α]

def factorEntries (eps : α) (j : Tensor α) (batch : Shape) (n : Nat) :
    Except (SolveError α) (List (Lu α n)) := do
  let j ← j.expandBatch batch
  (List.range batch.numel).mapM fun k =>
    match Lu.factor? eps (j.squareRun n k) with
    | some lu => .ok lu
    | none => .error (.singularMatrix k)

def solveDense (eps : α) (j b : Tensor α) : Except (SolveError α) (Tensor α) := do
  let n ← squareSize j
  checkRight b [n]
  let batch ← Shape.broadcast j.batch b.batch
  if n = 0 then
    return Tensor.zeros batch [] [0]
  let factors ← factorEntries eps j batch n
  let b ← b.expandBatch batch
  let solutions := factors.zipIdx.map fun (lu, k) => (lu.solve (b.vectorRun n k)).toArray
  Tensor.ofValues batch [] [n] (solutions.foldl (· ++ ·) #[])

def sensitivityDense (eps : α) (j b : Tensor α) : Except (SolveError α) (Tensor α) := do
  let n ← squareSize j
  let m := b.base.getD 1 0
  checkRight b [n, m]
  let batch ← Shape.broadcast j.batch b.batch
  if n = 0 || m = 0 then
    return Tensor.zeros batch [] [n, m]
  let factors ← factorEntries eps j batch n
  let b ← b.expandBatch batch
  let blocks := factors.zipIdx.map fun (lu, k) =>
    let columns : Vector (Vector α n) m := .ofFn fun c =>
      lu.solve (.ofFn fun i => b.data[(k * n + i) * m + c]?.getD 0)
    let rows : Vector (Array α) n := .ofFn fun i =>
      (Vector.ofFn fun c : Fin m => -(columns.get c).get i).toArray
    rows.toArray.flatten
  Tensor.ofValues batch [] [n, m] (blocks.foldl (· ++ ·) #[])

def dense [OfScientific α] : LinearSolver α where
  solve := solveDense Lu.threshold
  sensitivity := sensitivityDense Lu.threshold

end LinearSolver

end TieredCalculus
