import TieredCalculus.Tensor.Arithmetic

/-! # Assembled form of a tensor

Let the intermediate shape of a tensor be `I₁ ++ … ++ Iₙ` and its base `B₁ ++ … ++ Bₙ`. Its
assembled form has no intermediate dimensions and base `[|I₁|·|B₁|, …, |Iₙ|·|Bₙ|]`: the
intermediate dimensions of each group are folded into the front of its base.
-/

namespace TieredCalculus.Tensor

variable {α : Type} [Zero α]

def assembledSizes (middles bases : List Shape) : Shape :=
  List.zipWith (fun i b => Shape.numel i * Shape.numel b) middles bases

/-- Expands a tensor whose intermediate shape covers the first group only. With two groups of
one intermediate shape the result is diagonal in them. -/
def fillGroups (t : Tensor α) (middles : List Shape) : Except TensorError (Tensor α) := do
  let expected := middles.flatten
  if t.middle = expected then
    return t
  let first := middles.headD []
  if !Shape.expandsTo t.middle first then
    throw (.middleShapeMismatch "assembly" expected t.middle)
  let expanded ← t.expandMiddle first
  match middles with
  | [_] => return expanded
  | [_, second] =>
    if Shape.numel second = 1 then expanded.reshape t.batch expected t.base
    else if second = first then expanded.diagonalize first.length
    else throw (.unsupported (.assembly t.middle middles))
  | _ => throw (.unsupported (.assembly t.middle middles))

/-- Consecutive numbers from `start` on, cut into runs of the given lengths. -/
def runs : Nat → List Nat → List (List Nat)
  | _, [] => []
  | start, n :: rest => (List.range n).map (start + ·) :: runs (start + n) rest

/-- Folds the intermediate dimensions of each group into its base dimensions. -/
def assemble (t : Tensor α) (middles bases : List Shape) : Except TensorError (Tensor α) := do
  if middles.isEmpty || middles.length ≠ bases.length then
    throw (.invalidShape (.groupCounts middles.length bases.length))
  let expected := bases.flatten
  if t.base ≠ expected then
    throw (.invalidShape (.groupBase expected t.base))
  let filled ← t.fillGroups middles
  let batchRank := filled.batch.length
  let middleAxes := runs batchRank (middles.map (·.length))
  let baseAxes := runs (batchRank + filled.middle.length) (bases.map (·.length))
  let perm := List.range batchRank ++ (List.zipWith (· ++ ·) middleAxes baseAxes).flatten
  let permuted ← filled.permute perm batchRank 0
  permuted.reshapeBase (assembledSizes middles bases)

def disassemble (t : Tensor α) (middles bases : List Shape) : Except TensorError (Tensor α) := do
  let sizes := assembledSizes middles bases
  if t.middle.length ≠ 0 || t.base ≠ sizes then
    throw (.invalidShape (.notAssembled t.shape t.middle.length sizes))
  let groups := middles.zip bases
  let unfolded ← t.reshapeBase (groups.flatMap fun g => g.1 ++ g.2)
  let batchRank := unfolded.batch.length
  let axes := runs batchRank (groups.flatMap fun g => [g.1.length, g.2.length])
  let middleAxes := (axes.zipIdx.filter fun a => a.2 % 2 = 0).flatMap (·.1)
  let baseAxes := (axes.zipIdx.filter fun a => a.2 % 2 = 1).flatMap (·.1)
  unfolded.permute (List.range batchRank ++ middleAxes ++ baseAxes) batchRank middleAxes.length

end TieredCalculus.Tensor
