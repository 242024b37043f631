import TieredCalculus.Tensor.Arrange

/-! # Arithmetic of tensors

Sums along intermediate dimensions, multiples, entrywise operations with broadcasting tier by
tier, and contractions of base blocks over all leading multi-indices. Every sum starts at
zero and adds its terms in ascending order of the summed coordinate.
-/

namespace TieredCalculus.Tensor

variable {α : Type}

/-! ## Sums and multiples -/

def sumUpTo [Zero α] [Add α] (n : Nat) (f : Nat → α) : α :=
  (List.range n).foldl (fun acc k => acc + f k) 0

def sumMiddleAxis [Zero α] [Add α] (t : Tensor α) (dim : Nat) : Tensor α :=
  tabulate t.batch (t.middle.eraseIdx dim) t.base fun idx =>
    sumUpTo (t.middle.getD dim 0) fun k => t.entry (idx.insertIdx (t.batch.length + dim) k)

/-- The sum over a set of intermediate dimensions, the last of them first. -/
def sumMiddle [Zero α] [Add α] (t : Tensor α) (dims : List Nat) :
    Except TensorError (Tensor α) :=
  let dims := Shape.distinct dims
  if dims.any (· ≥ t.middle.length) then
    .error (.invalidShape (.sumDimension dims t.middle.length))
  else .ok (dims.foldr (fun d acc => acc.sumMiddleAxis d) t)

def scale [Mul α] (t : Tensor α) (c : α) : Tensor α := t.map (· * c)

def neg [Mul α] [Neg α] [One α] (t : Tensor α) : Tensor α := t.scale (-1)

/-! ## Entrywise operations -/

/-- Combines two tensors entry by entry. Each tier is aligned on the right and broadcast
within itself. -/
def zipWith [Zero α] (f : α → α → α) (s t : Tensor α) : Except TensorError (Tensor α) := do
  let batchRank := max s.batch.length t.batch.length
  let middleRank := max s.middle.length t.middle.length
  let baseRank := max s.base.length t.base.length
  let s := s.padTiers batchRank middleRank baseRank
  let t := t.padTiers batchRank middleRank baseRank
  let common ← Shape.broadcastAll [s.shape, t.shape]
  (tabulate [] [] common fun idx =>
    f (s.entry (Shape.clamp s.shape idx)) (t.entry (Shape.clamp t.shape idx))).withTiers
      batchRank middleRank

def add [Zero α] [Add α] (s t : Tensor α) : Except TensorError (Tensor α) :=
  zipWith (· + ·) s t

def sub [Zero α] [Sub α] (s t : Tensor α) : Except TensorError (Tensor α) :=
  zipWith (· - ·) s t

def mul [Zero α] [Mul α] (s t : Tensor α) : Except TensorError (Tensor α) :=
  zipWith (· * ·) s t

/-! ## Contraction -/

/-- The entry of operand number `i` at a leading and a base multi-index, zero if there is no
such operand. Along leading unit dimensions every coordinate is read as zero. -/
def blockEntry [Zero α] (operands : List (Tensor α)) (lead : Index) (i : Nat) (e : Index) : α :=
  match operands[i]? with
  | some t => t.entry (Shape.clamp t.leading lead ++ e)
  | none => 0

/-- Applies a kernel to the base blocks of some tensors at every multi-index of their
broadcast batch and intermediate shapes. The kernel sees block number `i` as a function of
the base multi-index and gives the entry of the result at a base multi-index. -/
def contract [Zero α] (operands : List (Tensor α)) (base : Shape)
    (kernel : (Nat → Index → α) → Index → α) : Except TensorError (Tensor α) := do
  let batchRank := (operands.map fun t => t.batch.length).foldl max 0
  let middleRank := (operands.map fun t => t.middle.length).foldl max 0
  let padded := operands.map fun t => t.padLeading batchRank middleRank
  let batch ← Shape.broadcastAll (padded.map (·.batch))
  let middle ← Shape.broadcastAll (padded.map (·.middle))
  let rank := batch.length + middle.length
  return tabulate batch middle base fun idx =>
    kernel (blockEntry padded (idx.take rank)) (idx.drop rank)

def addScaled [Zero α] [Add α] [Mul α] [BEq α] (acc c x : α) : α :=
  if c == 0 then acc else acc + c * x

/-- The product of base matrices at every leading multi-index. Terms whose left factor is
zero are passed over. -/
def matmul [Zero α] [Add α] [Mul α] [BEq α] (s t : Tensor α) : Except TensorError (Tensor α) :=
  match s.base, t.base with
  | [m, k], [k', n] =>
    if k = k' then
      contract [s, t] [m, n] fun block e =>
        (List.range k).foldl (fun acc p =>
          addScaled acc (block 0 [e.getD 0 0, p]) (block 1 [p, e.getD 1 0])) 0
    else .error (.invalidShape (.product s.base t.base))
  | _, _ => .error (.invalidShape (.product s.base t.base))

end TieredCalculus.Tensor
