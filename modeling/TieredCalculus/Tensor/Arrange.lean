import TieredCalculus.Tensor.Basic

/-! # Rearranging tensors

Unit dimensions are inserted and expanded tier by tier, dimensions are permuted, and the base
is sliced, split and concatenated along one of its axes. None of these operations computes
with the entries; each is described by where it reads them.
-/

namespace TieredCalculus.Tensor

variable {α : Type}

/-! ## Unit dimensions -/

def insertBatchUnits (t : Tensor α) (position n : Nat) : Except TensorError (Tensor α) :=
  if position > t.batch.length then
    .error (.invalidShape (.batchUnitPosition position t.batch.length))
  else
    .ok <| t.retier (t.batch.insertUnits position n) t.middle t.base <| by simp [shape]

def insertMiddleUnits (t : Tensor α) (position n : Nat) : Except TensorError (Tensor α) :=
  if position > t.middle.length then
    .error (.invalidShape (.middleUnitPosition position t.middle.length))
  else
    .ok <| t.retier t.batch (t.middle.insertUnits position n) t.base <| by simp [shape]

def insertBaseUnits (t : Tensor α) (n : Nat) : Tensor α :=
  t.retier t.batch t.middle (List.replicate n 1 ++ t.base) <| by simp [shape]

def padTiers (t : Tensor α) (batchRank middleRank baseRank : Nat) : Tensor α :=
  t.retier (t.batch.padLeft batchRank) (t.middle.padLeft middleRank) (t.base.padLeft baseRank) <|
    by simp [shape]

def padLeading (t : Tensor α) (batchRank middleRank : Nat) : Tensor α :=
  t.padTiers batchRank middleRank t.base.length

/-! ## Expansion -/

/-- Expands the batch and intermediate tiers to the given shapes. A tier of lower rank is
padded on the left first, and only unit dimensions are expanded. -/
def expandLeading [Zero α] (t : Tensor α) (batch middle : Shape) :
    Except TensorError (Tensor α) :=
  if batch.length < t.batch.length || middle.length < t.middle.length then
    .error (.invalidShape (.leadingRank t.batch t.middle batch middle))
  else
    let padded := t.padLeading batch.length middle.length
    let target := batch ++ middle ++ t.base
    if Shape.expandsTo padded.shape target then
      .ok (tabulate batch middle t.base fun idx => padded.entry (Shape.clamp padded.shape idx))
    else .error (.notBroadcastable padded.shape target)

def expandBatch [Zero α] (t : Tensor α) (batch : Shape) : Except TensorError (Tensor α) :=
  t.expandLeading batch t.middle

def expandMiddle [Zero α] (t : Tensor α) (middle : Shape) : Except TensorError (Tensor α) :=
  t.expandLeading t.batch middle

/-! ## Permutation -/

def repeatedAxis? : List Nat → List Nat → Option Nat
  | _, [] => none
  | seen, p :: rest => if seen.contains p then some p else repeatedAxis? (p :: seen) rest

/-- Dimension `k` of the result is dimension `perm[k]` of the tensor; the tiers are declared
anew. -/
def permute [Zero α] (t : Tensor α) (perm : List Nat) (batchRank middleRank : Nat) :
    Except TensorError (Tensor α) :=
  if perm.length ≠ t.rank || perm.any (· ≥ t.rank) then
    .error (.invalidShape (.permutation perm t.rank))
  else
    match repeatedAxis? [] perm with
    | some axis => .error (.invalidShape (.repeatedAxis perm axis))
    | none =>
      let sizes := perm.map fun p => t.shape.getD p 0
      let permuted := tabulate [] [] sizes fun idx =>
        t.entry ((List.range t.rank).map fun p => idx.getD (perm.idxOf p) 0)
      permuted.withTiers batchRank middleRank

/-! ## Slices of the base -/

/-- The entries `start`, …, `stop - 1` along a base axis. -/
def slice [Zero α] (t : Tensor α) (axis start stop : Nat) : Except TensorError (Tensor α) :=
  match t.base[axis]? with
  | none => .error (.invalidShape (.slice start stop axis t.base))
  | some size =>
    if stop > size || start > stop then .error (.invalidShape (.slice start stop axis t.base))
    else
      .ok <| tabulate t.batch t.middle (t.base.set axis (stop - start)) fun idx =>
        t.entry (idx.modify (t.leadingRank + axis) (· + start))

def slicesFrom [Zero α] (t : Tensor α) (axis : Nat) :
    Nat → List Nat → Except TensorError (List (Tensor α))
  | _, [] => .ok []
  | start, n :: rest => do
    let part ← t.slice axis start (start + n)
    return part :: (← t.slicesFrom axis (start + n) rest)

/-- Splits a base axis into consecutive slices, whose sizes have to add up to its size. -/
def split [Zero α] (t : Tensor α) (sizes : List Nat) (axis : Nat) :
    Except TensorError (List (Tensor α)) :=
  if t.base[axis]? = some (Shape.total sizes) then t.slicesFrom axis 0 sizes
  else .error (.invalidShape (.split t.base axis sizes))

def entryAlong [Zero α] (axis : Nat) : List (Tensor α) → Index → α
  | [], _ => 0
  | t :: rest, idx =>
    let n := t.shape.getD axis 0
    if idx.getD axis 0 < n then t.entry idx else entryAlong axis rest (idx.modify axis (· - n))

/-- Concatenates tensors along a base axis. All of them need the leading shape and the base
rank of the first, and its base sizes off the axis. -/
def concatenate [Zero α] (tensors : List (Tensor α)) (axis : Nat) :
    Except TensorError (Tensor α) :=
  match tensors with
  | [] => .error (.invalidShape .concatenateNone)
  | first :: _ =>
    let alike := fun t : Tensor α =>
      t.leading = first.leading && t.batch.length = first.batch.length &&
        t.base.length = first.base.length
    match tensors.find? (fun t => !alike t) with
    | some t => .error (.invalidShape (.concatenateShapes first.shape t.shape))
    | none =>
      if axis ≥ first.base.length then .error (.invalidShape .concatenateAxis)
      else if tensors.any fun t => t.base.eraseIdx axis ≠ first.base.eraseIdx axis then
        .error (.invalidShape .concatenateSizes)
      else
        let size := Shape.total (tensors.map fun t => t.base.getD axis 0)
        .ok <| tabulate first.batch first.middle (first.base.set axis size)
          (entryAlong (first.leadingRank + axis) tensors)

/-! ## Diagonals of the intermediate tier -/

/-- Places the last `k` intermediate dimensions on the diagonal of two copies of them, with
zeros off the diagonal. Positions are compared after flattening the `k` dimensions. -/
def diagonalize [Zero α] (t : Tensor α) (k : Nat) : Except TensorError (Tensor α) :=
  if k > t.middle.length then .error (.invalidShape (.diagonalDimensions k t.middle.length))
  else
    let outer : Shape := t.middle.take (t.middle.length - k)
    let block : Shape := t.middle.drop (t.middle.length - k)
    let n := block.numel
    let m := t.base.numel
    let value := fun position : Nat =>
      let e := position % m
      let q := position / m % n
      let p := position / m / n % n
      let o := position / m / n / n
      if p = q then t.data[(o * n + p) * m + e]?.getD 0 else 0
    let target := outer ++ (block ++ block)
    ofValues t.batch target t.base
      (Array.ofFn (n := (t.batch ++ target ++ t.base).numel) fun i => value i)

end TieredCalculus.Tensor
