import TieredCalculus.Axis
import TieredCalculus.Tensor.Arithmetic

/-! # Packing named tensors along axes

The tensors of the variables of an axis are packed into one vector per batch entry, and those
of the pairs of variables of two axes into one matrix per batch entry. Absent variables and
blocks are read as zero. Unpacking slices a vector or a matrix back into its parts.
-/

namespace TieredCalculus.Axis

variable {α : Type} [Zero α]

def checkPart (name : Path) (t : Tensor α) (expected : Shape) : Except TensorError Unit :=
  if t.middle.length ≠ 0 || t.base ≠ expected then
    .error (.assemblySize name.text expected (t.middle ++ t.base))
  else .ok ()

def packedName : Path := .ofString "<assembled>"

/-- Expands the parts that are present to their common batch shape, fills the others with
zeros of the given bases and concatenates all along a base axis. Without any part there is
nothing to concatenate. -/
def joinParts (parts : List (Option (Tensor α) × Shape)) (axis : Nat) :
    Except TensorError (Option (Tensor α)) := do
  let present := parts.filterMap (·.1)
  if present.isEmpty then
    return none
  let batch ← Shape.broadcastAll (present.map (·.batch))
  let filled ← parts.mapM fun
    | (some t, _) => t.expandBatch batch
    | (none, base) => pure (Tensor.zeros batch [] base)
  return some (← Tensor.concatenate filled axis)

/-! ## Vectors -/

/-- Packs the values of the variables of an axis, zero where absent. At least one value has to
be present. -/
def pack (axis : Axis) (values : PathMap (Tensor α)) : Except TensorError (Tensor α) := do
  let parts ← axis.leaves.mapM fun v =>
    match values.get? v.name with
    | some t => do
      checkPart v.name t [v.storage]
      return (some t, [v.storage])
    | none => return (none, [v.storage])
  match ← joinParts parts 0 with
  | some t => return t
  | none => throw .emptyAssembly

def unpack (axis : Axis) (t : Tensor α) : Except TensorError (PathMap (Tensor α)) := do
  checkPart packedName t [axis.size]
  return .ofList (axis.names.zip (← t.split axis.storageSizes 0))

def unpackSubaxes (axis : Axis) (t : Tensor α) : Except TensorError (PathMap (Tensor α)) := do
  checkPart packedName t [axis.size]
  let parts ← axis.subaxisNames.mapM fun name => do
    let (start, stop) ← axis.subaxisRange name
    return (axis.qualify name, ← t.slice 0 start stop)
  return .ofList parts

/-! ## Matrices -/

def packRow (r : VariableLayout) (cols : Axis) (row : PathMap (Tensor α)) :
    Except TensorError (Option (Tensor α)) := do
  let parts ← cols.leaves.mapM fun c =>
    match row.get? c.name with
    | some t => do
      checkPart (r.name ++ c.name) t [r.storage, c.storage]
      return (some t, [r.storage, c.storage])
    | none => return (none, [r.storage, c.storage])
  joinParts parts 1

/-- Packs the blocks of the pairs of a row and a column variable, zero where absent. At least
one block has to be present. -/
def packBlocks (rows cols : Axis) (blocks : PathMap (PathMap (Tensor α))) :
    Except TensorError (Tensor α) := do
  let parts ← rows.leaves.mapM fun r =>
    match blocks.get? r.name with
    | some row => return (← packRow r cols row, [r.storage, cols.size])
    | none => return (none, [r.storage, cols.size])
  match ← joinParts parts 0 with
  | some t => return t
  | none => throw .emptyAssembly

def unpackBlocks (rows cols : Axis) (t : Tensor α) :
    Except TensorError (PathMap (PathMap (Tensor α))) := do
  checkPart packedName t [rows.size, cols.size]
  let strips ← t.split rows.storageSizes 0
  let entries ← (rows.names.zip strips).mapM fun (name, strip) => do
    return (name, PathMap.ofList (cols.names.zip (← strip.split cols.storageSizes 1)))
  return .ofList entries

def unpackSubaxisBlocks (rows cols : Axis) (t : Tensor α) :
    Except TensorError (PathMap (PathMap (Tensor α))) := do
  checkPart packedName t [rows.size, cols.size]
  let entries ← rows.subaxisNames.mapM fun rowName => do
    let (start, stop) ← rows.subaxisRange rowName
    let strip ← t.slice 0 start stop
    let blocks ← cols.subaxisNames.mapM fun colName => do
      let (start, stop) ← cols.subaxisRange colName
      return (cols.qualify colName, ← strip.slice 1 start stop)
    return (rows.qualify rowName, PathMap.ofList blocks)
  return .ofList entries

end TieredCalculus.Axis
