import TieredCalculus.Scalar
import TieredCalculus.Tensor.Arithmetic
import TieredCalculus.Update

/-! # Derivatives of one quantity by others

A derivative of `y` by `x₁, …, xₙ` is a tensor whose base is the base of `y` followed by the
bases of the arguments. Its trailing intermediate dimensions are intrinsic: they belong to
the derivative itself, while all earlier ones are extrinsic and treated elementwise. The
intrinsic block is stored in one of two forms. In dense form it spans the intrinsic shapes
of `y` and of every argument. In diagonal form it spans the intrinsic shape of `y` only, and
the derivative vanishes unless the intrinsic indices agree.
-/

namespace TieredCalculus

/-- The name and shape of a quantity that takes part in a derivative; its last `intrinsic`
intermediate dimensions are intrinsic. -/
structure Quantity where
  name : Path
  middle : Shape
  intrinsic : Nat
  base : Shape
  deriving DecidableEq

namespace Quantity

def intrinsicShape (q : Quantity) : Shape := q.middle.drop (q.middle.length - q.intrinsic)

def storage (q : Quantity) : Nat := q.middle.numel * q.base.numel

def promote (q : Quantity) (k : Nat) : Quantity := { q with intrinsic := q.intrinsic + k }

def extrinsic (q : Quantity) : Quantity := { q with intrinsic := 0 }

end Quantity

/-- A derivative of `target` by `n` arguments with `intrinsic` stored intrinsic dimensions,
undefined until a value is assigned. -/
structure Derivative (α : Type) (n : Nat) where
  intrinsic : Nat
  target : Quantity
  arguments : Vector Quantity n
  value : Option (Tensor α)

namespace Derivative

variable {α : Type} {n : Nat}

def argument (d : Derivative α 1) : Quantity := d.arguments[0]

def firstArgument (d : Derivative α 2) : Quantity := d.arguments[0]

def secondArgument (d : Derivative α 2) : Quantity := d.arguments[1]

/-! ## Names and shapes -/

def nameOf (target : Path) (arguments : List Path) : String :=
  let order := if arguments.length > 1 then Nat.repr arguments.length else ""
  "d" ++ order ++ "(" ++ target.text ++ ")/" ++
    String.join (arguments.map fun a => "d(" ++ a.text ++ ")")

def name (d : Derivative α n) : String :=
  nameOf d.target.name (d.arguments.toList.map (·.name))

def base (d : Derivative α n) : Shape :=
  d.target.base ++ d.arguments.toList.flatMap (·.base)

def totalIntrinsic (target : Quantity) (arguments : List Quantity) : Nat :=
  target.intrinsic + Shape.total (arguments.map (·.intrinsic))

def total (d : Derivative α n) : Nat := totalIntrinsic d.target d.arguments.toList

/-- Whether the intrinsic block is stored in diagonal form. -/
def isDiagonal (d : Derivative α n) : Bool := d.intrinsic < d.total

def denseShape (d : Derivative α n) : Shape :=
  d.target.intrinsicShape ++ d.arguments.toList.flatMap (·.intrinsicShape)

def isDefined (d : Derivative α n) : Bool := d.value.isSome

def middle? (d : Derivative α n) : Option Shape := d.value.map (·.middle)

def intrinsicShape? (d : Derivative α n) : Option Shape :=
  d.middle?.map fun s => s.drop (s.length - d.intrinsic)

/-! ## Declaration -/

def checkDeclaration (intrinsic : Nat) (target : Quantity) (arguments : List Quantity) :
    Except DeclarationFault Unit :=
  match (target :: arguments).find? fun q => q.intrinsic > q.middle.length with
  | some q => .error (.intrinsicExceedsRank q.intrinsic q.name q.middle.length)
  | none =>
    let total := totalIntrinsic target arguments
    if intrinsic > target.intrinsic && intrinsic ≠ total then
      .error (.intrinsicCount intrinsic target.intrinsic total)
    else .ok ()

def declare (intrinsic : Nat) (target : Quantity) (arguments : Vector Quantity n) :
    Except TensorError (Derivative α n) :=
  let args := arguments.toList
  match checkDeclaration intrinsic target args with
  | .ok _ => .ok ⟨intrinsic, target, arguments, none⟩
  | .error fault =>
    .error (.invalidDerivative (nameOf target.name (args.map (·.name))) (.declaration fault))

def declareFirst (intrinsic : Nat) (target x : Quantity) :
    Except TensorError (Derivative α 1) :=
  declare intrinsic target #v[x]

def declareSecond (intrinsic : Nat) (target x₁ x₂ : Quantity) :
    Except TensorError (Derivative α 2) :=
  declare intrinsic target #v[x₁, x₂]

/-- The stored value, which has to exist and to be finite. -/
def tensor [Scalar α] (d : Derivative α n) : Except TensorError (Tensor α) :=
  match d.value with
  | none => .error (.invalidDerivative d.name .undefined)
  | some t =>
    if t.data.all Scalar.isFinite then .ok t
    else .error (.invalidDerivative d.name .nonFinite)

/-! ## Updates -/

def checkBase (d : Derivative α n) (t : Tensor α) : Except TensorError Unit :=
  if t.base = d.base then .ok () else .error (.baseShapeMismatch d.name d.base t.base)

/-- A value with fewer intermediate dimensions than the count gets unit dimensions at the end
of that tier. -/
def padIntrinsic (d : Derivative α n) (t : Tensor α) : Except TensorError (Tensor α) :=
  if t.middle.length < d.intrinsic then
    t.insertMiddleUnits t.middle.length (d.intrinsic - t.middle.length)
  else .ok t

/-- Checks the intrinsic block of a value, padded first. A block in dense form is kept; any
other is expanded to the intrinsic shape of the target. -/
def expandIntrinsic [Zero α] (d : Derivative α n) (t : Tensor α) :
    Except TensorError (Tensor α) := do
  let m := d.intrinsic
  let t ← d.padIntrinsic t
  let extrinsicRank := t.middle.length - m
  let block := t.middle.drop extrinsicRank
  if block = d.denseShape then
    return t
  let own := d.target.intrinsicShape
  if Shape.expandsTo block own then
    let widened ← t.insertMiddleUnits extrinsicRank (own.length - m)
    widened.expandMiddle (t.middle.take extrinsicRank ++ own)
  else
    throw (.middleShapeMismatch d.name own block)

def clear (d : Derivative α n) : Derivative α n := { d with value := none }

def withValue [Zero α] (d : Derivative α n) (t : Tensor α) :
    Except TensorError (Derivative α n) := do
  d.checkBase t
  return { d with value := some (← d.expandIntrinsic t) }

def assign [Zero α] (t : Tensor α) : Update TensorError (Derivative α n) Unit := do
  set (← (← get).withValue t)

/-- Adds a value to the stored one, or stores it where there is none. The stored value is
taken out before the sum is formed, so that a sum that fails leaves none behind. -/
def accumulate [Zero α] [Add α] (t : Tensor α) : Update TensorError (Derivative α n) Unit := do
  let d ← get
  d.checkBase t
  let expanded ← d.expandIntrinsic t
  modify clear
  let sum ← match d.value with
    | some existing => existing.add expanded
    | none => pure expanded
  modify fun d => { d with value := some sum }

/-- Adds the value of another derivative of the same quantity, taking over its number of
intrinsic dimensions. -/
def accumulateDerivative [Zero α] [Add α] [Scalar α] (other : Derivative α n) :
    Update TensorError (Derivative α n) Unit := do
  let d ← get
  if d.isDefined && d.intrinsic ≠ other.intrinsic then
    throw (.invalidDerivative d.name (.intrinsicMismatch other.intrinsic d.intrinsic))
  modify fun d => { d with intrinsic := other.intrinsic }
  let t ← other.tensor
  accumulate t

/-! ## Forms of a first derivative -/

/-- Declares the last `k` extrinsic dimensions intrinsic to both target and argument. The
stored intrinsic block has to be the intrinsic shape of the target. -/
def promote [Zero α] [Scalar α] (d : Derivative α 1) (k : Nat) :
    Except TensorError (Derivative α 1) := do
  let t ← d.tensor
  let block := d.intrinsicShape?.getD []
  if block ≠ d.target.intrinsicShape then
    throw (.invalidDerivative d.name (.intrinsicShape block d.target.intrinsicShape))
  let target := d.target.promote k
  let arguments := d.arguments.map (·.promote k)
  match checkDeclaration (d.intrinsic + k) target arguments.toList with
  | .error fault => throw (.invalidDerivative d.name (.promotion k fault))
  | .ok _ =>
    withValue ⟨d.intrinsic + k, target, arguments, none⟩ t

/-- The value in dense form: a diagonal block is placed on the diagonal of the target's and
the argument's intrinsic dimensions, which have to agree. -/
def dense [Zero α] [Scalar α] (d : Derivative α 1) : Except TensorError (Tensor α) := do
  let t ← d.tensor
  if d.isDiagonal then
    let own := d.target.intrinsicShape
    let other := d.argument.intrinsicShape
    if own = other then t.diagonalize own.length
    else throw (.unsupported (.dense d.name own other))
  else
    return t

def promoteSecond (d : Derivative α 2) (_k : Nat) : Except TensorError (Derivative α 2) :=
  .error (.unsupported (.secondPromotion d.name))

end Derivative

end TieredCalculus
