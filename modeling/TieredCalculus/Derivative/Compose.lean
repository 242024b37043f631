import TieredCalculus.Derivative.Basic

/-! # Chain rules

Composition of derivatives of nested functions, of first order and of second order. Base
shapes are flattened, the shared quantity is contracted at every leading multi-index, and the
result is declared between the outer target and the inner arguments.
-/

namespace TieredCalculus.Derivative

variable {α : Type} [Zero α] [Add α] [Mul α] [BEq α] [Scalar α]

def checkShared {m n : Nat} (outer : Derivative α m) (argument : Quantity)
    (inner : Derivative α n) : Except TensorError Unit :=
  let expected := argument.base
  let actual := inner.target.base
  if expected = actual then .ok ()
  else .error (.baseShapeMismatch (outer.name ++ " and " ++ inner.name) expected actual)

/-! ## First order -/

/-- The outer factor as base matrices. Where the inner one is dense it gets unit dimensions at
the end, in the place of the intrinsic dimensions of the argument. -/
def alignedOuter (outer inner : Derivative α 1) : Except TensorError (Tensor α) := do
  let left ← (← outer.tensor).reshapeBase [outer.target.base.numel, outer.argument.base.numel]
  if inner.isDiagonal then return left
  else left.insertMiddleUnits left.middle.length inner.argument.intrinsic

def alignedInner (outer inner : Derivative α 1) : Except TensorError (Tensor α) := do
  let right ← (← inner.tensor).reshapeBase [outer.argument.base.numel, inner.argument.base.numel]
  if outer.isDiagonal then return right
  else right.insertMiddleUnits (right.middle.length - inner.intrinsic) outer.target.intrinsic

/-- Only where both factors are dense are the intrinsic dimensions of the shared quantity
summed; otherwise they are shared with a diagonal factor. -/
def sumShared (outer inner : Derivative α 1) (product : Tensor α) :
    Except TensorError (Tensor α) :=
  let k := outer.argument.intrinsic
  if k > 0 && !outer.isDiagonal && !inner.isDiagonal then
    product.sumMiddle <|
      (List.range k).map (· + (product.middle.length - k - inner.argument.intrinsic))
  else .ok product

def ofProduct (outer inner : Derivative α 1) (product : Tensor α) :
    Except TensorError (Derivative α 1) := do
  let y := outer.target
  let x := inner.argument
  let count :=
    if outer.isDiagonal && inner.isDiagonal then y.intrinsic else y.intrinsic + x.intrinsic
  let result ← declareFirst count y x
  result.withValue (← product.reshapeBase (y.base ++ x.base))

def composeAligned (outer inner : Derivative α 1) : Except TensorError (Derivative α 1) := do
  outer.checkShared outer.argument inner
  let left ← outer.alignedOuter inner
  let right ← outer.alignedInner inner
  let product ← left.matmul right
  outer.ofProduct inner (← outer.sumShared inner product)

/-- `dy/dx = dy/du · du/dx`. When the two factors disagree on the number of intrinsic
dimensions of `u`, the one with fewer is promoted first. -/
def compose (outer inner : Derivative α 1) : Except TensorError (Derivative α 1) := do
  let k := outer.argument.intrinsic
  let k' := inner.target.intrinsic
  if k > k' then
    outer.composeAligned (← inner.promote (k - k'))
  else if k < k' then
    (← outer.promote (k' - k)).composeAligned inner
  else
    outer.composeAligned inner

/-! ## Second order -/

def alignArgument (outer : Derivative α 2) (argument : Quantity) (inner : Derivative α 1) :
    Except TensorError (Derivative α 2 × Derivative α 1) := do
  let k := argument.intrinsic
  let k' := inner.target.intrinsic
  if k' < k then
    return (outer, ← inner.promote (k - k'))
  else if k' > k then
    return (← outer.promoteSecond (k' - k), inner)
  else
    return (outer, inner)

def ofSecondProduct (y x₁ x₂ : Quantity) (t : Tensor α) : Except TensorError (Derivative α 2) := do
  let result ← declareSecond 0 y.extrinsic x₁.extrinsic x₂.extrinsic
  result.withValue (← t.reshapeBase (y.base ++ x₁.base ++ x₂.base))

/-- Contracts both arguments: `∑ p q, a[i,p,q] · b[p,j] · c[q,k]`, passing over the terms with
`a[i,p,q]` zero. -/
def contractBoth (a b c : Tensor α) (ny nu₁ nu₂ nx₁ nx₂ : Nat) : Except TensorError (Tensor α) :=
  Tensor.contract [a, b, c] [ny, nx₁, nx₂] fun block e =>
    (List.range nu₁).foldl (fun acc p => (List.range nu₂).foldl (fun acc q =>
      let apq := block 0 [e.getD 0 0, p, q]
      if apq == 0 then acc
      else acc + apq * block 1 [p, e.getD 1 0] * block 2 [q, e.getD 2 0]) acc) 0

/-- Contracts the first argument: `∑ p, a[i,p,k] · b[p,j]`. -/
def contractFirst (a b : Tensor α) (ny nu₁ nu₂ nx₁ : Nat) : Except TensorError (Tensor α) :=
  Tensor.contract [a, b] [ny, nx₁, nu₂] fun block e =>
    Tensor.sumUpTo nu₁ fun p =>
      block 0 [e.getD 0 0, p, e.getD 2 0] * block 1 [p, e.getD 1 0]

/-- Contracts the second argument: `∑ q, a[i,j,q] · c[q,k]`. -/
def contractSecond (a c : Tensor α) (ny nu₁ nu₂ nx₂ : Nat) : Except TensorError (Tensor α) :=
  Tensor.contract [a, c] [ny, nu₁, nx₂] fun block e =>
    Tensor.sumUpTo nu₂ fun q =>
      block 0 [e.getD 0 0, e.getD 1 0, q] * block 1 [q, e.getD 2 0]

/-- `d²y/dx₁dx₂` from `d²y/du₁du₂` and inner first derivatives. An argument without an inner
derivative is kept as it is; at least one inner derivative is needed. -/
def composeSecond (outer : Derivative α 2) (inner₁ inner₂ : Option (Derivative α 1)) :
    Except TensorError (Derivative α 2) := do
  if inner₁.isNone && inner₂.isNone then
    throw (.invalidDerivative outer.name .noInner)
  let (outer, inner₁) ← match inner₁ with
    | some d => (fun r => (r.1, some r.2)) <$> outer.alignArgument outer.firstArgument d
    | none => pure (outer, none)
  let (outer, inner₂) ← match inner₂ with
    | some d => (fun r => (r.1, some r.2)) <$> outer.alignArgument outer.secondArgument d
    | none => pure (outer, none)
  if let some d := inner₁ then outer.checkShared outer.firstArgument d
  if let some d := inner₂ then outer.checkShared outer.secondArgument d
  let y := outer.target
  let u₁ := outer.firstArgument
  let u₂ := outer.secondArgument
  let ny := y.base.numel
  let nu₁ := u₁.base.numel
  let nu₂ := u₂.base.numel
  let a ← (← outer.tensor).reshapeBase [ny, nu₁, nu₂]
  match inner₁, inner₂ with
  | some d₁, some d₂ =>
    let x₁ := d₁.argument
    let x₂ := d₂.argument
    let b ← (← d₁.tensor).reshapeBase [nu₁, x₁.base.numel]
    let c ← (← d₂.tensor).reshapeBase [nu₂, x₂.base.numel]
    ofSecondProduct y x₁ x₂ (← contractBoth a b c ny nu₁ nu₂ x₁.base.numel x₂.base.numel)
  | some d₁, none =>
    let x₁ := d₁.argument
    let b ← (← d₁.tensor).reshapeBase [nu₁, x₁.base.numel]
    ofSecondProduct y x₁ u₂ (← contractFirst a b ny nu₁ nu₂ x₁.base.numel)
  | none, some d₂ =>
    let x₂ := d₂.argument
    let c ← (← d₂.tensor).reshapeBase [nu₂, x₂.base.numel]
    ofSecondProduct y u₁ x₂ (← contractSecond a c ny nu₁ nu₂ x₂.base.numel)
  | none, none => throw (.invalidDerivative outer.name .noInner)

def composeThrough (outer : Derivative α 1) (inner : Derivative α 2) :
    Except TensorError (Derivative α 2) := do
  outer.checkShared outer.argument inner
  let y := outer.target
  let x₁ := inner.firstArgument
  let x₂ := inner.secondArgument
  let ny := y.base.numel
  let nu := outer.argument.base.numel
  let nx₁ := x₁.base.numel
  let nx₂ := x₂.base.numel
  let a ← (← outer.tensor).reshapeBase [ny, nu]
  let b ← (← inner.tensor).reshapeBase [nu, nx₁, nx₂]
  let c ← Tensor.contract [a, b] [ny, nx₁, nx₂] fun block e =>
    (List.range nu).foldl (fun acc p =>
      Tensor.addScaled acc (block 0 [e.getD 0 0, p]) (block 1 [p, e.getD 1 0, e.getD 2 0])) 0
  ofSecondProduct y x₁ x₂ c

end TieredCalculus.Derivative
