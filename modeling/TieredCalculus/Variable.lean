import TieredCalculus.Assembly.Groups
import TieredCalculus.Derivative.Basic
import TieredCalculus.PathMap

/-! # Variables

A variable is a named quantity with its current value, its first derivatives by argument and
its second derivatives by pair of arguments. Derivatives are declared once, on first use or
explicitly, and stay declared when the values are cleared.
-/

namespace TieredCalculus

structure Variable (α : Type) where
  quantity : Quantity
  value : Option (Tensor α)
  first : PathMap (Derivative α 1)
  second : PathMap (PathMap (Derivative α 2))

namespace Variable

variable {α : Type}

def ofQuantity (q : Quantity) : Variable α := ⟨q, none, .empty, .empty⟩

def name (v : Variable α) : Path := v.quantity.name

def storage (v : Variable α) : Nat := v.quantity.storage

/-! ## Values -/

/-- Sets the value, whose base has to be the declared one and whose intermediate shape has to
expand to the declared one. -/
def setValue (t : Tensor α) : Update TensorError (Variable α) Unit := do
  let v ← get
  if t.base ≠ v.quantity.base then
    throw (.baseShapeMismatch v.name.text v.quantity.base t.base)
  if !Shape.expandsTo t.middle v.quantity.middle then
    throw (.middleShapeMismatch v.name.text v.quantity.middle t.middle)
  set { v with value := some t }

def setAssembledValue [Zero α] (t : Tensor α) : Update TensorError (Variable α) Unit := do
  let q := (← get).quantity
  setValue (← t.disassemble [q.middle] [q.base])

def assembledValue [Zero α] (v : Variable α) : Except TensorError (Tensor α) := do
  match v.value with
  | none => throw (.unknown (.valueOf v.name))
  | some t =>
    let expanded ← t.expandMiddle v.quantity.middle
    expanded.assemble [v.quantity.middle] [v.quantity.base]

/-! ## Derivatives -/

def derivative? (v : Variable α) (argument : Path) : Option (Derivative α 1) :=
  v.first.get? argument

def secondDerivative? (v : Variable α) (x y : Path) : Option (Derivative α 2) :=
  (v.second.get? x).bind (·.get? y)

def storeDerivative (v : Variable α) (argument : Path) (d : Derivative α 1) : Variable α :=
  { v with first := v.first.insert argument d }

def storeSecond (v : Variable α) (x y : Path) (d : Derivative α 2) : Variable α :=
  { v with second := v.second.insert x (((v.second.get? x).getD .empty).insert y d) }

def declareDerivative (argument : Quantity) (intrinsic : Nat) :
    Update TensorError (Variable α) (Derivative α 1) := do
  let d ← Derivative.declareFirst intrinsic (← get).quantity argument
  modify fun v => v.storeDerivative argument.name d
  return d

/-- The derivative by an argument, declared in dense form on first use. -/
def derivativeBy (argument : Quantity) : Update TensorError (Variable α) (Derivative α 1) := do
  let v ← get
  match v.derivative? argument.name with
  | some d => return d
  | none => declareDerivative argument (v.quantity.intrinsic + argument.intrinsic)

theorem declareDerivative_eq_ok {argument : Quantity} {intrinsic : Nat} {v v' : Variable α}
    {d : Derivative α 1} : declareDerivative argument intrinsic v = .ok d v' ↔
      Derivative.declareFirst intrinsic v.quantity argument = .ok d ∧
        v' = v.storeDerivative argument.name d := by
  constructor
  · intro h
    obtain ⟨_, _, hget, h₁⟩ := Update.bind_eq_ok.1 h
    cases hget
    obtain ⟨_, _, hlift, h₂⟩ := Update.bind_eq_ok.1 h₁
    obtain ⟨hdeclare, rfl⟩ := Update.lift_eq_ok.1 hlift
    cases h₂
    exact ⟨hdeclare, rfl⟩
  · rintro ⟨hdeclare, rfl⟩
    exact Update.bind_eq_ok.2 ⟨v, v, rfl, Update.bind_eq_ok.2
      ⟨d, v, Update.lift_eq_ok.2 ⟨hdeclare, rfl⟩, rfl⟩⟩

theorem derivativeBy_of_some {argument : Quantity} {v : Variable α} {d : Derivative α 1}
    (h : v.derivative? argument.name = some d) : derivativeBy argument v = .ok d v := by
  unfold derivativeBy
  rw [Update.get_bind_apply, h]
  rfl

theorem derivativeBy_of_none {argument : Quantity} {v : Variable α}
    (h : v.derivative? argument.name = none) : derivativeBy argument v =
      declareDerivative argument (v.quantity.intrinsic + argument.intrinsic) v := by
  unfold derivativeBy
  rw [Update.get_bind_apply, h]

def secondDerivativeBy (x y : Quantity) :
    Update TensorError (Variable α) (Derivative α 2) := do
  let v ← get
  match v.secondDerivative? x.name y.name with
  | some d => return d
  | none =>
    let d ← Derivative.declareSecond 0 v.quantity x y
    modify fun v => v.storeSecond x.name y.name d
    return d

/-- Changes the derivative by an argument, declaring it on first use. -/
def changeDerivative {β : Type} (argument : Quantity)
    (change : Update TensorError (Derivative α 1) β) : Update TensorError (Variable α) β := do
  let d ← derivativeBy argument
  Update.onPart (fun _ => d) (fun v d => v.storeDerivative argument.name d) change

def changeSecondDerivative {β : Type} (x y : Quantity)
    (change : Update TensorError (Derivative α 2) β) : Update TensorError (Variable α) β := do
  let d ← secondDerivativeBy x y
  Update.onPart (fun _ => d) (fun v d => v.storeSecond x.name y.name d) change

def assembledDerivatives [Zero α] [Scalar α] (v : Variable α) :
    Except TensorError (PathMap (Tensor α)) := do
  let entries ← (v.first.entries.filter fun e => e.2.isDefined).mapM fun (argument, d) => do
    let x := d.argument
    let full ← d.dense
    return (argument, ← full.assemble [v.quantity.middle, x.middle] [v.quantity.base, x.base])
  return .ofList entries

/-- The variable without values; its derivatives stay declared. -/
def clear (v : Variable α) : Variable α where
  quantity := v.quantity
  value := none
  first := v.first.map Derivative.clear
  second := v.second.map (·.map Derivative.clear)

end Variable

end TieredCalculus
