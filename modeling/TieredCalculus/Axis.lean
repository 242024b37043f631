import TieredCalculus.PathMap
import TieredCalculus.TensorError
import TieredCalculus.Update

/-! # Labelled axes

An axis lays named variables out in one flat vector. Its plan is a tree of declarations:
each level holds variables and further levels, both in ascending order of their names, so
that the layout depends on what was declared and not on when. Freezing a plan places the
variables of a level first and its sub-axes after them, without gaps.
-/

namespace TieredCalculus

/-! ## Plans -/

/-- One level of a plan: its leaves, which are variables with their intermediate and base
shapes, and its sub-axes. -/
structure AxisPlan where
  leaves : List (String × Shape × Shape)
  subaxes : List (String × AxisPlan)

namespace AxisPlan

def empty : AxisPlan := ⟨[], []⟩

instance : Inhabited AxisPlan := ⟨empty⟩

def hasVariable (plan : AxisPlan) (name : String) : Bool :=
  (SortedEntries.find? name plan.leaves).isSome

def subaxis? (plan : AxisPlan) (name : String) : Option AxisPlan :=
  SortedEntries.find? name plan.subaxes

def setSubaxis (plan : AxisPlan) (name : String) (sub : AxisPlan) : AxisPlan :=
  { plan with subaxes := SortedEntries.insert name sub plan.subaxes }

/-- Changes the sub-axis at the end of a path, creating the levels on the way that do not
exist. A level that has a variable of the next name stops the walk. -/
def onSubaxis {β : Type} (change : Update TensorError AxisPlan β) :
    List String → Update TensorError AxisPlan β
  | [] => change
  | part :: rest => do
    if (← get).hasVariable part then throw (.duplicate part)
    modify fun plan => plan.setSubaxis part ((plan.subaxis? part).getD empty)
    Update.onPart (fun plan => (plan.subaxis? part).getD empty)
      (fun plan sub => plan.setSubaxis part sub) (onSubaxis change rest)

def declareLocal (name : String) (middle base : Shape) : Update TensorError AxisPlan Unit := do
  let plan ← get
  if plan.hasVariable name || (plan.subaxis? name).isSome then throw (.duplicate name)
  modify fun plan =>
    { plan with leaves := SortedEntries.insert name (middle, base) plan.leaves }

/-- Declares a variable; the components before the last name nested sub-axes. -/
def declare (name : Path) (middle base : Shape) : Update TensorError AxisPlan Unit :=
  if name.isRoot then throw (.invalidShape .emptyName)
  else onSubaxis (declareLocal name.last middle base) name.components.dropLast

def declareSubaxis (name : Path) : Update TensorError AxisPlan Unit :=
  onSubaxis (pure ()) name.components

end AxisPlan

/-! ## Frozen axes -/

structure VariableLayout where
  name : Path
  middle : Shape
  base : Shape
  start : Nat
  deriving DecidableEq

namespace VariableLayout

def storage (v : VariableLayout) : Nat := v.middle.numel * v.base.numel

def stop (v : VariableLayout) : Nat := v.start + v.storage

def shift (n : Nat) (v : VariableLayout) : VariableLayout := { v with start := v.start + n }

end VariableLayout

/-- A frozen layout: its leaves are all variables below the axis in layout order, and its
sub-axes the direct ones with the start of their ranges. Starts are relative to the axis,
names are qualified. -/
structure Axis where
  path : Path
  leaves : List VariableLayout
  subaxes : List (String × Nat × Axis)

namespace Axis

instance : Inhabited Axis := ⟨⟨.root, [], []⟩⟩

/-- Axes are equal when their leaves are, in place as well as in shape. -/
instance : BEq Axis := ⟨fun a b => a.leaves = b.leaves⟩

def size (a : Axis) : Nat := Shape.total (a.leaves.map (·.storage))

def qualify (a : Axis) (name : String) : Path := a.path.join name

def names (a : Axis) : List Path := a.leaves.map (·.name)

def storageSizes (a : Axis) : List Nat := a.leaves.map (·.storage)

def hasVariable (a : Axis) (name : Path) : Bool := a.leaves.any (·.name = name)

def layoutOf (a : Axis) (name : Path) : Except TensorError VariableLayout :=
  match a.leaves.find? (·.name = name) with
  | some v => .ok v
  | none => .error (.unknown (.item name))

def subaxisNames (a : Axis) : List String := a.subaxes.map (·.1)

def follow : List String → Axis → Option Axis
  | [], a => some a
  | part :: rest, a =>
    match SortedEntries.find? part a.subaxes with
    | some (_, sub) => follow rest sub
    | none => none

def subaxis (a : Axis) (name : Path) : Except TensorError Axis :=
  match follow name.components a with
  | some sub => .ok sub
  | none => .error (.unknown (.item (a.path ++ name)))

def subaxisRange (a : Axis) (name : String) : Except TensorError (Nat × Nat) :=
  match SortedEntries.find? name a.subaxes with
  | some (start, sub) => .ok (start, start + sub.size)
  | none => .error (.unknown (.item (a.qualify name)))

end Axis

/-! ## Freezing -/

namespace AxisPlan

def placeLeaves (path : Path) : Nat → List (String × Shape × Shape) → List VariableLayout
  | _, [] => []
  | start, (name, middle, base) :: rest =>
    let v : VariableLayout := ⟨path.join name, middle, base, start⟩
    v :: placeLeaves path v.stop rest

mutual

def freezeAt (path : Path) : AxisPlan → Axis
  | ⟨leaves, subaxes⟩ =>
    let own := placeLeaves path 0 leaves
    let placed := placeSubaxes path (Shape.total (own.map (·.storage))) subaxes
    ⟨path, own ++ placed.flatMap (fun (_, start, sub) => sub.leaves.map (·.shift start)),
      placed⟩

def placeSubaxes (path : Path) : Nat → List (String × AxisPlan) → List (String × Nat × Axis)
  | _, [] => []
  | start, (name, plan) :: rest =>
    let sub := freezeAt (path.join name) plan
    (name, start, sub) :: placeSubaxes path (start + sub.size) rest

end

def freeze (plan : AxisPlan) : Axis := plan.freezeAt .root

end AxisPlan

end TieredCalculus
