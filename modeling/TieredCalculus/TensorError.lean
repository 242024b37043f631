import TieredCalculus.Shape
import TieredCalculus.Path

/-! # Errors of tensors, derivatives and layouts

Each error records its cause; the wording is in the `message` functions and nowhere else.
-/

namespace TieredCalculus

inductive ShapeFault where
  | tiersExceedRank (batch middle rank : Nat)
  | tooFewValues (shape : Shape)
  | tooManyValues (shape : Shape)
  | reshape (source target : Shape)
  | batchUnitPosition (position rank : Nat)
  | middleUnitPosition (position rank : Nat)
  | leadingRank (batch middle targetBatch targetMiddle : Shape)
  | sumDimension (dims : List Nat) (rank : Nat)
  | permutation (perm : List Nat) (rank : Nat)
  | repeatedAxis (perm : List Nat) (axis : Nat)
  | slice (start stop axis : Nat) (base : Shape)
  | split (base : Shape) (axis : Nat) (sizes : List Nat)
  | concatenateNone
  | concatenateShapes (first other : Shape)
  | concatenateAxis
  | concatenateSizes
  | diagonalDimensions (count rank : Nat)
  | product (left right : Shape)
  | emptyName
  | groupCounts (middles bases : Nat)
  | groupBase (expected actual : Shape)
  | notAssembled (shape : Shape) (middleRank : Nat) (sizes : Shape)
  | notSquare (shape : Shape)
  | rightHandSide (expected shape : Shape)
  | radiusCount (expected actual : Nat)
  deriving DecidableEq

namespace ShapeFault

def message : ShapeFault → String
  | tiersExceedRank batch middle rank =>
    s!"batch dimension {batch} plus intermediate dimension {middle} exceeds tensor dimension {rank}"
  | tooFewValues shape =>
    s!"ShapeError/OutOfBounds: out of bounds indexing (requested shape {shape.text})"
  | tooManyValues shape =>
    s!"ShapeError/IncompatibleShape: incompatible shapes (requested shape {shape.text})"
  | reshape source target =>
    s!"cannot reshape tensor of shape {source.text} into {target.text}"
  | batchUnitPosition position rank =>
    s!"batch unsqueeze position {position} out of range for batch dimension {rank}"
  | middleUnitPosition position rank =>
    s!"intermediate unsqueeze position {position} out of range for intermediate dimension {rank}"
  | leadingRank batch middle targetBatch targetMiddle =>
    s!"cannot expand leading shape {batch.text}/{middle.text} to " ++
      s!"{targetBatch.text}/{targetMiddle.text}"
  | sumDimension dims rank =>
    s!"intermediate sum over {Shape.text dims} out of range for intermediate dimension {rank}"
  | permutation perm rank =>
    s!"invalid permutation {Shape.text perm} for tensor of dimension {rank}"
  | repeatedAxis perm axis =>
    s!"invalid permutation {Shape.text perm}: repeated axis {axis}"
  | slice start stop axis base =>
    s!"base slice {start}..{stop} on axis {axis} out of range for base shape {base.text}"
  | split base axis sizes =>
    s!"cannot split base shape {base.text} along axis {axis} into {Shape.text sizes}"
  | concatenateNone => "cannot concatenate zero tensors"
  | concatenateShapes first other =>
    s!"cannot concatenate tensors of shapes {first.text} and {other.text}"
  | concatenateAxis => "ShapeError/OutOfBounds: out of bounds indexing"
  | concatenateSizes => "ShapeError/IncompatibleShape: incompatible shapes"
  | diagonalDimensions count rank =>
    s!"cannot diagonalize {count} of {rank} intermediate dimensions"
  | product left right => s!"cannot multiply base shapes {left.text} and {right.text}"
  | emptyName => "variable name must not be empty"
  | groupCounts middles bases =>
    "assembly needs matching, non-empty intermediate and base groups, " ++
      s!"got {middles} and {bases}"
  | groupBase expected actual =>
    s!"incompatible base shape for assembly: expected {expected.text}, got {actual.text}"
  | notAssembled shape middleRank sizes =>
    s!"tensor of shape {shape.text} (intermediate dimension {middleRank}) " ++
      s!"is not in assembly form {sizes.text}"
  | notSquare shape => s!"expected an assembled square matrix, got shape {shape.text}"
  | rightHandSide expected shape =>
    s!"right-hand side must have base shape {expected.text}, got shape {shape.text}"
  | radiusCount expected actual => s!"expected {expected} trust-region radii, got {actual}"

end ShapeFault

inductive DeclarationFault where
  | intrinsicExceedsRank (intrinsic : Nat) (name : Path) (rank : Nat)
  | intrinsicCount (intrinsic target total : Nat)
  deriving DecidableEq

namespace DeclarationFault

def message : DeclarationFault → String
  | intrinsicExceedsRank intrinsic name rank =>
    s!"intrinsic intermediate dimension ({intrinsic}) of '{name.text}' is larger than its " ++
      s!"intermediate dimension ({rank})"
  | intrinsicCount intrinsic target total =>
    s!"intrinsic intermediate dimension ({intrinsic}) should be at most the variable's " ++
      s!"({target}) or equal to the total over all participants ({total})"

end DeclarationFault

inductive DerivativeFault where
  | declaration (fault : DeclarationFault)
  | undefined
  | nonFinite
  | intrinsicMismatch (other own : Nat)
  | intrinsicShape (block target : Shape)
  | promotion (count : Nat) (fault : DeclarationFault)
  | noInner
  deriving DecidableEq

namespace DerivativeFault

def message (name : String) : DerivativeFault → String
  | declaration fault => fault.message
  | undefined => "derivative is undefined"
  | nonFinite => "derivative has non-finite values"
  | intrinsicMismatch other own =>
    s!"cannot accumulate a derivative with intrinsic intermediate dimension {other} " ++
      s!"into one with {own}"
  | intrinsicShape block target =>
    s!"reinterpretation requires the intrinsic intermediate shape {block.text} to match " ++
      s!"the variable's intrinsic intermediate shape {target.text}"
  | promotion count fault =>
    s!"cannot add {count} intrinsic intermediate dimensions: " ++
      s!"invalid derivative '{name}': {fault.message}"
  | noInner => "second order chain rule needs at least one inner derivative"

end DerivativeFault

inductive Sought where
  | item (name : Path)
  | valueOf (name : Path)
  | derivative (target argument : Path)
  deriving DecidableEq

namespace Sought

def message : Sought → String
  | item name => name.text
  | valueOf name => s!"value of '{name.text}'"
  | derivative target argument => s!"d({target.text})/d({argument.text})"

end Sought

/-- A reachable combination that has no definition. -/
inductive Unsupported where
  | assembly (middle : Shape) (groups : List Shape)
  | dense (name : String) (target argument : Shape)
  | secondPromotion (name : String)
  deriving DecidableEq

namespace Unsupported

def message : Unsupported → String
  | assembly middle groups =>
    s!"assembly of intermediate shape {middle.text} into groups {Shape.groupsText groups}"
  | dense name target argument =>
    s!"fullify of '{name}' with variable intrinsic shape {target.text} and argument intrinsic " ++
      s!"shape {argument.text}"
  | secondPromotion name => s!"reinterpretation of second derivative '{name}'"

end Unsupported

inductive TensorError where
  | baseShapeMismatch (name : String) (expected actual : Shape)
  | middleShapeMismatch (name : String) (expected actual : Shape)
  | notBroadcastable (left right : Shape)
  | invalidShape (fault : ShapeFault)
  | invalidDerivative (name : String) (fault : DerivativeFault)
  | emptyAssembly
  | assemblySize (name : String) (expected actual : Shape)
  | unknown (sought : Sought)
  | duplicate (component : String)
  | unsupported (what : Unsupported)
  deriving DecidableEq

namespace TensorError

def message : TensorError → String
  | baseShapeMismatch name expected actual =>
    s!"'{name}' has incompatible base shape: expected {expected.text}, got {actual.text}"
  | middleShapeMismatch name expected actual =>
    s!"intrinsic intermediate shape {actual.text} of '{name}' is not broadcastable to the " ++
      s!"declared intrinsic intermediate shape {expected.text}"
  | notBroadcastable left right =>
    s!"shapes {left.text} and {right.text} are not broadcastable"
  | invalidShape fault => s!"invalid shape: {fault.message}"
  | invalidDerivative name fault => s!"invalid derivative '{name}': {fault.message name}"
  | emptyAssembly => "no variable values found for assembly"
  | assemblySize name expected actual =>
    s!"invalid size for variable '{name}' during assembly: expected {expected.text}, " ++
      s!"got {actual.text}"
  | unknown sought => s!"unknown variable or sub-axis '{sought.message}'"
  | duplicate component => s!"'{component}' is already declared on this axis"
  | unsupported what => s!"not implemented: {what.message}"

end TensorError

end TieredCalculus
