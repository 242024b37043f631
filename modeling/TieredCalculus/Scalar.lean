import TieredCalculus.Decimal.Shortest

/-! # Scalars

Arithmetic and order of the numbers come from the classes of the core library, so that the
same definitions run on machine numbers and can be read over a ring or an ordered field.
This module adds what those classes lack: a square root, the spacing of the numbers at one,
a finiteness test and a text.
-/

namespace TieredCalculus

/-- What the algorithms use of their numbers beyond arithmetic and order. -/
class Scalar (α : Type) where
  sqrt : α → α
  /-- The distance from one to the next greater number. -/
  epsilon : α
  /-- Whether the number is neither infinite nor undefined. -/
  isFinite : α → Bool

class DecimalText (α : Type) where
  text : α → String

namespace Scalar

variable {α : Type}

def abs [Zero α] [Neg α] [LT α] [DecidableLT α] (x : α) : α := if x < 0 then -x else x

def positivePart [Zero α] [LT α] [DecidableLT α] (x : α) : α := if 0 < x then x else 0

/-- The lesser of two numbers, passing over one that differs from itself. -/
def least [LT α] [DecidableLT α] [BEq α] (x y : α) : α :=
  if y < x then y else if x == x then x else y

end Scalar

instance : Scalar Float where
  sqrt := Float.sqrt
  epsilon := 2.220446049250313e-16
  isFinite := Float.isFinite

instance : Scalar Float32 where
  sqrt := Float32.sqrt
  epsilon := 1.1920929e-7
  isFinite := Float32.isFinite

instance : DecimalText Float := ⟨fun x => Decimal.text ⟨52, 11, 17⟩ x.toBits.toNat⟩

instance : DecimalText Float32 := ⟨fun x => Decimal.text ⟨23, 8, 9⟩ x.toBits.toNat⟩

end TieredCalculus
