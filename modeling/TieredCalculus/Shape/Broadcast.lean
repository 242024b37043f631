import TieredCalculus.TensorError

/-! # Broadcasting of shapes

Two shapes are aligned on the right, the shorter one padded with unit dimensions on the
left. They broadcast when in every place the two sizes agree or one of them is one, and
the common size is then the one that is not one.
-/

namespace TieredCalculus.Shape

def joinSizes? : Shape → Shape → Option Shape
  | [], [] => some []
  | x :: xs, y :: ys =>
    if x = y then (joinSizes? xs ys).map (x :: ·)
    else if x = 1 then (joinSizes? xs ys).map (y :: ·)
    else if y = 1 then (joinSizes? xs ys).map (x :: ·)
    else none
  | _, _ => none

def broadcast (a b : Shape) : Except TensorError Shape :=
  let rank := max a.length b.length
  match joinSizes? (padLeft rank a) (padLeft rank b) with
  | some s => .ok s
  | none => .error (.notBroadcastable a b)

/-- The common shape of a list of shapes, joined from the left; the scalar shape for none. -/
def broadcastAll (shapes : List Shape) : Except TensorError Shape :=
  shapes.foldlM broadcast []

/-- Whether a shape aligned on the right of a target differs from it in unit sizes only. -/
def expandsTo (s target : Shape) : Bool :=
  s.length ≤ target.length &&
    (s.zip (target.drop (target.length - s.length))).all fun d => d.1 = d.2 || d.1 = 1

end TieredCalculus.Shape
