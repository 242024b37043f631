import TieredCalculus.Linear.Square

/-! # Triangular factors of a square matrix

Gaussian elimination with partial pivoting turns a matrix into a unit lower triangle and an
upper triangle, stored in one matrix, together with the order in which the rows of the
matrix were used. A matrix is refused when some pivot is smaller than a threshold.
-/

namespace TieredCalculus

/-- The factors of a matrix: multipliers below the diagonal, the upper triangle on and above
it; row `i` of their product is row `order[i]` of the matrix. -/
structure Lu (α : Type) (n : Nat) where
  factors : Square α n
  order : Vector (Fin n) n
  deriving DecidableEq

namespace Lu

variable {α : Type} {n : Nat}

def threshold [OfScientific α] : α := 1e-12

section Factor

variable [Zero α] [Neg α] [LT α] [DecidableLT α]

/-- The row with the entry of greatest absolute value in a column, among the rows from the
diagonal down; the uppermost of several. -/
def pivotRow (a : Square α n) (col : Fin n) : Fin n :=
  (List.finRange n).foldl (fun best row =>
    if col < row ∧ Scalar.abs (a best col) < Scalar.abs (a row col) then row else best) col

def exchange (p q i : Fin n) : Fin n := if i = p then q else if i = q then p else i

variable [Sub α] [Mul α] [Div α] [LE α] [DecidableLE α]

/-- Eliminates a column below the diagonal after bringing the pivot row there. Multipliers
replace the eliminated entries. A pivot has to be at least `eps` in absolute value. -/
def eliminate (eps : α) (lu : Lu α n) (col : Fin n) : Option (Lu α n) :=
  let best := pivotRow lu.factors col
  if eps ≤ Scalar.abs (lu.factors best col) then
    let a := fun i j => lu.factors (exchange col best i) j
    let factors := Square.ofFn fun i j =>
      if i ≤ col then a i j
      else
        let multiplier := a i col / a col col
        if j < col then a i j
        else if j = col then multiplier
        else a i j - multiplier * a col j
    some ⟨factors, .ofFn fun i => lu.order.get (exchange col best i)⟩
  else none

def factor? (eps : α) (a : Square α n) : Option (Lu α n) :=
  (List.finRange n).foldlM (eliminate eps) ⟨a, .ofFn id⟩

end Factor

section Solve

variable [Sub α] [Mul α] [Div α]

/-- Subtracts `a i j * x j` from `start` for the `j` that pass a test, in ascending order. -/
def reduceRow (a : Square α n) (x : Vector α n) (i : Fin n) (start : α)
    (keep : Fin n → Bool) : α :=
  (List.finRange n).foldl (fun acc j => if keep j then acc - a i j * x.get j else acc) start

def forward (lu : Lu α n) (b : Vector α n) : Vector α n :=
  (List.finRange n).foldl
    (fun y (i : Fin n) => y.set i.val (reduceRow lu.factors y i (y.get i) fun j => j < i) i.isLt)
    (.ofFn fun i => b.get (lu.order.get i))

def backward [Zero α] (lu : Lu α n) (y : Vector α n) : Vector α n :=
  (List.finRange n).foldr
    (fun (i : Fin n) x =>
      x.set i.val (reduceRow lu.factors x i (y.get i) (fun j => i < j) / lu.factors i i) i.isLt)
    (.replicate n 0)

def solve [Zero α] (lu : Lu α n) (b : Vector α n) : Vector α n := lu.backward (lu.forward b)

end Solve

end Lu

end TieredCalculus
