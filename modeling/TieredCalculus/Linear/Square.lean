import TieredCalculus.Scalar

/-! # Vectors and square matrices

Vectors are the core library's `Vector`; a square matrix is a vector of rows, read as
`a i j`. Sums run in ascending order of the index and start at zero.
-/

namespace TieredCalculus

theorem get_ofFn {α : Type} {n : Nat} (f : Fin n → α) (i : Fin n) : (Vector.ofFn f).get i = f i :=
  Vector.getElem_ofFn i.isLt

structure Square (α : Type) (n : Nat) where
  rows : Vector (Vector α n) n
  deriving DecidableEq

namespace Square

variable {α : Type} {n : Nat}

instance : CoeFun (Square α n) fun _ => Fin n → Fin n → α := ⟨fun a i j => (a.rows.get i).get j⟩

def ofFn (f : Fin n → Fin n → α) : Square α n := ⟨.ofFn fun i => .ofFn fun j => f i j⟩

@[simp] theorem ofFn_apply (f : Fin n → Fin n → α) (i j : Fin n) : ofFn f i j = f i j := by
  simp only [ofFn, get_ofFn]

@[ext] theorem ext {a b : Square α n} (h : ∀ i j, a i j = b i j) : a = b := by
  obtain ⟨r⟩ := a
  obtain ⟨s⟩ := b
  congr
  ext i hi j hj
  exact h ⟨i, hi⟩ ⟨j, hj⟩

end Square

namespace Linear

variable {α : Type}

def dot [Zero α] [Add α] [Mul α] (xs ys : List α) : α :=
  (xs.zip ys).foldl (fun acc p => acc + p.1 * p.2) 0

def norm [Zero α] [Add α] [Mul α] [Scalar α] (xs : List α) : α :=
  Scalar.sqrt (xs.foldl (fun acc x => acc + x * x) 0)

end Linear

end TieredCalculus
