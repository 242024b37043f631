import TieredCalculus.Shape.Broadcast

/-! # Tiered tensors

The dimensions of a tensor fall into three tiers: leading batch dimensions for independent
instances, intermediate dimensions for a fixed collection of items, and trailing base
dimensions for the components of one quantity. Entries are stored in row-major order of all
dimensions together. Every tensor is seen through `entry`, its value at a multi-index;
`tabulate` builds a tensor from such a function and `entry_tabulate` says that it is read
back.
-/

namespace TieredCalculus

/-- A dense tensor with batch, intermediate and base tiers. -/
structure Tensor (α : Type) where
  batch : Shape
  middle : Shape
  base : Shape
  data : Array α
  size_data : data.size = (batch ++ middle ++ base).numel

namespace Tensor

variable {α β : Type}

/-! ## Shape -/

def shape (t : Tensor α) : Shape := t.batch ++ t.middle ++ t.base

def rank (t : Tensor α) : Nat := t.shape.length

def leading (t : Tensor α) : Shape := t.batch ++ t.middle

def leadingRank (t : Tensor α) : Nat := t.batch.length + t.middle.length

def baseNumel (t : Tensor α) : Nat := t.base.numel

def toList (t : Tensor α) : List α := t.data.toList

@[simp] theorem numel_shape (t : Tensor α) : t.shape.numel = t.data.size := t.size_data.symm

/-! ## Entries -/

/-- The entry at a multi-index over all dimensions, zero outside the bounds. -/
def entry [Zero α] (t : Tensor α) (idx : Index) : α :=
  t.data[t.shape.offset idx]?.getD 0

def tabulate (batch middle base : Shape) (f : Index → α) : Tensor α where
  batch := batch
  middle := middle
  base := base
  data := ((batch ++ middle ++ base).indices.map f).toArray
  size_data := by simp

@[simp] theorem shape_tabulate (batch middle base : Shape) (f : Index → α) :
    (tabulate batch middle base f).shape = batch ++ middle ++ base := rfl

theorem entry_tabulate [Zero α] {batch middle base : Shape} (f : Index → α) {idx : Index}
    (h : Shape.InBounds (batch ++ middle ++ base) idx) :
    (tabulate batch middle base f).entry idx = f idx := by
  have := Shape.getElem?_indices_offset h
  simp only [List.append_assoc] at this h
  simp [entry, tabulate, shape, this]

theorem ext_entry [Zero α] {s t : Tensor α} (hb : s.batch = t.batch) (hm : s.middle = t.middle)
    (hs : s.base = t.base)
    (h : ∀ idx, Shape.InBounds s.shape idx → s.entry idx = t.entry idx) : s = t := by
  obtain ⟨b, m, c, x, hx⟩ := s
  obtain ⟨b', m', c', y, hy⟩ := t
  subst hb hm hs
  have hxy : x = y := by
    apply Array.ext (hx.trans hy.symm)
    intro k hk hk'
    obtain ⟨idx, hin, hoff⟩ := Shape.exists_offset_eq (hx ▸ hk)
    have he := h idx hin
    simp only [entry, shape, hoff] at he
    simpa [hk, hk'] using he
  subst hxy
  rfl

/-! ## Construction -/

/-- The tensor with the given values in row-major order, which have to be as many as the
shape has entries. -/
def ofValues (batch middle base : Shape) (values : Array α) : Except TensorError (Tensor α) :=
  let shape := batch ++ middle ++ base
  if h : values.size = shape.numel then .ok ⟨batch, middle, base, values, h⟩
  else if values.size < shape.numel then .error (.invalidShape (.tooFewValues shape))
  else .error (.invalidShape (.tooManyValues shape))

def full (batch middle base : Shape) (value : α) : Tensor α where
  batch := batch
  middle := middle
  base := base
  data := Array.replicate (batch ++ middle ++ base).numel value
  size_data := by simp

def zeros [Zero α] (batch middle base : Shape) : Tensor α := full batch middle base 0

def ones [One α] (batch middle base : Shape) : Tensor α := full batch middle base 1

def zerosLike [Zero α] (t : Tensor α) : Tensor α := zeros t.batch t.middle t.base

def onDiagonal (idx : Index) : Bool :=
  match idx.reverse with
  | i :: j :: _ => i == j
  | _ => false

/-- Identity matrices, one per batch entry. -/
def identity [Zero α] [One α] (batch : Shape) (n : Nat) : Tensor α :=
  tabulate batch [] [n, n] fun idx => if onDiagonal idx then 1 else 0

def map (f : α → β) (t : Tensor α) : Tensor β where
  batch := t.batch
  middle := t.middle
  base := t.base
  data := t.data.map f
  size_data := by simpa using t.size_data

/-- Equal tiers and equal entries; an entry that differs from itself equals nothing. -/
instance [BEq α] : BEq (Tensor α) where
  beq s t := s.batch == t.batch && s.middle == t.middle && s.base == t.base && s.data == t.data

/-! ## Other tiers over the same entries -/

/-- The same entries under tiers with as many places. -/
def retier (t : Tensor α) (batch middle base : Shape)
    (h : (batch ++ middle ++ base).numel = t.shape.numel) : Tensor α :=
  ⟨batch, middle, base, t.data, by rw [h, numel_shape]⟩

/-- The same dimensions with the first `batchRank` declared batch dimensions and the next
`middleRank` intermediate ones. -/
def withTiers (t : Tensor α) (batchRank middleRank : Nat) : Except TensorError (Tensor α) :=
  if batchRank + middleRank > t.rank then
    .error (.invalidShape (.tiersExceedRank batchRank middleRank t.rank))
  else
    let rest := t.shape.drop batchRank
    .ok <| t.retier (t.shape.take batchRank) (rest.take middleRank) (rest.drop middleRank) <| by
      rw [List.append_assoc, List.take_append_drop, List.take_append_drop]

def reshape (t : Tensor α) (batch middle base : Shape) : Except TensorError (Tensor α) :=
  if h : (batch ++ middle ++ base).numel = t.shape.numel then
    .ok (t.retier batch middle base h)
  else .error (.invalidShape (.reshape t.shape (batch ++ middle ++ base)))

def reshapeBase (t : Tensor α) (base : Shape) : Except TensorError (Tensor α) :=
  t.reshape t.batch t.middle base

end Tensor

end TieredCalculus
