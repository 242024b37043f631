/-! # Shapes and multi-indices

A shape is the list of sizes of an array's dimensions, slowest first. This module
holds the number of entries of a shape, its row-major enumeration of multi-indices
and the position of a multi-index in that enumeration. The main statements say that
enumeration and position are inverse: the multi-index at place `k` has position `k`,
and every multi-index within the bounds is listed.
-/

namespace TieredCalculus

abbrev Shape := List Nat

abbrev Index := List Nat

namespace Shape

/-- Number of entries of an array of this shape; the empty shape is a scalar. -/
def numel : Shape → Nat
  | [] => 1
  | d :: s => d * numel s

@[simp] theorem numel_nil : numel [] = 1 := rfl

@[simp] theorem numel_cons (d : Nat) (s : Shape) : numel (d :: s) = d * numel s := rfl

@[simp] theorem numel_append (s t : Shape) : numel (s ++ t) = numel s * numel t := by
  induction s with
  | nil => simp
  | cons d s ih => simp [ih, Nat.mul_assoc]

@[simp] theorem numel_replicate_one (n : Nat) : numel (List.replicate n 1) = 1 := by
  induction n with
  | zero => rfl
  | succ n ih => simp [List.replicate_succ, ih]

def total : List Nat → Nat
  | [] => 0
  | n :: sizes => n + total sizes

@[simp] theorem total_nil : total [] = 0 := rfl

@[simp] theorem total_cons (n : Nat) (sizes : List Nat) : total (n :: sizes) = n + total sizes :=
  rfl

@[simp] theorem total_append (sizes more : List Nat) :
    total (sizes ++ more) = total sizes + total more := by
  induction sizes with
  | nil => simp
  | cons n sizes ih => simp [ih, Nat.add_assoc]

def text (s : Shape) : String :=
  "[" ++ String.intercalate ", " (s.map Nat.repr) ++ "]"

def groupsText (groups : List Shape) : String :=
  "[" ++ String.intercalate ", " (groups.map text) ++ "]"

/-! ## Multi-indices -/

def InBounds : Shape → Index → Prop
  | [], [] => True
  | d :: s, i :: is => i < d ∧ InBounds s is
  | _, _ => False

instance decidableInBounds : (s : Shape) → (is : Index) → Decidable (InBounds s is)
  | [], [] => isTrue trivial
  | d :: s, i :: is =>
    have := decidableInBounds s is
    inferInstanceAs (Decidable (i < d ∧ InBounds s is))
  | [], _ :: _ => isFalse id
  | _ :: _, [] => isFalse id

def indices : Shape → List Index
  | [] => [[]]
  | d :: s => (List.range d).flatMap fun i => (indices s).map (i :: ·)

/-- Place of a multi-index in row-major order. -/
def offset : Shape → Index → Nat
  | _ :: s, i :: is => i * numel s + offset s is
  | _, _ => 0

@[simp] theorem offset_nil (is : Index) : offset [] is = 0 := by
  cases is <;> rfl

@[simp] theorem offset_cons (d i : Nat) (s : Shape) (is : Index) :
    offset (d :: s) (i :: is) = i * numel s + offset s is := rfl

theorem InBounds.length_eq {s : Shape} {is : Index} (h : InBounds s is) :
    is.length = s.length := by
  induction s generalizing is with
  | nil => cases is <;> simp_all [InBounds]
  | cons d s ih =>
    cases is with
    | nil => exact h.elim
    | cons i is => simp [ih h.2]

theorem inBounds_append {s t : Shape} {is js : Index} (hi : InBounds s is)
    (hj : InBounds t js) : InBounds (s ++ t) (is ++ js) := by
  induction s generalizing is with
  | nil => cases is <;> simp_all [InBounds]
  | cons d s ih =>
    cases is with
    | nil => exact hi.elim
    | cons i is => exact ⟨hi.1, ih hi.2⟩

theorem mem_indices {s : Shape} {is : Index} : is ∈ indices s ↔ InBounds s is := by
  induction s generalizing is with
  | nil => cases is <;> simp [indices, InBounds]
  | cons d s ih =>
    cases is with
    | nil => simp [indices, InBounds]
    | cons i is => simp [indices, InBounds, ih]

theorem offset_lt {s : Shape} {is : Index} (h : InBounds s is) : offset s is < numel s := by
  induction s generalizing is with
  | nil => simp
  | cons d s ih =>
    cases is with
    | nil => exact h.elim
    | cons i is =>
      have hr := ih h.2
      calc i * numel s + offset s is < i * numel s + numel s := by omega
        _ = (i + 1) * numel s := by rw [Nat.add_mul, Nat.one_mul]
        _ ≤ d * numel s := Nat.mul_le_mul_right _ h.1

private theorem length_flatMap_range {β : Type} (f : Nat → List β) (n : Nat)
    (hf : ∀ j, (f j).length = n) (d : Nat) : ((List.range d).flatMap f).length = d * n := by
  simp only [List.length_flatMap, hf, List.map_const', List.length_range, List.sum_replicate_nat]

@[simp] theorem length_indices (s : Shape) : (indices s).length = numel s := by
  induction s with
  | nil => rfl
  | cons d s ih => exact length_flatMap_range _ _ (by simp [ih]) d

private theorem getElem?_flatMap_range {β : Type} (f : Nat → List β) (n i k d : Nat)
    (hf : ∀ j, (f j).length = n) (hi : i < d) (hk : k < n) :
    ((List.range d).flatMap f)[i * n + k]? = (f i)[k]? := by
  induction d generalizing f i with
  | zero => exact absurd hi (Nat.not_lt_zero i)
  | succ d ih =>
    rw [List.range_succ_eq_map, List.flatMap_cons, List.flatMap_map]
    cases i with
    | zero => rw [Nat.zero_mul, Nat.zero_add, List.getElem?_append_left ((hf 0).symm ▸ hk)]
    | succ i =>
      have hplace : (i + 1) * n + k = (f 0).length + (i * n + k) := by
        rw [hf, Nat.succ_mul]
        omega
      rw [hplace, List.getElem?_append_right (Nat.le_add_right _ _), Nat.add_sub_cancel_left]
      exact ih (fun j => f (j + 1)) i (fun j => hf (j + 1)) (Nat.lt_of_succ_lt_succ hi)

theorem getElem?_indices_offset {s : Shape} {is : Index} (h : InBounds s is) :
    (indices s)[offset s is]? = some is := by
  induction s generalizing is with
  | nil => cases is <;> simp_all [indices, InBounds]
  | cons d s ih =>
    cases is with
    | nil => exact h.elim
    | cons i is =>
      rw [offset_cons, indices,
        getElem?_flatMap_range _ (numel s) i _ d (by simp) h.1 (offset_lt h.2)]
      simp [ih h.2]

theorem offset_injective {s : Shape} {is js : Index} (hi : InBounds s is)
    (hj : InBounds s js) (h : offset s is = offset s js) : is = js := by
  have := getElem?_indices_offset hi
  rw [h, getElem?_indices_offset hj] at this
  exact (Option.some.inj this).symm

theorem exists_offset_eq {s : Shape} {k : Nat} (h : k < numel s) :
    ∃ is, InBounds s is ∧ offset s is = k := by
  induction s generalizing k with
  | nil => exact ⟨[], trivial, by simp at h; simp [h]⟩
  | cons d s ih =>
    have hs : 0 < numel s := by
      rcases Nat.eq_zero_or_pos (numel s) with h0 | h0
      · simp [h0] at h
      · exact h0
    obtain ⟨is, hin, hoff⟩ := ih (Nat.mod_lt k hs)
    refine ⟨k / numel s :: is, ⟨(Nat.div_lt_iff_lt_mul hs).2 h, hin⟩, ?_⟩
    rw [offset_cons, hoff, Nat.div_add_mod']

/-- Along unit dimensions every coordinate is read as zero. -/
def clamp : Shape → Index → Index :=
  List.zipWith fun d i => if d = 1 then 0 else i

/-! ## Unit dimensions -/

def insertUnits (s : Shape) (at_ n : Nat) : Shape :=
  s.take at_ ++ (List.replicate n 1 ++ s.drop at_)

@[simp] theorem numel_insertUnits (s : Shape) (at_ n : Nat) :
    numel (s.insertUnits at_ n) = numel s := by
  rw [insertUnits, numel_append, numel_append, numel_replicate_one, Nat.one_mul,
    ← numel_append, List.take_append_drop]

/-- The shape padded on the left with unit dimensions up to rank `n`. -/
def padLeft (n : Nat) (s : Shape) : Shape :=
  List.replicate (n - s.length) 1 ++ s

@[simp] theorem numel_padLeft (n : Nat) (s : Shape) : numel (padLeft n s) = numel s := by
  simp [padLeft]

def insertSorted (n : Nat) : List Nat → List Nat
  | [] => [n]
  | m :: r => if n < m then n :: m :: r else if n = m then m :: r else m :: insertSorted n r

def distinct (dims : List Nat) : List Nat :=
  dims.foldr insertSorted []

end Shape

end TieredCalculus
