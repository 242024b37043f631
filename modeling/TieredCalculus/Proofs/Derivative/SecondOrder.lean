import Mathlib.Algebra.BigOperators.Group.Finset.Sigma
import Mathlib.Algebra.BigOperators.Ring.Finset
import TieredCalculus.Proofs.Derivative.ChainRule
import TieredCalculus.Proofs.Derivative.Shaped

/-! # The second-order chain rule

A second derivative is composed with the first derivatives of both of its arguments at once, or
with one after the other in either order. The three contractions are separate sums over the
shared quantities, of operands that broadcast together or in two steps. Without intrinsic
dimensions all ways have a result in the same cases, and it is the same.
-/

namespace TieredCalculus

namespace Tensor

variable {α : Type} [CommRing α] {a b c t : Tensor α} {batch middle : Shape}
  {n₀ n₁ n₂ m₁ m₂ : Nat}

theorem reshapeBase_cellAt {base : Shape} (h : base.numel = t.base.numel) :
    ∃ r, t.reshapeBase base = .ok r ∧ r.batch = t.batch ∧ r.middle = t.middle ∧ r.base = base ∧
      r.cellAt = t.cellAt := by
  have hall : (t.batch ++ t.middle ++ base).numel = t.shape.numel := by
    rw [shape, Shape.numel_append, Shape.numel_append _ t.base, h]
  refine ⟨t.retier t.batch t.middle base hall, dif_pos hall, rfl, rfl, rfl, ?_⟩
  funext b w k
  exact cell_retier t k rfl h rfl rfl

/-! ## Contractions -/

/-- Place `x` of the product that contracts both arguments of `a`. -/
def bothCell (a b c : Tensor α) (n₁ n₂ m₁ m₂ : Nat) (l w : Index) (x : Nat) : α :=
  ∑ p ∈ Finset.range n₁, ∑ q ∈ Finset.range n₂,
    a.cellAt l w ((x / m₂ / m₁ * n₁ + p) * n₂ + q) *
      (b.cellAt l w (p * m₁ + x / m₂ % m₁) * c.cellAt l w (q * m₂ + x % m₂))

def firstCell (a b : Tensor α) (n₁ n₂ m₁ : Nat) (l w : Index) (x : Nat) : α :=
  ∑ p ∈ Finset.range n₁,
    a.cellAt l w ((x / n₂ / m₁ * n₁ + p) * n₂ + x % n₂) *
      b.cellAt l w (p * m₁ + x / n₂ % m₁)

def secondCell (a c : Tensor α) (n₁ n₂ m₂ : Nat) (l w : Index) (x : Nat) : α :=
  ∑ q ∈ Finset.range n₂,
    a.cellAt l w ((x / m₂ / n₁ * n₁ + x / m₂ % n₁) * n₂ + q) * c.cellAt l w (q * m₂ + x % m₂)

private theorem place_three {i j k m n : Nat} (hj : j < m) (hk : k < n) :
    ((i * m + j) * n + k) / n / m = i ∧ ((i * m + j) * n + k) / n % m = j ∧
      ((i * m + j) * n + k) % n = k := by
  obtain ⟨hdiv, hmod⟩ := Shape.place_div_mod (a := i * m + j) hk
  rw [hdiv, hmod, (Shape.place_div_mod hj).1, (Shape.place_div_mod hj).2]
  exact ⟨rfl, rfl, rfl⟩

section Places

variable {l w : Index} {i j k : Nat}

theorem bothCell_place (a b c : Tensor α) (n₁ n₂ : Nat) (hj : j < m₁) (hk : k < m₂) :
    bothCell a b c n₁ n₂ m₁ m₂ l w ((i * m₁ + j) * m₂ + k) =
      ∑ p ∈ Finset.range n₁, ∑ q ∈ Finset.range n₂, a.cellAt l w ((i * n₁ + p) * n₂ + q) *
        (b.cellAt l w (p * m₁ + j) * c.cellAt l w (q * m₂ + k)) := by
  obtain ⟨hx₀, hx₁, hx₂⟩ := place_three (i := i) hj hk
  rw [bothCell, hx₀, hx₁, hx₂]

theorem firstCell_place (a b : Tensor α) (n₁ : Nat) (hj : j < m₁) (hk : k < n₂) :
    firstCell a b n₁ n₂ m₁ l w ((i * m₁ + j) * n₂ + k) =
      ∑ p ∈ Finset.range n₁, a.cellAt l w ((i * n₁ + p) * n₂ + k) * b.cellAt l w (p * m₁ + j) := by
  obtain ⟨hx₀, hx₁, hx₂⟩ := place_three (i := i) hj hk
  rw [firstCell, hx₀, hx₁, hx₂]

theorem secondCell_place (a c : Tensor α) (n₂ : Nat) (hj : j < n₁) (hk : k < m₂) :
    secondCell a c n₁ n₂ m₂ l w ((i * n₁ + j) * m₂ + k) =
      ∑ q ∈ Finset.range n₂, a.cellAt l w ((i * n₁ + j) * n₂ + q) * c.cellAt l w (q * m₂ + k) := by
  obtain ⟨hx₀, hx₁, hx₂⟩ := place_three (i := i) hj hk
  rw [secondCell, hx₀, hx₁, hx₂]

end Places

theorem offset_three (n₀ n₁ n₂ i j k : Nat) :
    Shape.offset [n₀, n₁, n₂] [i, j, k] = (i * n₁ + j) * n₂ + k := by
  simp only [Shape.offset_cons, Shape.offset_nil, Shape.numel_cons, Shape.numel_nil]
  ring

theorem contractBoth_view [BEq α] [LawfulBEq α] (ha : a.base = [n₀, n₁, n₂])
    (hb : b.base = [n₁, m₁]) (hc : c.base = [n₂, m₂]) (h : Join [a, b, c] batch middle) :
    ∃ r, Derivative.contractBoth a b c n₀ n₁ n₂ m₁ m₂ = .ok r ∧
      r.View batch middle [n₀, m₁, m₂] (bothCell a b c n₁ n₂ m₁ m₂) := by
  refine contract_view h fun {l w e} _ _ he => ?_
  match e, he with
  | [i, j, k], he =>
    obtain ⟨hi, hj, hk, -⟩ := he
    have hterm : ∀ p q, a.cellAt l w (a.base.offset [i, p, q]) =
        a.cellAt l w ((i * n₁ + p) * n₂ + q) := fun p q => by rw [ha, offset_three]
    have hleft : ∀ p, b.base.offset [p, j] = p * m₁ + j := fun p => by simp [hb]
    have hright : ∀ q, c.base.offset [q, k] = q * m₂ + k := fun q => by simp [hc]
    have hinner : ∀ (p : Nat) (acc : α), (List.range n₂).foldl (fun acc q =>
        let apq := operandCell [a, b, c] l w 0 [i, p, q]
        if apq == 0 then acc
        else acc + apq * operandCell [a, b, c] l w 1 [p, j] *
          operandCell [a, b, c] l w 2 [q, k]) acc =
        acc + ((List.range n₂).map fun q => a.cellAt l w (a.base.offset [i, p, q]) *
          (b.cellAt l w (b.base.offset [p, j]) * c.cellAt l w (c.base.offset [q, k]))).sum := by
      intro p acc
      rw [← foldl_addScaled_eq]
      congr 1
      funext acc q
      unfold addScaled
      rw [← mul_assoc]
      rfl
    rw [offset_three, bothCell_place a b c n₁ n₂ hj hk]
    change (List.range n₁).foldl (fun acc p => (List.range n₂).foldl (fun acc q =>
        let apq := operandCell [a, b, c] l w 0 [i, p, q]
        if apq == 0 then acc
        else acc + apq * operandCell [a, b, c] l w 1 [p, j] *
          operandCell [a, b, c] l w 2 [q, k]) acc) 0 = _
    simp only [hinner]
    refine (sumUpTo_eq_sum n₁ _).trans ?_
    simp only [hterm, hleft, hright]
    rfl

theorem contractFirst_view (ha : a.base = [n₀, n₁, n₂]) (hb : b.base = [n₁, m₁])
    (h : Join [a, b] batch middle) :
    ∃ r, Derivative.contractFirst a b n₀ n₁ n₂ m₁ = .ok r ∧
      r.View batch middle [n₀, m₁, n₂] (firstCell a b n₁ n₂ m₁) := by
  refine contract_view h fun {l w e} _ _ he => ?_
  match e, he with
  | [i, j, k], he =>
    obtain ⟨hi, hj, hk, -⟩ := he
    have hleft : ∀ p, a.base.offset [i, p, k] = (i * n₁ + p) * n₂ + k :=
      fun p => by rw [ha, offset_three]
    have hright : ∀ p, b.base.offset [p, j] = p * m₁ + j := fun p => by simp [hb]
    rw [offset_three, firstCell_place a b n₁ hj hk]
    change sumUpTo n₁ (fun p => a.cellAt l w (a.base.offset [i, p, k]) *
      b.cellAt l w (b.base.offset [p, j])) = _
    simp only [hleft, hright]
    exact sumUpTo_eq_sum n₁ _

theorem contractSecond_view (ha : a.base = [n₀, n₁, n₂]) (hc : c.base = [n₂, m₂])
    (h : Join [a, c] batch middle) :
    ∃ r, Derivative.contractSecond a c n₀ n₁ n₂ m₂ = .ok r ∧
      r.View batch middle [n₀, n₁, m₂] (secondCell a c n₁ n₂ m₂) := by
  refine contract_view h fun {l w e} _ _ he => ?_
  match e, he with
  | [i, j, k], he =>
    obtain ⟨hi, hj, hk, -⟩ := he
    have hleft : ∀ q, a.base.offset [i, j, q] = (i * n₁ + j) * n₂ + q :=
      fun q => by rw [ha, offset_three]
    have hright : ∀ q, c.base.offset [q, k] = q * m₂ + k := fun q => by simp [hc]
    rw [offset_three, secondCell_place a c n₂ hj hk]
    change sumUpTo n₂ (fun q => a.cellAt l w (a.base.offset [i, j, q]) *
      c.cellAt l w (c.base.offset [q, k])) = _
    simp only [hleft, hright]
    exact sumUpTo_eq_sum n₂ _

/-! ## One argument after the other -/

section Steps

variable {base : Shape} {l w : Index} {x : Nat}

theorem exists_place (hx : x < Shape.numel [n₀, m₁, m₂]) :
    ∃ i j k, i < n₀ ∧ j < m₁ ∧ k < m₂ ∧ x = (i * m₁ + j) * m₂ + k := by
  obtain ⟨e, he, rfl⟩ := Shape.exists_offset_eq hx
  match e, he with
  | [i, j, k], he =>
    obtain ⟨hi, hj, hk, -⟩ := he
    exact ⟨i, j, k, hi, hj, hk, offset_three ..⟩

theorem place_lt_three {i j k : Nat} (hi : i < n₀) (hj : j < n₁) (hk : k < n₂) :
    (i * n₁ + j) * n₂ + k < Shape.numel [n₀, n₁, n₂] := by
  rw [← offset_three n₀]
  exact Shape.offset_lt ⟨hi, hj, hk, trivial⟩

theorem secondCell_of_first {batch' middle' : Shape} (hab : Join [a, b] batch' middle')
    (v : t.View batch' middle' base (firstCell a b n₁ n₂ m₁))
    (hbase : base.numel = Shape.numel [n₀, m₁, n₂]) (h : Join [t, c] batch middle)
    (hl : Shape.InBounds batch l) (hw : Shape.InBounds middle w)
    (hx : x < Shape.numel [n₀, m₁, m₂]) :
    secondCell t c m₁ n₂ m₂ l w x = bothCell a b c n₁ n₂ m₁ m₂ l w x := by
  obtain ⟨i, j, k, hi, hj, hk, rfl⟩ := exists_place hx
  obtain ⟨htcell, hcells⟩ := hab.cellAt_eq v h hl hw
  rw [secondCell_place t c n₂ hj hk, bothCell_place a b c n₁ n₂ hj hk, Finset.sum_comm]
  refine Finset.sum_congr rfl fun q hq => ?_
  have hq' := Finset.mem_range.1 hq
  rw [htcell _ (hbase ▸ place_lt_three hi hj hq'), firstCell_place a b n₁ hj hq',
    hcells a (by simp), hcells b (by simp), Finset.sum_mul]
  exact Finset.sum_congr rfl fun p _ => mul_assoc _ _ _

theorem firstCell_of_second {batch' middle' : Shape} (hac : Join [a, c] batch' middle')
    (v : t.View batch' middle' base (secondCell a c n₁ n₂ m₂))
    (hbase : base.numel = Shape.numel [n₀, n₁, m₂]) (h : Join [t, b] batch middle)
    (hl : Shape.InBounds batch l) (hw : Shape.InBounds middle w)
    (hx : x < Shape.numel [n₀, m₁, m₂]) :
    firstCell t b n₁ m₂ m₁ l w x = bothCell a b c n₁ n₂ m₁ m₂ l w x := by
  obtain ⟨i, j, k, hi, hj, hk, rfl⟩ := exists_place hx
  obtain ⟨htcell, hcells⟩ := hac.cellAt_eq v h hl hw
  rw [firstCell_place t b n₁ hj hk, bothCell_place a b c n₁ n₂ hj hk]
  refine Finset.sum_congr rfl fun p hp => ?_
  have hp' := Finset.mem_range.1 hp
  rw [htcell _ (hbase ▸ place_lt_three hi hp' hk), secondCell_place a c n₂ hp' hk,
    hcells a (by simp), hcells c (by simp), Finset.sum_mul]
  refine Finset.sum_congr rfl fun q _ => ?_
  rw [mul_assoc, mul_comm (c.cellAt l w _)]

end Steps

end Tensor

namespace Derivative

open Tensor

/-! ## Derivatives without intrinsic dimensions -/

theorem base_eq_three {α : Type} (d : Derivative α 2) :
    d.base = d.target.base ++ d.firstArgument.base ++ d.secondArgument.base := by
  obtain ⟨m, y, ⟨⟨l⟩, hl⟩, v⟩ := d
  match l, hl with
  | [x₁, x₂], _ => simp [base, firstArgument, secondArgument]

theorem numel_three (y x₁ x₂ : Quantity) : (y.base ++ x₁.base ++ x₂.base).numel =
    Shape.numel [y.base.numel, x₁.base.numel, x₂.base.numel] := by
  rw [Shape.numel_append, Shape.numel_append]
  simp [mul_assoc]

theorem numel_base_two {α : Type} (d : Derivative α 1) :
    d.base.numel = Shape.numel [d.target.base.numel, d.argument.base.numel] := by
  rw [base_eq, Shape.numel_append]
  simp

theorem numel_base_three {α : Type} (d : Derivative α 2) : d.base.numel =
    Shape.numel [d.target.base.numel, d.firstArgument.base.numel, d.secondArgument.base.numel] := by
  rw [base_eq_three, numel_three]

section Plain

variable {α : Type} {n : Nat} {d : Derivative α n} {t : Tensor α}

/-- The derivative stores this value over the bases of its participants, and none of them has
intrinsic dimensions. -/
structure Plain (d : Derivative α n) (t : Tensor α) : Prop where
  value_eq : d.value = some t
  base_eq : t.base = d.base
  intrinsic_eq : ∀ q ∈ d.target :: d.arguments.toList, q.intrinsic = 0

theorem Sound.plain {y : Quantity} {xs : Vector Quantity n} (h : Sound y xs d)
    (ht : d.value = some t) (hq : ∀ q ∈ y :: xs.toList, q.intrinsic = 0) : d.Plain t := by
  have hshaped := h.shaped ht
  obtain ⟨rfl, rfl, -, -⟩ := h
  exact ⟨ht, hshaped.base_eq, hq⟩

theorem Plain.target_intrinsic (h : d.Plain t) : d.target.intrinsic = 0 :=
  h.intrinsic_eq _ List.mem_cons_self

private theorem Plain.getElem_intrinsic (h : d.Plain t) {i : Nat} (hi : i < n) :
    d.arguments[i].intrinsic = 0 :=
  h.intrinsic_eq _ (List.mem_cons_of_mem _ (by simp))

theorem Plain.argument_intrinsic {d : Derivative α 1} (h : d.Plain t) :
    d.argument.intrinsic = 0 :=
  h.getElem_intrinsic _

theorem Plain.firstArgument_intrinsic {d : Derivative α 2} (h : d.Plain t) :
    d.firstArgument.intrinsic = 0 :=
  h.getElem_intrinsic _

theorem Plain.secondArgument_intrinsic {d : Derivative α 2} (h : d.Plain t) :
    d.secondArgument.intrinsic = 0 :=
  h.getElem_intrinsic _

theorem Plain.reshape [CommRing α] (h : d.Plain t) {base : Shape}
    (hbase : d.base.numel = base.numel) :
    ∃ r, t.reshapeBase base = .ok r ∧ r.batch = t.batch ∧ r.middle = t.middle ∧ r.base = base ∧
      r.cellAt = t.cellAt :=
  reshapeBase_cellAt (hbase.symm.trans (congrArg Shape.numel h.base_eq.symm))

end Plain

theorem declare_plain {α : Type} {n : Nat} {y : Quantity} {xs : Vector Quantity n}
    (hq : ∀ q ∈ y :: xs.toList, q.intrinsic = 0) :
    declare 0 y xs = .ok (⟨0, y, xs, none⟩ : Derivative α n) := by
  have hcheck : checkDeclaration 0 y xs.toList = .ok () :=
    checkDeclaration_eq_ok_iff.2 ⟨fun q hmem => hq q hmem ▸ Nat.zero_le _, .inl (Nat.zero_le _)⟩
  unfold declare
  dsimp only
  rw [hcheck]

theorem extrinsic_eq_self {q : Quantity} (h : q.intrinsic = 0) : q.extrinsic = q := by
  obtain ⟨name, middle, k, base⟩ := q
  cases h
  rfl

/-! ## Stored products -/

/-- The derivative of `y` by `x₁` and `x₂` that stores these cells over these tiers. -/
structure HasCells {α : Type} [Zero α] (y x₁ x₂ : Quantity) (batch middle : Shape)
    (g : Index → Index → Nat → α) (r : Derivative α 2) : Prop where
  intrinsic_eq : r.intrinsic = 0
  target_eq : r.target = y
  arguments_eq : r.arguments.toList = [x₁, x₂]
  value_eq : ∃ t, r.value = some t ∧ t.View batch middle (y.base ++ x₁.base ++ x₂.base) g

section Products

variable {α : Type} [CommRing α] {y x₁ x₂ : Quantity} {batch middle : Shape}
  {g g' : Index → Index → Nat → α} {r : Derivative α 2}

theorem hasCells_iff : HasCells y x₁ x₂ batch middle g r ↔ ∃ t,
    r = ⟨0, y, #v[x₁, x₂], some t⟩ ∧
      t.View batch middle (y.base ++ x₁.base ++ x₂.base) g := by
  constructor
  · obtain ⟨m, target, arguments, value⟩ := r
    rintro ⟨hm, rfl, harguments, t, ht, v⟩
    obtain rfl : m = 0 := hm
    obtain rfl : arguments = #v[x₁, x₂] := Vector.toList_inj.1 harguments
    obtain rfl : value = some t := ht
    exact ⟨t, rfl, v⟩
  · rintro ⟨t, rfl, v⟩
    exact ⟨rfl, rfl, rfl, t, rfl, v⟩

theorem exists_hasCells (y x₁ x₂ : Quantity) (batch middle : Shape)
    (g : Index → Index → Nat → α) : ∃ r, HasCells y x₁ x₂ batch middle g r := by
  obtain ⟨t, vt⟩ := exists_view batch middle (y.base ++ x₁.base ++ x₂.base) g
  exact ⟨_, hasCells_iff.2 ⟨t, rfl, vt⟩⟩

theorem HasCells.congr (hr : HasCells y x₁ x₂ batch middle g r)
    (h : ∀ {l w x}, Shape.InBounds batch l → Shape.InBounds middle w →
      x < (y.base ++ x₁.base ++ x₂.base).numel → g l w x = g' l w x) :
    HasCells y x₁ x₂ batch middle g' r := by
  obtain ⟨hm, hy, hx, t, ht, v⟩ := hr
  exact ⟨hm, hy, hx, t, ht, v.congr h⟩

theorem ofSecondProduct_eq_ok (hy : y.intrinsic = 0) (h₁ : x₁.intrinsic = 0)
    (h₂ : x₂.intrinsic = 0) {t : Tensor α}
    (v : t.View batch middle [y.base.numel, x₁.base.numel, x₂.base.numel] g) :
    ofSecondProduct y x₁ x₂ t = .ok r ↔ HasCells y x₁ x₂ batch middle g r := by
  obtain ⟨t', ht', vt'⟩ := v.reshapeBase (numel_three y x₁ x₂)
  have hdeclare : declareSecond 0 y.extrinsic x₁.extrinsic x₂.extrinsic =
      .ok (⟨0, y, #v[x₁, x₂], none⟩ : Derivative α 2) := by
    rw [extrinsic_eq_self hy, extrinsic_eq_self h₁, extrinsic_eq_self h₂]
    exact declare_plain (by simp [hy, h₁, h₂])
  have hdense : (⟨0, y, #v[x₁, x₂], none⟩ : Derivative α 2).denseShape = [] := by
    simp [denseShape, Quantity.intrinsicShape, hy, h₁, h₂]
  have hvalue : withValue ⟨0, y, #v[x₁, x₂], none⟩ t' = .ok ⟨0, y, #v[x₁, x₂], some t'⟩ := by
    apply withValue_dense (d := ⟨0, y, #v[x₁, x₂], none⟩)
    · rw [vt'.base_eq]
      simp [base]
    · rw [hdense, List.append_nil]
    · rw [hdense]
      rfl
  unfold ofSecondProduct
  rw [hdeclare]
  simp only [bind, Except.bind, ht', hvalue, Except.ok.injEq, hasCells_iff]
  constructor
  · rintro rfl
    exact ⟨t', rfl, vt'⟩
  · rintro ⟨t'', rfl, vt''⟩
    rw [vt'.unique vt'']

theorem product_eq_ok (hy : y.intrinsic = 0) (h₁ : x₁.intrinsic = 0) (h₂ : x₂.intrinsic = 0)
    {operands : List (Tensor α)} {kernel : (Nat → Index → α) → Index → α}
    (hview : ∀ {batch middle}, Join operands batch middle →
      ∃ t, contract operands [y.base.numel, x₁.base.numel, x₂.base.numel] kernel = .ok t ∧
        t.View batch middle [y.base.numel, x₁.base.numel, x₂.base.numel] g) :
    (contract operands [y.base.numel, x₁.base.numel, x₂.base.numel] kernel >>=
        ofSecondProduct y x₁ x₂) = .ok r ↔
      ∃ batch middle, Join operands batch middle ∧ HasCells y x₁ x₂ batch middle g r := by
  rw [Update.except_bind_eq_ok]
  constructor
  · rintro ⟨t, ht, hr⟩
    obtain ⟨batch, middle, hjoin, -⟩ := contract_eq_ok.1 ht
    obtain ⟨t', ht', v⟩ := hview hjoin
    rw [ht] at ht'
    cases ht'
    exact ⟨batch, middle, hjoin, (ofSecondProduct_eq_ok hy h₁ h₂ v).1 hr⟩
  · rintro ⟨batch, middle, hjoin, hr⟩
    obtain ⟨t, ht, v⟩ := hview hjoin
    exact ⟨t, ht, (ofSecondProduct_eq_ok hy h₁ h₂ v).2 hr⟩

end Products

/-! ## Composition -/

section Composition

variable {α : Type} [CommRing α] [BEq α] [Scalar α] {outer : Derivative α 2}
  {inner inner' : Derivative α 1} {a b c : Tensor α} {r : Derivative α 2}

omit [BEq α] in
theorem alignArgument_of_eq {q : Quantity} (h : q.intrinsic = inner.target.intrinsic) :
    outer.alignArgument q inner = .ok (outer, inner) := by
  unfold alignArgument
  dsimp only
  rw [h, if_neg (Nat.lt_irrefl _), if_neg (Nat.lt_irrefl _)]
  rfl

theorem composeSecond_both (h₁ : outer.firstArgument.intrinsic = inner.target.intrinsic)
    (h₂ : outer.secondArgument.intrinsic = inner'.target.intrinsic) :
    outer.composeSecond (some inner) (some inner') = (do
      outer.checkShared outer.firstArgument inner
      outer.checkShared outer.secondArgument inner'
      let a ← (← outer.tensor).reshapeBase [outer.target.base.numel,
        outer.firstArgument.base.numel, outer.secondArgument.base.numel]
      let b ← (← inner.tensor).reshapeBase
        [outer.firstArgument.base.numel, inner.argument.base.numel]
      let c ← (← inner'.tensor).reshapeBase
        [outer.secondArgument.base.numel, inner'.argument.base.numel]
      contractBoth a b c outer.target.base.numel outer.firstArgument.base.numel
        outer.secondArgument.base.numel inner.argument.base.numel inner'.argument.base.numel >>=
          ofSecondProduct outer.target inner.argument inner'.argument) := by
  unfold composeSecond
  simp only [alignArgument_of_eq h₁, alignArgument_of_eq h₂, bind, Except.bind, Functor.map,
    Except.map, Option.isNone_some]
  rfl

theorem composeSecond_first (h : outer.firstArgument.intrinsic = inner.target.intrinsic) :
    outer.composeSecond (some inner) none = (do
      outer.checkShared outer.firstArgument inner
      let a ← (← outer.tensor).reshapeBase [outer.target.base.numel,
        outer.firstArgument.base.numel, outer.secondArgument.base.numel]
      let b ← (← inner.tensor).reshapeBase
        [outer.firstArgument.base.numel, inner.argument.base.numel]
      contractFirst a b outer.target.base.numel outer.firstArgument.base.numel
        outer.secondArgument.base.numel inner.argument.base.numel >>=
          ofSecondProduct outer.target inner.argument outer.secondArgument) := by
  unfold composeSecond
  simp only [alignArgument_of_eq h, bind, Except.bind, Functor.map, Except.map,
    Option.isNone_some, Option.isNone_none, pure, Except.pure]
  rfl

theorem composeSecond_second (h : outer.secondArgument.intrinsic = inner'.target.intrinsic) :
    outer.composeSecond none (some inner') = (do
      outer.checkShared outer.secondArgument inner'
      let a ← (← outer.tensor).reshapeBase [outer.target.base.numel,
        outer.firstArgument.base.numel, outer.secondArgument.base.numel]
      let c ← (← inner'.tensor).reshapeBase
        [outer.secondArgument.base.numel, inner'.argument.base.numel]
      contractSecond a c outer.target.base.numel outer.firstArgument.base.numel
        outer.secondArgument.base.numel inner'.argument.base.numel >>=
          ofSecondProduct outer.target outer.firstArgument inner'.argument) := by
  unfold composeSecond
  simp only [alignArgument_of_eq h, bind, Except.bind, Functor.map, Except.map,
    Option.isNone_some, Option.isNone_none, pure, Except.pure]
  rfl

/-! ## Results -/

variable [LawfulBEq α] (hfin : ∀ x : α, Scalar.isFinite x = true)

include hfin in
theorem composeSecond_both_eq_ok (ha : outer.Plain a) (hb : inner.Plain b)
    (hc : inner'.Plain c) :
    outer.composeSecond (some inner) (some inner') = .ok r ↔
      (outer.firstArgument.base = inner.target.base ∧
        outer.secondArgument.base = inner'.target.base) ∧
      ∃ batch middle, Join [a, b, c] batch middle ∧
        HasCells outer.target inner.argument inner'.argument batch middle
          (bothCell a b c outer.firstArgument.base.numel outer.secondArgument.base.numel
            inner.argument.base.numel inner'.argument.base.numel) r := by
  have h₁ := ha.firstArgument_intrinsic.trans hb.target_intrinsic.symm
  have h₂ := ha.secondArgument_intrinsic.trans hc.target_intrinsic.symm
  rw [composeSecond_both h₁ h₂, checkShared_bind_eq_ok, checkShared_bind_eq_ok, ← and_assoc]
  refine and_congr_right fun ⟨hbase₁, hbase₂⟩ => ?_
  obtain ⟨a', ha', hab, ham, habase, hacell⟩ :=
    ha.reshape (numel_base_three outer)
  obtain ⟨b', hb', hbb, hbm, hbbase, hbcell⟩ := hb.reshape (numel_base_two inner)
  obtain ⟨c', hc', hcb, hcm, hcbase, hccell⟩ := hc.reshape (numel_base_two inner')
  rw [hbase₁, hbase₂] at ha' habase ⊢
  simp only [tensor_eq_ok hfin ha.value_eq, tensor_eq_ok hfin hb.value_eq,
    tensor_eq_ok hfin hc.value_eq, bind, Except.bind, ha', hb', hc']
  refine (product_eq_ok ha.target_intrinsic hb.argument_intrinsic hc.argument_intrinsic
    fun hjoin => contractBoth_view habase hbbase hcbase hjoin).trans ?_
  have hjoin : ∀ {batch middle}, Join [a', b', c'] batch middle ↔ Join [a, b, c] batch middle :=
    join_congr (by simp [hab, hbb, hcb]) (by simp [ham, hbm, hcm])
  have hcells : bothCell a' b' c' = bothCell a b c := by
    unfold bothCell
    rw [hacell, hbcell, hccell]
  simp only [hjoin, hcells]

include hfin in
omit [LawfulBEq α] in
theorem composeSecond_first_eq_ok (ha : outer.Plain a) (hb : inner.Plain b) :
    outer.composeSecond (some inner) none = .ok r ↔
      outer.firstArgument.base = inner.target.base ∧ ∃ batch middle, Join [a, b] batch middle ∧
        HasCells outer.target inner.argument outer.secondArgument batch middle
          (firstCell a b outer.firstArgument.base.numel outer.secondArgument.base.numel
            inner.argument.base.numel) r := by
  have h₁ := ha.firstArgument_intrinsic.trans hb.target_intrinsic.symm
  rw [composeSecond_first h₁, checkShared_bind_eq_ok]
  refine and_congr_right fun hbase₁ => ?_
  obtain ⟨a', ha', hab, ham, habase, hacell⟩ := ha.reshape (numel_base_three outer)
  obtain ⟨b', hb', hbb, hbm, hbbase, hbcell⟩ := hb.reshape (numel_base_two inner)
  rw [hbase₁] at ha' habase ⊢
  simp only [tensor_eq_ok hfin ha.value_eq, tensor_eq_ok hfin hb.value_eq, bind, Except.bind,
    ha', hb']
  refine (product_eq_ok ha.target_intrinsic hb.argument_intrinsic ha.secondArgument_intrinsic
    fun hjoin => contractFirst_view habase hbbase hjoin).trans ?_
  have hjoin : ∀ {batch middle}, Join [a', b'] batch middle ↔ Join [a, b] batch middle :=
    join_congr (by simp [hab, hbb]) (by simp [ham, hbm])
  have hcells : firstCell a' b' = firstCell a b := by
    unfold firstCell
    rw [hacell, hbcell]
  simp only [hjoin, hcells]

include hfin in
omit [LawfulBEq α] in
theorem composeSecond_second_eq_ok (ha : outer.Plain a) (hc : inner'.Plain c) :
    outer.composeSecond none (some inner') = .ok r ↔
      outer.secondArgument.base = inner'.target.base ∧ ∃ batch middle, Join [a, c] batch middle ∧
        HasCells outer.target outer.firstArgument inner'.argument batch middle
          (secondCell a c outer.firstArgument.base.numel outer.secondArgument.base.numel
            inner'.argument.base.numel) r := by
  have h₂ := ha.secondArgument_intrinsic.trans hc.target_intrinsic.symm
  rw [composeSecond_second h₂, checkShared_bind_eq_ok]
  refine and_congr_right fun hbase₂ => ?_
  obtain ⟨a', ha', hab, ham, habase, hacell⟩ := ha.reshape (numel_base_three outer)
  obtain ⟨c', hc', hcb, hcm, hcbase, hccell⟩ := hc.reshape (numel_base_two inner')
  rw [hbase₂] at ha' habase ⊢
  simp only [tensor_eq_ok hfin ha.value_eq, tensor_eq_ok hfin hc.value_eq, bind, Except.bind,
    ha', hc']
  refine (product_eq_ok ha.target_intrinsic ha.firstArgument_intrinsic hc.argument_intrinsic
    fun hjoin => contractSecond_view habase hcbase hjoin).trans ?_
  have hjoin : ∀ {batch middle}, Join [a', c'] batch middle ↔ Join [a, c] batch middle :=
    join_congr (by simp [hab, hcb]) (by simp [ham, hcm])
  have hcells : secondCell a' c' = secondCell a c := by
    unfold secondCell
    rw [hacell, hccell]
  simp only [hjoin, hcells]

/-! ## One argument after the other -/

omit [CommRing α] [BEq α] [Scalar α] [LawfulBEq α] in
theorem plain_of_base {y x₁ x₂ : Quantity} (hy : y.intrinsic = 0) (h₁ : x₁.intrinsic = 0)
    (h₂ : x₂.intrinsic = 0) (hbase : a.base = y.base ++ x₁.base ++ x₂.base) :
    (⟨0, y, #v[x₁, x₂], some a⟩ : Derivative α 2).Plain a := by
  refine ⟨rfl, ?_, by simp [hy, h₁, h₂]⟩
  rw [hbase, base_eq_three]
  rfl

omit [BEq α] [Scalar α] [LawfulBEq α] in
/-- What is stored for some operands, and then for that and the others, is stored for all of
them where it has the same cells. -/
theorem bind_view_eq_ok {β : Type} {first : Except TensorError β}
    {next : β → Except TensorError (Derivative α 2)} {make : Tensor α → β} {p q : Prop}
    {operands others : List (Tensor α)} {base : Shape} {y x₁ x₂ : Quantity}
    {g g' : Index → Index → Nat → α} {f : Tensor α → Index → Index → Nat → α}
    (hfirst : ∀ {e}, first = .ok e ↔ p ∧ ∃ batch middle, Join operands batch middle ∧
      ∃ t, e = make t ∧ t.View batch middle base g)
    (hnext : ∀ {t : Tensor α}, t.base = base → (next (make t) = .ok r ↔ q ∧ ∃ batch middle,
      Join (t :: others) batch middle ∧ HasCells y x₁ x₂ batch middle (f t) r))
    (hcells : ∀ {t batch' middle' batch middle}, Join operands batch' middle' →
      t.View batch' middle' base g → Join (t :: others) batch middle →
      ∀ l w x, Shape.InBounds batch l → Shape.InBounds middle w →
        x < (y.base ++ x₁.base ++ x₂.base).numel → f t l w x = g' l w x) :
    (first >>= next) = .ok r ↔ (p ∧ q) ∧ ∃ batch middle,
      Join (operands ++ others) batch middle ∧ HasCells y x₁ x₂ batch middle g' r := by
  rw [Update.except_bind_eq_ok]
  constructor
  · rintro ⟨e, he, hr⟩
    obtain ⟨hp, batch', middle', hop, t, rfl, v⟩ := hfirst.1 he
    obtain ⟨hq, batch, middle, ht, hcell⟩ := (hnext v.base_eq).1 hr
    have hstand := v.batch_eq.symm ▸ v.middle_eq.symm ▸ hop
    exact ⟨⟨hp, hq⟩, batch, middle, hstand.append_iff.2 ht, hcell.congr (hcells hop v ht _ _ _)⟩
  · rintro ⟨⟨hp, hq⟩, batch, middle, hall, hcell⟩
    obtain ⟨batch', middle', hop⟩ := hall.of_append
    obtain ⟨t, v⟩ := exists_view batch' middle' base g
    have he := hfirst.2 ⟨hp, batch', middle', hop, t, rfl, v⟩
    have hstand := v.batch_eq.symm ▸ v.middle_eq.symm ▸ hop
    have ht := hstand.append_iff.1 hall
    refine ⟨_, he, (hnext v.base_eq).2 ⟨hq, batch, middle, ht, hcell.congr fun hl hw hx => ?_⟩⟩
    exact (hcells hop v ht _ _ _ hl hw hx).symm

omit [BEq α] [Scalar α] [LawfulBEq α] in
theorem steps_eq_ok {first : Except TensorError (Derivative α 2)}
    {next : Derivative α 2 → Except TensorError (Derivative α 2)} {p q : Prop}
    {operands others : List (Tensor α)} {y u₁ u₂ x₁ x₂ : Quantity}
    {g g' : Index → Index → Nat → α} {f : Tensor α → Index → Index → Nat → α}
    (hfirst : ∀ {e}, first = .ok e ↔ p ∧ ∃ batch middle, Join operands batch middle ∧
      HasCells y u₁ u₂ batch middle g e)
    (hnext : ∀ {t : Tensor α}, t.base = y.base ++ u₁.base ++ u₂.base →
      (next ⟨0, y, #v[u₁, u₂], some t⟩ = .ok r ↔ q ∧ ∃ batch middle,
        Join (t :: others) batch middle ∧ HasCells y x₁ x₂ batch middle (f t) r))
    (hcells : ∀ {t batch' middle' batch middle}, Join operands batch' middle' →
      t.View batch' middle' (y.base ++ u₁.base ++ u₂.base) g → Join (t :: others) batch middle →
      ∀ l w x, Shape.InBounds batch l → Shape.InBounds middle w →
        x < (y.base ++ x₁.base ++ x₂.base).numel → f t l w x = g' l w x) :
    (first >>= next) = .ok r ↔ (p ∧ q) ∧ ∃ batch middle,
      Join (operands ++ others) batch middle ∧ HasCells y x₁ x₂ batch middle g' r :=
  bind_view_eq_ok (hfirst.trans (by simp only [hasCells_iff])) hnext hcells

include hfin in
theorem composeSecond_first_second (ha : outer.Plain a) (hb : inner.Plain b)
    (hc : inner'.Plain c) :
    (outer.composeSecond (some inner) none >>= fun e => e.composeSecond none (some inner')) =
        .ok r ↔ outer.composeSecond (some inner) (some inner') = .ok r := by
  rw [composeSecond_both_eq_ok hfin ha hb hc]
  refine steps_eq_ok (f := fun t => secondCell t c inner.argument.base.numel
    outer.secondArgument.base.numel inner'.argument.base.numel)
    (composeSecond_first_eq_ok hfin ha hb) (fun hbase => ?_) fun hop v ht _ _ _ hl hw hx => ?_
  · exact composeSecond_second_eq_ok hfin (plain_of_base ha.target_intrinsic
      hb.argument_intrinsic ha.secondArgument_intrinsic hbase) hc
  · rw [numel_three] at hx
    exact secondCell_of_first hop v (numel_three ..) ht hl hw hx

include hfin in
theorem composeSecond_second_first (ha : outer.Plain a) (hb : inner.Plain b)
    (hc : inner'.Plain c) :
    (outer.composeSecond none (some inner') >>= fun e => e.composeSecond (some inner) none) =
        .ok r ↔ outer.composeSecond (some inner) (some inner') = .ok r := by
  have hperm : [a, b, c].Perm ([a, c] ++ [b]) := .cons _ (.swap _ _ _)
  rw [composeSecond_both_eq_ok hfin ha hb hc, and_comm (a := outer.firstArgument.base = _)]
  simp only [join_perm hperm]
  refine steps_eq_ok (f := fun t => firstCell t b outer.firstArgument.base.numel
    inner'.argument.base.numel inner.argument.base.numel)
    (composeSecond_second_eq_ok hfin ha hc) (fun hbase => ?_) fun hop v ht _ _ _ hl hw hx => ?_
  · exact composeSecond_first_eq_ok hfin (plain_of_base ha.target_intrinsic
      ha.firstArgument_intrinsic hc.argument_intrinsic hbase) hb
  · rw [numel_three] at hx
    exact firstCell_of_second hop v (numel_three ..) ht hl hw hx

/-! ## Entries -/

omit [BEq α] [Scalar α] [LawfulBEq α] in
theorem bothCell_eq_sumOver (ha : outer.Plain a) (hb : inner.Plain b)
    (hc : inner'.Plain c) (h₁ : outer.firstArgument.base = inner.target.base)
    (h₂ : outer.secondArgument.base = inner'.target.base) {batch middle : Shape}
    (h : Join [a, b, c] batch middle) {l w i j k : Index} (hl : Shape.InBounds batch l)
    (hw : Shape.InBounds middle w) (hi : Shape.InBounds outer.target.base i)
    (hj : Shape.InBounds inner.argument.base j) (hk : Shape.InBounds inner'.argument.base k) :
    bothCell a b c outer.firstArgument.base.numel outer.secondArgument.base.numel
        inner.argument.base.numel inner'.argument.base.numel l w
        ((outer.target.base ++ inner.argument.base ++ inner'.argument.base).offset (i ++ j ++ k)) =
      sumOver outer.firstArgument.base fun p => sumOver outer.secondArgument.base fun q =>
        a.entry (a.batch.project l ++ a.middle.project w ++ (i ++ p ++ q)) *
            b.entry (b.batch.project l ++ b.middle.project w ++ (p ++ j)) *
          c.entry (c.batch.project l ++ c.middle.project w ++ (q ++ k)) := by
  have hij : (i ++ j).length = (outer.target.base ++ inner.argument.base).length :=
    (Shape.inBounds_append hi hj).length_eq
  rw [Shape.offset_append hij, Shape.offset_append hi.length_eq,
    bothCell_place a b c _ _ (Shape.offset_lt hj) (Shape.offset_lt hk)]
  refine (sum_range_numel outer.firstArgument.base _).trans (sumOver_congr fun p hp => ?_)
  refine (sum_range_numel outer.secondArgument.base _).trans (sumOver_congr fun q hq => ?_)
  rw [h.entry_eq (t := a) (by simp) hl hw, h.entry_eq (t := b) (by simp) hl hw,
    h.entry_eq (t := c) (by simp) hl hw, ha.base_eq, hb.base_eq, hc.base_eq, base_eq_three,
    base_eq, base_eq, Shape.offset_append (Shape.inBounds_append hi hp).length_eq,
    Shape.offset_append hi.length_eq, Shape.offset_append (h₁ ▸ hp.length_eq),
    Shape.offset_append (h₂ ▸ hq.length_eq), h₁, h₂, mul_assoc]

include hfin in
/-- Contracting both arguments of a second derivative is contracting one after the other. For
derivatives without intrinsic dimensions it has a result exactly where the bases of both
shared quantities agree and the batches and the intermediate shapes of all three values
broadcast. The entries are then the sums, over the base indices of both shared quantities, of
the products of the three entries, and the two steps in either order have the same result,
exactly where there is one. -/
theorem composeSecond_slots (ha : outer.Plain a) (hb : inner.Plain b)
    (hc : inner'.Plain c) :
    ((∃ r, outer.composeSecond (some inner) (some inner') = .ok r) ↔
        (outer.firstArgument.base = inner.target.base ∧
          outer.secondArgument.base = inner'.target.base) ∧
        (∃ batch, Shape.broadcastAll [a.batch, b.batch, c.batch] = .ok batch) ∧
        ∃ middle, Shape.broadcastAll [a.middle, b.middle, c.middle] = .ok middle) ∧
      (∀ r, outer.composeSecond (some inner) (some inner') = .ok r →
        ∃ batch middle t, Shape.broadcastAll [a.batch, b.batch, c.batch] = .ok batch ∧
          Shape.broadcastAll [a.middle, b.middle, c.middle] = .ok middle ∧
          r = ⟨0, outer.target, #v[inner.argument, inner'.argument], some t⟩ ∧
          t.batch = batch ∧ t.middle = middle ∧
          t.base = outer.target.base ++ inner.argument.base ++ inner'.argument.base ∧
          ∀ {l w i j k}, Shape.InBounds batch l → Shape.InBounds middle w →
            Shape.InBounds outer.target.base i → Shape.InBounds inner.argument.base j →
            Shape.InBounds inner'.argument.base k →
            t.entry (l ++ w ++ (i ++ j ++ k)) =
              sumOver outer.firstArgument.base fun p => sumOver outer.secondArgument.base fun q =>
                a.entry (a.batch.project l ++ a.middle.project w ++ (i ++ p ++ q)) *
                    b.entry (b.batch.project l ++ b.middle.project w ++ (p ++ j)) *
                  c.entry (c.batch.project l ++ c.middle.project w ++ (q ++ k))) ∧
      ∀ r, ((outer.composeSecond (some inner) none >>= fun e =>
          e.composeSecond none (some inner')) = .ok r ↔
            outer.composeSecond (some inner) (some inner') = .ok r) ∧
        ((outer.composeSecond none (some inner') >>= fun e =>
          e.composeSecond (some inner) none) = .ok r ↔
            outer.composeSecond (some inner) (some inner') = .ok r) := by
  refine ⟨?_, fun r hr => ?_, fun r => ⟨composeSecond_first_second hfin ha hb hc,
    composeSecond_second_first hfin ha hb hc⟩⟩
  · constructor
    · rintro ⟨r, hr⟩
      obtain ⟨hbases, batch, middle, hjoin, -⟩ := (composeSecond_both_eq_ok hfin ha hb hc).1 hr
      exact ⟨hbases, ⟨batch, hjoin.batch⟩, middle, hjoin.middle⟩
    · rintro ⟨hbases, ⟨batch, hbatch⟩, middle, hmiddle⟩
      obtain ⟨r, hr⟩ := exists_hasCells outer.target inner.argument inner'.argument batch middle
        (bothCell a b c outer.firstArgument.base.numel outer.secondArgument.base.numel
          inner.argument.base.numel inner'.argument.base.numel)
      exact ⟨r, (composeSecond_both_eq_ok hfin ha hb hc).2
        ⟨hbases, batch, middle, ⟨hbatch, hmiddle⟩, hr⟩⟩
  · obtain ⟨⟨h₁, h₂⟩, batch, middle, hjoin, hcells⟩ :=
      (composeSecond_both_eq_ok hfin ha hb hc).1 hr
    obtain ⟨t, rfl, v⟩ := hasCells_iff.1 hcells
    refine ⟨batch, middle, t, hjoin.batch, hjoin.middle, rfl, v.batch_eq, v.middle_eq, v.base_eq,
      fun {l w i j k} hl hw hi hj hk => ?_⟩
    rw [v.entry_eq hl hw (Shape.inBounds_append (Shape.inBounds_append hi hj) hk)]
    exact bothCell_eq_sumOver ha hb hc h₁ h₂ hjoin hl hw hi hj hk

end Composition

def plainOf {n : Nat} (y : Quantity) (xs : Vector Quantity n) (t : Tensor ℚ) :
    Derivative ℚ n :=
  ((assign t).outcome ⟨0, y, xs, none⟩).2

theorem plain_plainOf {n : Nat} {y : Quantity} {xs : Vector Quantity n}
    {s t : Tensor ℚ} (hq : ∀ q ∈ y :: xs.toList, q.intrinsic = 0)
    (hs : (plainOf y xs t).value = some s) : (plainOf y xs t).Plain s :=
  ((sound_of_declare (declare_plain hq)).assign t).plain hs hq

def batchedSecond : Derivative ℚ 2 :=
  plainOf ⟨"y", [3], 0, [2]⟩ #v[⟨"u", [3], 0, [2]⟩, ⟨"v", [], 0, [1]⟩]
    ⟨[2], [], [2, 2, 1], #[1, 0, 2, 3, 0, 5, 8, 1], rfl⟩

def spreadFirst : Derivative ℚ 1 :=
  plainOf ⟨"u", [3], 0, [2]⟩ #v[⟨"x", [3], 0, []⟩]
    ⟨[], [3], [2], #[1, 2, 3, 4, 5, 6], rfl⟩

def batchedFirst : Derivative ℚ 1 :=
  plainOf ⟨"v", [], 0, [1]⟩ #v[⟨"z", [1], 0, [2]⟩]
    ⟨[2], [1], [1, 2], #[1, 7, 2, 9], rfl⟩

theorem composeSecond_batchedSecond_slots :
    ∃ a b c, batchedSecond.Plain a ∧ spreadFirst.Plain b ∧
      batchedFirst.Plain c ∧ ∃ r t,
        batchedSecond.composeSecond (some spreadFirst) (some batchedFirst) = .ok r ∧
        (batchedSecond.composeSecond (some spreadFirst) none >>= fun e =>
          e.composeSecond none (some batchedFirst)) = .ok r ∧
        (batchedSecond.composeSecond none (some batchedFirst) >>= fun e =>
          e.composeSecond (some spreadFirst) none) = .ok r ∧
        r.value = some t ∧ t.entry [1, 2, 1, 1] = 414 := by
  have ha : batchedSecond.Plain ⟨[2], [], [2, 2, 1], #[1, 0, 2, 3, 0, 5, 8, 1], rfl⟩ :=
    plain_plainOf (by decide) rfl
  have hb : spreadFirst.Plain ⟨[], [3], [2], #[1, 2, 3, 4, 5, 6], rfl⟩ :=
    plain_plainOf (by decide) rfl
  have hc : batchedFirst.Plain ⟨[2], [1], [1, 2], #[1, 7, 2, 9], rfl⟩ :=
    plain_plainOf (by decide) rfl
  obtain ⟨hok, hentry, hsteps⟩ := composeSecond_slots (fun _ => rfl) ha hb hc
  obtain ⟨r, hr⟩ := hok.2 ⟨⟨rfl, rfl⟩, ⟨[2], rfl⟩, [3], rfl⟩
  obtain ⟨batch, middle, t, hbatch, hmiddle, rfl, -, -, -, ht⟩ := hentry r hr
  cases hbatch
  cases hmiddle
  refine ⟨_, _, _, ha, hb, hc, _, t, hr, (hsteps _).1.2 hr, (hsteps _).2.2 hr, rfl, ?_⟩
  have hsum := @ht [1] [2] [1] [] [1] (by decide) (by decide) (by decide) (by decide) (by decide)
  refine hsum.trans ?_
  decide +kernel

end Derivative

end TieredCalculus
