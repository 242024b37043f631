import TieredCalculus.Proofs.Derivative.SecondOrder

/-! # Second derivatives behind a first derivative

A second derivative is carried on by the first derivative of an outer quantity. Base matrices,
the flattened second derivative among them, are multiplied, so that this agrees with composing
first derivatives before and with composing an argument of the second derivative.
-/

namespace TieredCalculus

namespace Tensor

variable {α : Type} [CommRing α] {a b c t : Tensor α} {batch middle : Shape}
  {n₀ n₁ n₂ m m₁ m₂ : Nat}

/-! ## Products with cells -/

/-- Place `x` of the product of a base matrix with `n` columns and of cells in rows of `m`
places. -/
def throughCell (a : Tensor α) (g : Index → Index → Nat → α) (n m : Nat) (l w : Index) (x : Nat) :
    α :=
  ∑ p ∈ Finset.range n, a.cellAt l w (x / m * n + p) * g l w (p * m + x % m)

section Places

variable {g : Index → Index → Nat → α} {l w : Index} {i j k : Nat}

theorem throughCell_place (a : Tensor α) (g : Index → Index → Nat → α) (n : Nat) (hj : j < m) :
    throughCell a g n m l w (i * m + j) =
      ∑ p ∈ Finset.range n, a.cellAt l w (i * n + p) * g l w (p * m + j) := by
  obtain ⟨hdiv, hmod⟩ := Shape.place_div_mod (a := i) hj
  rw [throughCell, hdiv, hmod]

theorem throughCell_place_three (a : Tensor α) (g : Index → Index → Nat → α) (n : Nat)
    (hj : j < m₁) (hk : k < m₂) :
    throughCell a g n (m₁ * m₂) l w ((i * m₁ + j) * m₂ + k) =
      ∑ p ∈ Finset.range n, a.cellAt l w (i * n + p) * g l w ((p * m₁ + j) * m₂ + k) := by
  have hflat : ∀ r, (r * m₁ + j) * m₂ + k = r * (m₁ * m₂) + (j * m₂ + k) := fun r => by ring
  have hlt : j * m₂ + k < m₁ * m₂ := by
    have h := place_lt_three Nat.one_pos hj hk
    simpa using h
  simp only [hflat]
  exact throughCell_place a g n hlt

end Places

theorem matmul_view [BEq α] [LawfulBEq α] (ha : a.base = [n₀, n₁]) (hb : b.base = [n₁, m])
    (h : Join [a, b] batch middle) :
    ∃ r, a.matmul b = .ok r ∧ r.View batch middle [n₀, m] (throughCell a b.cellAt n₁ m) := by
  have hva := a.view_self
  have hvb := b.view_self
  rw [ha] at hva
  rw [hb] at hvb
  obtain ⟨r, hr, v⟩ := hva.matmul hvb (Shape.broadcastAll_pair a.batch b.batch ▸ h.batch)
    (Shape.broadcastAll_pair a.middle b.middle ▸ h.middle)
  exact ⟨r, hr, v⟩

theorem contractThrough_view [BEq α] [LawfulBEq α] (ha : a.base = [n₀, n₁])
    (hc : c.base = [n₁, m₁, m₂]) (h : Join [a, c] batch middle) :
    ∃ r, (contract [a, c] [n₀, m₁, m₂] fun block e =>
        (List.range n₁).foldl (fun acc p =>
          addScaled acc (block 0 [e.getD 0 0, p]) (block 1 [p, e.getD 1 0, e.getD 2 0])) 0) =
            .ok r ∧
      r.View batch middle [n₀, m₁, m₂] (throughCell a c.cellAt n₁ (m₁ * m₂)) := by
  refine contract_view h fun {l w e} _ _ he => ?_
  match e, he with
  | [i, j, k], he =>
    obtain ⟨hi, hj, hk, -⟩ := he
    have hleft : ∀ p, a.base.offset [i, p] = i * n₁ + p := fun p => by simp [ha]
    have hright : ∀ p, c.base.offset [p, j, k] = (p * m₁ + j) * m₂ + k :=
      fun p => by rw [hc, offset_three]
    rw [foldl_addScaled_eq, zero_add, offset_three, throughCell_place_three a _ n₁ hj hk]
    change ((List.range n₁).map fun p => a.cellAt l w (a.base.offset [i, p]) *
      c.cellAt l w (c.base.offset [p, j, k])).sum = _
    simp only [hleft, hright]
    rfl

/-! ## One product after the other -/

section Steps

variable {base batch' middle' : Shape} {operands others : List (Tensor α)} {l w : Index} {x : Nat}

private theorem exists_place_two (hx : x < n₀ * m) : ∃ i j, i < n₀ ∧ j < m ∧ x = i * m + j := by
  have hm : 0 < m := Nat.pos_of_ne_zero fun h => by
    rw [h, Nat.mul_zero] at hx
    exact Nat.not_lt_zero x hx
  exact ⟨x / m, x % m, (Nat.div_lt_iff_lt_mul hm).2 hx, Nat.mod_lt x hm, (Nat.div_add_mod' x m).symm⟩

private theorem place_lt_two {i j : Nat} (hi : i < n₀) (hj : j < m) : i * m + j < n₀ * m :=
  calc i * m + j < i * m + m := Nat.add_lt_add_left hj _
    _ = (i + 1) * m := by ring
    _ ≤ n₀ * m := Nat.mul_le_mul_right m hi

private theorem sum_mul_assoc (n k : Nat) (u : Nat → α) (f : Nat → Nat → α) (g : Nat → α) :
    ∑ q ∈ Finset.range k, (∑ p ∈ Finset.range n, u p * f p q) * g q =
      ∑ p ∈ Finset.range n, u p * ∑ q ∈ Finset.range k, f p q * g q := by
  simp only [Finset.sum_mul, Finset.mul_sum, mul_assoc]
  exact Finset.sum_comm

theorem throughCell_of_view {g : Index → Index → Nat → α} (hop : Join operands batch' middle')
    (v : t.View batch' middle' base g) (hbase : base.numel = n₁ * m)
    (h : Join (t :: others) batch middle) (hl : Shape.InBounds batch l)
    (hw : Shape.InBounds middle w)
    (hg : (∀ s ∈ operands, s.cellAt (batch'.project l) (middle'.project w) = s.cellAt l w) →
      ∀ k, g (batch'.project l) (middle'.project w) k = g l w k)
    (hx : x < n₀ * m) : throughCell a t.cellAt n₁ m l w x = throughCell a g n₁ m l w x := by
  obtain ⟨i, j, -, hj, rfl⟩ := exists_place_two hx
  obtain ⟨htcell, hcells⟩ := hop.cellAt_eq v h hl hw
  rw [throughCell_place a _ n₁ hj, throughCell_place a _ n₁ hj]
  refine Finset.sum_congr rfl fun p hp => ?_
  rw [htcell _ (hbase ▸ place_lt_two (Finset.mem_range.1 hp) hj), hg hcells]

theorem throughCell_assoc (hop : Join [a, b] batch' middle')
    (v : t.View batch' middle' base (throughCell a b.cellAt n₁ n₂))
    (hbase : base.numel = n₀ * n₂) (h : Join (t :: others) batch middle)
    (hl : Shape.InBounds batch l) (hw : Shape.InBounds middle w) (hx : x < n₀ * m) :
    throughCell t c.cellAt n₂ m l w x =
      throughCell a (throughCell b c.cellAt n₂ m) n₁ m l w x := by
  obtain ⟨i, j, hi, hj, rfl⟩ := exists_place_two hx
  obtain ⟨htcell, hcells⟩ := hop.cellAt_eq v h hl hw
  have hright : ∀ p, throughCell b c.cellAt n₂ m l w (p * m + j) =
      ∑ q ∈ Finset.range n₂, b.cellAt l w (p * n₂ + q) * c.cellAt l w (q * m + j) :=
    fun p => throughCell_place b _ n₂ hj
  rw [throughCell_place t _ n₂ hj, throughCell_place a _ n₁ hj]
  simp only [hright]
  refine (Finset.sum_congr rfl fun q hq => ?_).trans (sum_mul_assoc n₁ n₂ _ _ _)
  have hq' := Finset.mem_range.1 hq
  rw [htcell _ (hbase ▸ place_lt_two hi hq'), throughCell_place a _ n₁ hq', hcells a (by simp),
    hcells b (by simp)]

theorem firstCell_of_through (hop : Join [a, c] batch' middle')
    (v : t.View batch' middle' base (throughCell a c.cellAt n₁ (m₁ * m₂)))
    (hbase : base.numel = Shape.numel [n₀, m₁, m₂]) (h : Join (t :: others) batch middle)
    (hl : Shape.InBounds batch l) (hw : Shape.InBounds middle w)
    (hx : x < Shape.numel [n₀, m, m₂]) :
    firstCell t b m₁ m₂ m l w x =
      throughCell a (firstCell c b m₁ m₂ m) n₁ (m * m₂) l w x := by
  obtain ⟨i, j, k, hi, hj, hk, rfl⟩ := exists_place hx
  obtain ⟨htcell, hcells⟩ := hop.cellAt_eq v h hl hw
  have hright : ∀ p, firstCell c b m₁ m₂ m l w ((p * m + j) * m₂ + k) =
      ∑ q ∈ Finset.range m₁, c.cellAt l w ((p * m₁ + q) * m₂ + k) * b.cellAt l w (q * m + j) :=
    fun p => firstCell_place c b m₁ hj hk
  rw [firstCell_place t b m₁ hj hk, throughCell_place_three a _ n₁ hj hk]
  simp only [hright]
  refine (Finset.sum_congr rfl fun q hq => ?_).trans (sum_mul_assoc n₁ m₁ _ _ _)
  have hq' := Finset.mem_range.1 hq
  rw [htcell _ (hbase ▸ place_lt_three hi hq' hk), throughCell_place_three a _ n₁ hq' hk,
    hcells a (by simp), hcells c (by simp)]

theorem secondCell_of_through (hop : Join [a, c] batch' middle')
    (v : t.View batch' middle' base (throughCell a c.cellAt n₁ (m₁ * m₂)))
    (hbase : base.numel = Shape.numel [n₀, m₁, m₂]) (h : Join (t :: others) batch middle)
    (hl : Shape.InBounds batch l) (hw : Shape.InBounds middle w)
    (hx : x < Shape.numel [n₀, m₁, m]) :
    secondCell t b m₁ m₂ m l w x =
      throughCell a (secondCell c b m₁ m₂ m) n₁ (m₁ * m) l w x := by
  obtain ⟨i, j, k, hi, hj, hk, rfl⟩ := exists_place hx
  obtain ⟨htcell, hcells⟩ := hop.cellAt_eq v h hl hw
  have hright : ∀ p, secondCell c b m₁ m₂ m l w ((p * m₁ + j) * m + k) =
      ∑ q ∈ Finset.range m₂, c.cellAt l w ((p * m₁ + j) * m₂ + q) * b.cellAt l w (q * m + k) :=
    fun p => secondCell_place c b m₂ hj hk
  rw [secondCell_place t b m₂ hj hk, throughCell_place_three a _ n₁ hj hk]
  simp only [hright]
  refine (Finset.sum_congr rfl fun q hq => ?_).trans (sum_mul_assoc n₁ m₂ _ _ _)
  have hq' := Finset.mem_range.1 hq
  rw [htcell _ (hbase ▸ place_lt_three hi hj hq'), throughCell_place_three a _ n₁ hj hq',
    hcells a (by simp), hcells c (by simp)]

end Steps

theorem insertMiddleUnits_zero {α : Type} [Zero α] (t : Tensor α) {q : Nat}
    (h : q ≤ t.middle.length) : t.insertMiddleUnits q 0 = .ok t := by
  have hself := t.view_self
  rw [← List.take_append_drop q t.middle] at hself
  obtain ⟨r, hr, vr⟩ := hself.insertMiddleUnits 0
  have hlen : (t.middle.take q).length = q := by rw [List.length_take, Nat.min_eq_left h]
  rw [hlen, List.replicate_zero, List.nil_append] at vr
  have hsame : r.View t.batch (t.middle.take q ++ t.middle.drop q) t.base t.cell :=
    vr.congr fun {b m k} _ _ _ => by rw [Nat.add_zero, List.take_append_drop]
  rw [← hlen, hr, hsame.unique hself]

end Tensor

namespace Derivative

open Tensor

section Composition

variable {α : Type} [CommRing α] [BEq α] [LawfulBEq α] [Scalar α]
  (hfin : ∀ x : α, Scalar.isFinite x = true) {front outer inner : Derivative α 1}
  {second : Derivative α 2} {s a b c : Tensor α}

/-! ## First derivatives -/

omit [CommRing α] [BEq α] [LawfulBEq α] [Scalar α] in
theorem Plain.isDiagonal_eq (h : outer.Plain a) : outer.isDiagonal = false := by
  rw [Bool.eq_false_iff]
  intro hd
  have hlt := (isDiagonal_iff outer).1 hd
  rw [h.target_intrinsic, h.argument_intrinsic] at hlt
  exact Nat.not_lt_zero _ hlt

include hfin in
omit [LawfulBEq α] in
theorem compose_plain (ha : outer.Plain a) (hb : inner.Plain b) :
    outer.compose inner = (do
      outer.checkShared outer.argument inner
      let left ← a.reshapeBase [outer.target.base.numel, outer.argument.base.numel]
      let right ← b.reshapeBase [outer.argument.base.numel, inner.argument.base.numel]
      left.matmul right >>= outer.ofProduct inner) := by
  have hleft : outer.alignedOuter inner =
      a.reshapeBase [outer.target.base.numel, outer.argument.base.numel] := by
    unfold alignedOuter
    rw [tensor_eq_ok hfin ha.value_eq, hb.isDiagonal_eq, hb.argument_intrinsic]
    simp only [bind, Except.bind]
    cases a.reshapeBase [outer.target.base.numel, outer.argument.base.numel] with
    | error e => rfl
    | ok left => exact insertMiddleUnits_zero left (Nat.le_refl _)
  have hright : outer.alignedInner inner =
      b.reshapeBase [outer.argument.base.numel, inner.argument.base.numel] := by
    unfold alignedInner
    rw [tensor_eq_ok hfin hb.value_eq, ha.isDiagonal_eq, ha.target_intrinsic]
    simp only [bind, Except.bind]
    cases b.reshapeBase [outer.argument.base.numel, inner.argument.base.numel] with
    | error e => rfl
    | ok right => exact insertMiddleUnits_zero right (Nat.sub_le _ _)
  have hsum : ∀ c : Tensor α, outer.sumShared inner c = .ok c := fun c => by
    unfold sumShared
    simp [ha.argument_intrinsic]
  have hcount := ha.argument_intrinsic.trans hb.target_intrinsic.symm
  rw [compose_of_intrinsic_eq hcount]
  unfold composeAligned
  simp only [hleft, hright, hsum]
  rfl

omit [BEq α] [LawfulBEq α] [Scalar α] in
theorem ofProduct_plain_eq_ok {d : Derivative α 1} (ha : outer.Plain a) (hb : inner.Plain b)
    {c : Tensor α} {batch middle : Shape} {g : Index → Index → Nat → α}
    (v : c.View batch middle [outer.target.base.numel, inner.argument.base.numel] g) :
    outer.ofProduct inner c = .ok d ↔
      ∃ t, d = ⟨0, outer.target, #v[inner.argument], some t⟩ ∧
        t.View batch middle (outer.target.base ++ inner.argument.base) g := by
  have hy := ha.target_intrinsic
  have hx := hb.argument_intrinsic
  have hnum : (outer.target.base ++ inner.argument.base).numel =
      Shape.numel [outer.target.base.numel, inner.argument.base.numel] := by
    simp
  obtain ⟨t, ht, vt⟩ := v.reshapeBase hnum
  have hdeclare : declareFirst 0 outer.target inner.argument =
      .ok (⟨0, outer.target, #v[inner.argument], none⟩ : Derivative α 1) :=
    declare_plain (by simp [hy, hx])
  have hdense : (⟨0, outer.target, #v[inner.argument], none⟩ : Derivative α 1).denseShape = [] := by
    simp [denseShape, Quantity.intrinsicShape, hy, hx]
  have hvalue : withValue ⟨0, outer.target, #v[inner.argument], none⟩ t =
      .ok ⟨0, outer.target, #v[inner.argument], some t⟩ := by
    apply withValue_dense (d := ⟨0, outer.target, #v[inner.argument], none⟩)
    · rw [vt.base_eq, Derivative.base_eq]
      rfl
    · rw [hdense, List.append_nil]
    · rw [hdense]
      rfl
  unfold ofProduct
  simp only [ha.isDiagonal_eq, hy, hx, Bool.false_and, Bool.false_eq_true, if_false, Nat.add_zero,
    bind, Except.bind, hdeclare, ht, hvalue, Except.ok.injEq]
  constructor
  · rintro rfl
    exact ⟨t, rfl, vt⟩
  · rintro ⟨t', rfl, vt'⟩
    rw [vt.unique vt']

include hfin in
theorem compose_plain_eq_ok {d : Derivative α 1} (ha : outer.Plain a) (hb : inner.Plain b) :
    outer.compose inner = .ok d ↔
      outer.argument.base = inner.target.base ∧ ∃ batch middle, Join [a, b] batch middle ∧
        ∃ t, d = ⟨0, outer.target, #v[inner.argument], some t⟩ ∧
          t.View batch middle (outer.target.base ++ inner.argument.base)
            (throughCell a b.cellAt outer.argument.base.numel inner.argument.base.numel) := by
  rw [compose_plain hfin ha hb, checkShared_bind_eq_ok]
  refine and_congr_right fun hbase => ?_
  obtain ⟨a', ha', hab, ham, habase, hacell⟩ := ha.reshape (numel_base_two outer)
  obtain ⟨b', hb', hbb, hbm, hbbase, hbcell⟩ := hb.reshape (numel_base_two inner)
  rw [← hbase] at hb' hbbase
  have hjoin : ∀ {batch middle}, Join [a', b'] batch middle ↔ Join [a, b] batch middle :=
    join_congr (by simp [hab, hbb]) (by simp [ham, hbm])
  have hcells : throughCell a' b'.cellAt = throughCell a b.cellAt := by
    unfold throughCell
    rw [hacell, hbcell]
  have hview : ∀ {batch middle}, Join [a, b] batch middle → ∃ r, a'.matmul b' = .ok r ∧
      r.View batch middle [outer.target.base.numel, inner.argument.base.numel]
        (throughCell a b.cellAt outer.argument.base.numel inner.argument.base.numel) :=
    fun h => hcells ▸ matmul_view habase hbbase (hjoin.2 h)
  simp only [ha', hb', Update.except_bind_eq_ok, Except.ok.injEq, exists_eq_left']
  constructor
  · rintro ⟨c, hc, hd⟩
    have h := hjoin.1 (join_of_matmul hc)
    obtain ⟨c', hc', v⟩ := hview h
    rw [hc] at hc'
    cases hc'
    exact ⟨_, _, h, (ofProduct_plain_eq_ok ha hb v).1 hd⟩
  · rintro ⟨batch, middle, h, hd⟩
    obtain ⟨c, hc, v⟩ := hview h
    exact ⟨c, hc, (ofProduct_plain_eq_ok ha hb v).2 hd⟩

/-! ## A second derivative behind a first one -/

include hfin in
theorem composeThrough_eq_ok {r : Derivative α 2} (ha : outer.Plain a) (hc : second.Plain c) :
    outer.composeThrough second = .ok r ↔
      outer.argument.base = second.target.base ∧ ∃ batch middle, Join [a, c] batch middle ∧
        HasCells outer.target second.firstArgument second.secondArgument batch middle
          (throughCell a c.cellAt outer.argument.base.numel
            (second.firstArgument.base.numel * second.secondArgument.base.numel)) r := by
  unfold composeThrough
  rw [checkShared_bind_eq_ok]
  refine and_congr_right fun hbase => ?_
  obtain ⟨a', ha', hab, ham, habase, hacell⟩ := ha.reshape (numel_base_two outer)
  obtain ⟨c', hc', hcb, hcm, hcbase, hccell⟩ := hc.reshape (numel_base_three second)
  rw [← hbase] at hc' hcbase
  simp only [tensor_eq_ok hfin ha.value_eq, tensor_eq_ok hfin hc.value_eq, bind, Except.bind,
    ha', hc']
  refine (product_eq_ok ha.target_intrinsic hc.firstArgument_intrinsic hc.secondArgument_intrinsic
    fun hjoin => contractThrough_view habase hcbase hjoin).trans ?_
  have hjoin : ∀ {batch middle}, Join [a', c'] batch middle ↔ Join [a, c] batch middle :=
    join_congr (by simp [hab, hcb]) (by simp [ham, hcm])
  have hcells : throughCell a' c'.cellAt = throughCell a c.cellAt := by
    unfold throughCell
    rw [hacell, hccell]
  simp only [hjoin, hcells]

omit [CommRing α] [BEq α] [LawfulBEq α] [Scalar α] in
theorem plain_of_base_two {y x : Quantity} (hy : y.intrinsic = 0) (hx : x.intrinsic = 0)
    (hbase : a.base = y.base ++ x.base) : (⟨0, y, #v[x], some a⟩ : Derivative α 1).Plain a := by
  refine ⟨rfl, ?_, by simp [hy, hx]⟩
  rw [hbase, Derivative.base_eq]
  rfl

/-! ## One step after the other -/

include hfin in
/-- What is stored for some operands is carried on to cells of these and of the outer value. -/
theorem bind_composeThrough_eq_ok {first : Except TensorError (Derivative α 2)} {p : Prop}
    {operands : List (Tensor α)} {u x₁ x₂ : Quantity} {g : Index → Index → Nat → α}
    {r : Derivative α 2} (ha : outer.Plain a) (hu : u.intrinsic = 0) (h₁ : x₁.intrinsic = 0)
    (h₂ : x₂.intrinsic = 0)
    (hfirst : ∀ {e}, first = .ok e ↔ p ∧ ∃ batch middle, Join operands batch middle ∧
      HasCells u x₁ x₂ batch middle g e)
    (hg : ∀ {l w l' w'}, (∀ t ∈ operands, t.cellAt l' w' = t.cellAt l w) →
      ∀ k, g l' w' k = g l w k) :
    (first >>= fun e => outer.composeThrough e) = .ok r ↔
      (p ∧ outer.argument.base = u.base) ∧ ∃ batch middle, Join (operands ++ [a]) batch middle ∧
        HasCells outer.target x₁ x₂ batch middle
          (throughCell a g outer.argument.base.numel (x₁.base.numel * x₂.base.numel)) r := by
  by_cases hbase : outer.argument.base = u.base
  · have hview : ∀ {e}, first = .ok e ↔ p ∧ ∃ batch middle, Join operands batch middle ∧
        ∃ t, e = (⟨0, u, #v[x₁, x₂], some t⟩ : Derivative α 2) ∧
          t.View batch middle (u.base ++ x₁.base ++ x₂.base) g :=
      hfirst.trans (by simp only [hasCells_iff])
    refine bind_view_eq_ok (f := fun t => throughCell a t.cellAt outer.argument.base.numel
      (x₁.base.numel * x₂.base.numel)) hview (fun {t} ht => ?_) fun hop v ht _ _ x hl hw hx => ?_
    · refine (composeThrough_eq_ok hfin ha (plain_of_base hu h₁ h₂ ht)).trans ?_
      simp only [join_perm (List.Perm.swap t a [])]
      rfl
    · have hx' : x < outer.target.base.numel * (x₁.base.numel * x₂.base.numel) := by
        simpa [mul_assoc] using hx
      refine throughCell_of_view hop v ?_ ht hl hw hg hx'
      rw [numel_three, hbase]
      simp
  · rw [Update.except_bind_eq_ok]
    constructor
    · rintro ⟨e, he, hr⟩
      obtain ⟨-, batch, middle, -, hcells⟩ := hfirst.1 he
      obtain ⟨t, rfl, v⟩ := hasCells_iff.1 hcells
      exact absurd ((composeThrough_eq_ok hfin ha (plain_of_base hu h₁ h₂ v.base_eq)).1 hr).1 hbase
    · rintro ⟨⟨-, h⟩, -⟩
      exact absurd h hbase

include hfin in
theorem compose_composeThrough {r : Derivative α 2} (hs : front.Plain s) (ha : outer.Plain a)
    (hc : second.Plain c) :
    (front.compose outer >>= fun e => e.composeThrough second) = .ok r ↔
      (outer.composeThrough second >>= fun e => front.composeThrough e) = .ok r := by
  have hperm : ([a, c] ++ [s]).Perm ([s, a] ++ [c]) := List.perm_append_comm
  rw [bind_composeThrough_eq_ok hfin hs ha.target_intrinsic hc.firstArgument_intrinsic
    hc.secondArgument_intrinsic (composeThrough_eq_ok hfin ha hc) fun h k => by
      simp only [throughCell, h a (by simp), h c (by simp)],
    and_comm (a := outer.argument.base = _)]
  simp only [join_perm hperm]
  refine bind_view_eq_ok (f := fun t => throughCell t c.cellAt outer.argument.base.numel
      (second.firstArgument.base.numel * second.secondArgument.base.numel))
    (compose_plain_eq_ok hfin hs ha) (fun hbase => ?_) fun hop v ht _ _ _ hl hw hx => ?_
  · exact composeThrough_eq_ok hfin
      (plain_of_base_two hs.target_intrinsic ha.argument_intrinsic hbase) hc
  · exact throughCell_assoc hop v (Shape.numel_append ..) ht hl hw
      (by simpa [mul_assoc] using hx)

include hfin in
theorem composeSecond_first_through {r : Derivative α 2} (ha : outer.Plain a)
    (hb : inner.Plain b) (hc : second.Plain c) :
    (second.composeSecond (some inner) none >>= fun e => outer.composeThrough e) = .ok r ↔
      (outer.composeThrough second >>= fun e => e.composeSecond (some inner) none) = .ok r := by
  have hperm : ([c, b] ++ [a]).Perm ([a, c] ++ [b]) := List.perm_append_comm
  rw [bind_composeThrough_eq_ok hfin ha hc.target_intrinsic hb.argument_intrinsic
    hc.secondArgument_intrinsic (composeSecond_first_eq_ok hfin hc hb) fun h k => by
      simp only [firstCell, h c (by simp), h b (by simp)],
    and_comm (a := second.firstArgument.base = _)]
  simp only [join_perm hperm]
  refine (steps_eq_ok (f := fun t => firstCell t b second.firstArgument.base.numel
    second.secondArgument.base.numel inner.argument.base.numel)
    (composeThrough_eq_ok hfin ha hc) (fun hbase => ?_) fun hop v ht _ _ _ hl hw hx => ?_).symm
  · exact composeSecond_first_eq_ok hfin (plain_of_base ha.target_intrinsic
      hc.firstArgument_intrinsic hc.secondArgument_intrinsic hbase) hb
  · rw [numel_three] at hx
    exact firstCell_of_through hop v (numel_three ..) ht hl hw hx

include hfin in
theorem composeSecond_second_through {r : Derivative α 2} (ha : outer.Plain a)
    (hb : inner.Plain b) (hc : second.Plain c) :
    (second.composeSecond none (some inner) >>= fun e => outer.composeThrough e) = .ok r ↔
      (outer.composeThrough second >>= fun e => e.composeSecond none (some inner)) = .ok r := by
  have hperm : ([c, b] ++ [a]).Perm ([a, c] ++ [b]) := List.perm_append_comm
  rw [bind_composeThrough_eq_ok hfin ha hc.target_intrinsic hc.firstArgument_intrinsic
    hb.argument_intrinsic (composeSecond_second_eq_ok hfin hc hb) fun h k => by
      simp only [secondCell, h c (by simp), h b (by simp)],
    and_comm (a := second.secondArgument.base = _)]
  simp only [join_perm hperm]
  refine (steps_eq_ok (f := fun t => secondCell t b second.firstArgument.base.numel
    second.secondArgument.base.numel inner.argument.base.numel)
    (composeThrough_eq_ok hfin ha hc) (fun hbase => ?_) fun hop v ht _ _ _ hl hw hx => ?_).symm
  · exact composeSecond_second_eq_ok hfin (plain_of_base ha.target_intrinsic
      hc.firstArgument_intrinsic hc.secondArgument_intrinsic hbase) hb
  · rw [numel_three] at hx
    exact secondCell_of_through hop v (numel_three ..) ht hl hw hx

/-! ## Entries -/

omit [BEq α] [LawfulBEq α] [Scalar α] in
theorem throughCell_eq_sumOver (ha : outer.Plain a) (hc : second.Plain c)
    (hbase : outer.argument.base = second.target.base) {batch middle : Shape}
    (h : Join [a, c] batch middle) {l w i j k : Index} (hl : Shape.InBounds batch l)
    (hw : Shape.InBounds middle w) (hi : Shape.InBounds outer.target.base i)
    (hj : Shape.InBounds second.firstArgument.base j)
    (hk : Shape.InBounds second.secondArgument.base k) :
    throughCell a c.cellAt outer.argument.base.numel
        (second.firstArgument.base.numel * second.secondArgument.base.numel) l w
        ((outer.target.base ++ second.firstArgument.base ++ second.secondArgument.base).offset
          (i ++ j ++ k)) =
      sumOver outer.argument.base fun p =>
        a.entry (a.batch.project l ++ a.middle.project w ++ (i ++ p)) *
          c.entry (c.batch.project l ++ c.middle.project w ++ (p ++ j ++ k)) := by
  have hij := (Shape.inBounds_append hi hj).length_eq
  rw [Shape.offset_append hij, Shape.offset_append hi.length_eq,
    throughCell_place_three a _ _ (Shape.offset_lt hj) (Shape.offset_lt hk)]
  refine (sum_range_numel outer.argument.base _).trans (sumOver_congr fun p hp => ?_)
  have hpj := (Shape.inBounds_append (hbase ▸ hp) hj).length_eq
  rw [h.entry_eq (t := a) (by simp) hl hw, h.entry_eq (t := c) (by simp) hl hw, ha.base_eq,
    hc.base_eq, base_eq_three, base_eq, Shape.offset_append hi.length_eq, Shape.offset_append hpj,
    Shape.offset_append (hbase ▸ hp.length_eq), hbase]

include hfin in
/-- Going through a first derivative is compatible with both other chain rules. For derivatives
without intrinsic dimensions it has a result exactly where the bases of the shared quantity
agree and the batches and the intermediate shapes broadcast, and the entries are then sums over
the base indices of that quantity. A composition of first derivatives is gone through at once or
in two steps, and an argument of the second derivative is composed before or after, with the
same result and exactly where the other way has one. -/
theorem composeThrough_compatible (hs : front.Plain s) (ha : outer.Plain a) (hb : inner.Plain b)
    (hc : second.Plain c) :
    ((∃ r, outer.composeThrough second = .ok r) ↔
        outer.argument.base = second.target.base ∧
        (∃ batch, Shape.broadcastAll [a.batch, c.batch] = .ok batch) ∧
        ∃ middle, Shape.broadcastAll [a.middle, c.middle] = .ok middle) ∧
      (∀ r, outer.composeThrough second = .ok r →
        ∃ batch middle t, Shape.broadcastAll [a.batch, c.batch] = .ok batch ∧
          Shape.broadcastAll [a.middle, c.middle] = .ok middle ∧
          r = ⟨0, outer.target, #v[second.firstArgument, second.secondArgument], some t⟩ ∧
          t.batch = batch ∧ t.middle = middle ∧
          t.base = outer.target.base ++ second.firstArgument.base ++ second.secondArgument.base ∧
          ∀ {l w i j k}, Shape.InBounds batch l → Shape.InBounds middle w →
            Shape.InBounds outer.target.base i → Shape.InBounds second.firstArgument.base j →
            Shape.InBounds second.secondArgument.base k →
            t.entry (l ++ w ++ (i ++ j ++ k)) = sumOver outer.argument.base fun p =>
              a.entry (a.batch.project l ++ a.middle.project w ++ (i ++ p)) *
                c.entry (c.batch.project l ++ c.middle.project w ++ (p ++ j ++ k))) ∧
      ∀ r, ((front.compose outer >>= fun e => e.composeThrough second) = .ok r ↔
          (outer.composeThrough second >>= fun e => front.composeThrough e) = .ok r) ∧
        ((second.composeSecond (some inner) none >>= fun e => outer.composeThrough e) = .ok r ↔
          (outer.composeThrough second >>= fun e => e.composeSecond (some inner) none) = .ok r) ∧
        ((second.composeSecond none (some inner) >>= fun e => outer.composeThrough e) = .ok r ↔
          (outer.composeThrough second >>= fun e => e.composeSecond none (some inner)) = .ok r) := by
  refine ⟨?_, fun r hr => ?_, fun r => ⟨compose_composeThrough hfin hs ha hc,
    composeSecond_first_through hfin ha hb hc, composeSecond_second_through hfin ha hb hc⟩⟩
  · constructor
    · rintro ⟨r, hr⟩
      obtain ⟨hbase, batch, middle, hjoin, -⟩ := (composeThrough_eq_ok hfin ha hc).1 hr
      exact ⟨hbase, ⟨batch, hjoin.batch⟩, middle, hjoin.middle⟩
    · rintro ⟨hbase, ⟨batch, hbatch⟩, middle, hmiddle⟩
      obtain ⟨r, hr⟩ := exists_hasCells outer.target second.firstArgument second.secondArgument
        batch middle (throughCell a c.cellAt outer.argument.base.numel
          (second.firstArgument.base.numel * second.secondArgument.base.numel))
      exact ⟨r, (composeThrough_eq_ok hfin ha hc).2 ⟨hbase, batch, middle, ⟨hbatch, hmiddle⟩, hr⟩⟩
  · obtain ⟨hbase, batch, middle, hjoin, hcells⟩ := (composeThrough_eq_ok hfin ha hc).1 hr
    obtain ⟨t, rfl, v⟩ := hasCells_iff.1 hcells
    refine ⟨batch, middle, t, hjoin.batch, hjoin.middle, rfl, v.batch_eq, v.middle_eq, v.base_eq,
      fun {l w i j k} hl hw hi hj hk => ?_⟩
    rw [v.entry_eq hl hw (Shape.inBounds_append (Shape.inBounds_append hi hj) hk)]
    exact throughCell_eq_sumOver ha hc hbase hjoin hl hw hi hj hk

end Composition

def outerFirst : Derivative ℚ 1 :=
  plainOf ⟨"z", [3], 0, []⟩ #v[⟨"y", [3], 0, [2]⟩] ⟨[], [3], [2], #[1, 2, 0, 1, 3, 1], rfl⟩

def frontFirst : Derivative ℚ 1 :=
  plainOf ⟨"w", [3], 0, [2]⟩ #v[⟨"z", [3], 0, []⟩] ⟨[2], [1], [2], #[2, 3, 4, 1], rfl⟩

theorem outerFirst_compatible :
    ∃ s a b c, frontFirst.Plain s ∧ outerFirst.Plain a ∧ spreadFirst.Plain b ∧
      batchedSecond.Plain c ∧ ∃ r t, outerFirst.composeThrough batchedSecond = .ok r ∧
        r.value = some t ∧ t.entry [1, 2, 1, 0] = 16 ∧
        (∀ d, (frontFirst.compose outerFirst >>= fun e => e.composeThrough batchedSecond) = .ok d ↔
          frontFirst.composeThrough r = .ok d) ∧
        (∀ d, (batchedSecond.composeSecond (some spreadFirst) none >>= fun e =>
          outerFirst.composeThrough e) = .ok d ↔
            r.composeSecond (some spreadFirst) none = .ok d) := by
  have hs : frontFirst.Plain ⟨[2], [1], [2], #[2, 3, 4, 1], rfl⟩ := plain_plainOf (by decide) rfl
  have ha : outerFirst.Plain ⟨[], [3], [2], #[1, 2, 0, 1, 3, 1], rfl⟩ :=
    plain_plainOf (by decide) rfl
  have hb : spreadFirst.Plain ⟨[], [3], [2], #[1, 2, 3, 4, 5, 6], rfl⟩ :=
    plain_plainOf (by decide) rfl
  have hc : batchedSecond.Plain ⟨[2], [], [2, 2, 1], #[1, 0, 2, 3, 0, 5, 8, 1], rfl⟩ :=
    plain_plainOf (by decide) rfl
  obtain ⟨hok, hentry, hsteps⟩ := composeThrough_compatible (fun _ => rfl) hs ha hb hc
  obtain ⟨r, hr⟩ := hok.2 ⟨rfl, ⟨[2], rfl⟩, [3], rfl⟩
  obtain ⟨batch, middle, t, hbatch, hmiddle, rfl, -, -, -, ht⟩ := hentry r hr
  cases hbatch
  cases hmiddle
  simp only [hr] at hsteps
  refine ⟨_, _, _, _, hs, ha, hb, hc, _, t, hr, rfl, ?_, fun d => (hsteps d).1,
    fun d => (hsteps d).2.1⟩
  have hsum := @ht [1] [2] [] [1] [0] (by decide) (by decide) (by decide) (by decide) (by decide)
  refine hsum.trans ?_
  decide +kernel

end Derivative

end TieredCalculus
