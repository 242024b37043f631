import TieredCalculus.Derivative.Compose
import TieredCalculus.Proofs.Derivative.Stored

/-! # The chain rule in dense form

A diagonal block is the dense one with one of its two shapes left out. The four combinations
of dense and diagonal factors are then one: the outer block ends in the intrinsic shape of
the shared quantity, the inner one begins with it, and unit dimensions stand for what the
other factor has beside it.
-/

namespace TieredCalculus.Derivative

open Tensor

variable {α : Type}

theorem checkShared_bind_eq_ok {β : Type} {m n : Nat} {outer : Derivative α m} {q : Quantity}
    {inner : Derivative α n} {x : Except TensorError β} {z : β} :
    (outer.checkShared q inner >>= fun _ => x) = .ok z ↔
      q.base = inner.target.base ∧ x = .ok z := by
  unfold checkShared
  dsimp only
  by_cases h : q.base = inner.target.base
  · rw [if_pos h, and_iff_right h]
    rfl
  · rw [if_neg h]
    exact ⟨fun hx => (nomatch hx), fun hx => absurd hx.1 h⟩

/-! ## Blocks around the shared shape -/

def outerPart (d : Derivative α 1) : Shape :=
  if d.isDiagonal then [] else d.target.intrinsicShape

def innerPart (d : Derivative α 1) : Shape :=
  if d.isDiagonal then [] else d.argument.intrinsicShape

section Blocks

variable {d : Derivative α 1} {t : Tensor α} {tier : Shape}

theorem Stores.block_eq_outer (h : d.Stores t tier) :
    d.block = d.outerPart ++ d.argument.intrinsicShape := by
  unfold block outerPart
  by_cases hd : d.isDiagonal = true
  · rw [if_pos hd, if_pos hd, h.diagonal hd, List.nil_append]
  · rw [if_neg hd, if_neg hd]

theorem block_eq_inner (d : Derivative α 1) :
    d.block = d.target.intrinsicShape ++ d.innerPart := by
  unfold block innerPart
  by_cases hd : d.isDiagonal = true
  · rw [if_pos hd, if_pos hd, List.append_nil]
  · rw [if_neg hd, if_neg hd]

theorem Stores.length_outerPart (h : d.Stores t tier) :
    d.outerPart.length = if d.isDiagonal then 0 else d.target.intrinsic := by
  unfold outerPart
  by_cases hd : d.isDiagonal = true
  · rw [if_pos hd, if_pos hd, List.length_nil]
  · rw [if_neg hd, if_neg hd, h.target_length]

theorem Stores.length_innerPart (h : d.Stores t tier) :
    d.innerPart.length = if d.isDiagonal then 0 else d.argument.intrinsic := by
  unfold innerPart
  by_cases hd : d.isDiagonal = true
  · rw [if_pos hd, if_pos hd, List.length_nil]
  · rw [if_neg hd, if_neg hd, h.argument_length]

end Blocks

theorem joinSizes?_parts (p u q : Shape) :
    Shape.joinSizes? (p ++ u ++ List.replicate q.length 1) (List.replicate p.length 1 ++ (u ++ q)) =
      some (p ++ (u ++ q)) := by
  rw [List.append_assoc, Shape.joinSizes?_append (by simp), Shape.joinSizes?_comm_units,
    Shape.joinSizes?_append rfl, Shape.joinSizes?_of_stretches (.refl u),
    Shape.joinSizes?_of_stretches (Shape.stretches_units q)]
  rfl

/-! ## Aligned factors -/

section Aligned

variable [Scalar α] [CommRing α] {outer inner : Derivative α 1} {s t : Tensor α}
  {outerTier innerTier : Shape}

/-- The outer factor ends in unit dimensions in the place of the inner part. -/
theorem alignedOuter_view (hfin : ∀ x : α, Scalar.isFinite x = true)
    (ho : outer.Stores s outerTier) (hi : inner.Stores t innerTier) :
    ∃ l, outer.alignedOuter inner = .ok l ∧
      l.View s.batch (outerTier ++ outer.block ++ List.replicate inner.innerPart.length 1)
        [outer.target.base.numel, outer.argument.base.numel] fun b m k =>
          s.cell b (m.take (outerTier ++ outer.block).length) k := by
  have hnum : Shape.numel [outer.target.base.numel, outer.argument.base.numel] =
      s.base.numel := by
    simp [ho.base_eq]
  obtain ⟨l, hl, vl⟩ := s.view_self.reshapeBase hnum
  rw [ho.middle_eq] at vl
  unfold alignedOuter
  rw [tensor_eq_ok hfin ho.value_eq, hi.length_innerPart]
  simp only [bind, Except.bind, hl]
  by_cases hd : inner.isDiagonal = true
  · rw [if_pos hd, if_pos hd, List.replicate_zero, List.append_nil]
    refine ⟨l, rfl, vl.congr fun {b m k} _ hm _ => ?_⟩
    rw [← hm.length_eq, List.take_length]
  · rw [if_neg hd, if_neg hd, vl.middle_eq]
    rw [← List.append_nil (outerTier ++ outer.block)] at vl
    obtain ⟨r, hr, vr⟩ := vl.insertMiddleUnits inner.argument.intrinsic
    refine ⟨r, hr, ?_⟩
    rw [List.append_nil] at vr
    refine vr.congr fun {b m k} _ hm _ => ?_
    have hlen := hm.length_eq
    rw [List.length_append, List.length_replicate] at hlen
    rw [List.drop_of_length_le (Nat.le_of_eq hlen), List.append_nil]

theorem alignedInner_view (hfin : ∀ x : α, Scalar.isFinite x = true)
    (hbase : outer.argument.base = inner.target.base)
    (ho : outer.Stores s outerTier) (hi : inner.Stores t innerTier) :
    ∃ r, outer.alignedInner inner = .ok r ∧
      r.View t.batch (innerTier ++ (List.replicate outer.outerPart.length 1 ++ inner.block))
        [outer.argument.base.numel, inner.argument.base.numel] fun b m k =>
          t.cell b
            (m.take innerTier.length ++ m.drop (innerTier.length + outer.outerPart.length)) k := by
  have hnum : Shape.numel [outer.argument.base.numel, inner.argument.base.numel] =
      t.base.numel := by
    simp [hi.base_eq, hbase]
  obtain ⟨l, hl, vl⟩ := t.view_self.reshapeBase hnum
  rw [hi.middle_eq] at vl
  unfold alignedInner
  rw [tensor_eq_ok hfin hi.value_eq, ho.length_outerPart]
  simp only [bind, Except.bind, hl]
  by_cases hd : outer.isDiagonal = true
  · rw [if_pos hd, if_pos hd, List.replicate_zero, List.nil_append, Nat.add_zero]
    refine ⟨l, rfl, vl.congr fun {b m k} _ _ _ => ?_⟩
    rw [List.take_append_drop]
  · rw [if_neg hd, if_neg hd, vl.middle_eq, hi.count, List.length_append, Nat.add_sub_cancel]
    obtain ⟨r, hr, vr⟩ := vl.insertMiddleUnits outer.target.intrinsic
    exact ⟨r, hr, vr⟩

/-! ## The product -/

/-- Place `k` of the product of base matrices, where `u` is the index of the shared quantity. -/
def pairCell (outer inner : Derivative α 1) (s t : Tensor α) (outerTier innerTier : Shape)
    (b e p u q : Index) (k : Nat) : α :=
  ((List.range outer.argument.base.numel).map fun l =>
    s.cell (s.batch.project b) (outerTier.project e ++ (p ++ u))
        (k / inner.argument.base.numel * outer.argument.base.numel + l) *
      t.cell (t.batch.project b) (innerTier.project e ++ (u ++ q))
        (l * inner.argument.base.numel + k % inner.argument.base.numel)).sum

private theorem take_project_outer {tier a p u : Shape} {e i j k : Index} (n : Nat)
    (he : tier.length ≤ e.length) (hp : Shape.InBounds p i) (hu : Shape.InBounds u j)
    (hk : k.length = n) (ha : a = p ++ u) :
    ((tier ++ a ++ List.replicate n 1).project (e ++ (i ++ (j ++ k)))).take (tier ++ a).length =
      tier.project e ++ (i ++ j) := by
  subst ha
  have hij := Shape.inBounds_append hp hu
  have htail : ((i ++ j) ++ k).length = ((p ++ u) ++ List.replicate n 1).length := by
    have := hij.length_eq
    simp only [List.length_append, List.length_replicate] at this ⊢
    omega
  have hlen : (tier.project e ++ (i ++ j)).length = (tier ++ (p ++ u)).length := by
    rw [List.length_append, Shape.length_project he, hij.length_eq, ← List.length_append]
  rw [List.append_assoc tier, ← List.append_assoc i, Shape.project_append htail he,
    Shape.clamp_append hij.length_eq, Shape.clamp_of_inBounds hij,
    ← List.append_assoc (tier.project e)]
  exact List.take_left' hlen

theorem parts_project_inner {tier u q : Shape} {e i j k : Index} (n : Nat)
    (he : tier.length ≤ e.length) (hi : i.length = n) (hu : Shape.InBounds u j)
    (hq : Shape.InBounds q k) :
    ((tier ++ (List.replicate n 1 ++ (u ++ q))).project (e ++ (i ++ (j ++ k)))).take tier.length ++
        ((tier ++ (List.replicate n 1 ++ (u ++ q))).project (e ++ (i ++ (j ++ k)))).drop
          (tier.length + n) =
      tier.project e ++ (j ++ k) := by
  have hjk := Shape.inBounds_append hu hq
  have hunits : i.length = (List.replicate n 1).length := by rw [hi, List.length_replicate]
  have htail : (i ++ (j ++ k)).length = (List.replicate n 1 ++ (u ++ q)).length := by
    have := hjk.length_eq
    simp only [List.length_append, List.length_replicate] at this ⊢
    omega
  have hlen : (tier.project e ++ Shape.clamp (List.replicate n 1) i).length = tier.length + n := by
    rw [List.length_append, Shape.length_project he, Shape.length_clamp hunits,
      List.length_replicate]
  rw [Shape.project_append htail he, Shape.clamp_append hunits, Shape.clamp_of_inBounds hjk,
    List.take_left' (Shape.length_project he), ← List.append_assoc (tier.project e),
    List.drop_left' hlen]

variable [BEq α] {l r : Tensor α}

theorem broadcast_of_product (hfin : ∀ x : α, Scalar.isFinite x = true)
    (hbase : outer.argument.base = inner.target.base)
    (hshape : outer.argument.intrinsicShape = inner.target.intrinsicShape)
    (ho : outer.Stores s outerTier) (hi : inner.Stores t innerTier)
    (hl : outer.alignedOuter inner = .ok l) (hr : outer.alignedInner inner = .ok r)
    {c : Tensor α} (hc : l.matmul r = .ok c) :
    ∃ batch tier, Shape.broadcast s.batch t.batch = .ok batch ∧
      Shape.broadcast outerTier innerTier = .ok tier := by
  obtain ⟨l', hl', vl⟩ := alignedOuter_view hfin ho hi
  obtain ⟨r', hr', vr⟩ := alignedInner_view hfin hbase ho hi
  rw [hl] at hl'
  rw [hr] at hr'
  cases hl'
  cases hr'
  obtain ⟨batch, middle, hb, hm⟩ := vl.matmul_isOk vr hc
  rw [ho.block_eq_outer, block_eq_inner, ← hshape, List.append_assoc outerTier] at hm
  obtain ⟨tier, htier, -⟩ := (Shape.broadcast_append (by simp)
    (joinSizes?_parts _ _ _)).1 hm
  exact ⟨batch, tier, hb, htier⟩

variable [LawfulBEq α]

/-- Where batches and extrinsic tiers broadcast, the product has the blocks of both factors
around the shared shape. -/
theorem product_cell (hfin : ∀ x : α, Scalar.isFinite x = true)
    (hbase : outer.argument.base = inner.target.base)
    (hshape : outer.argument.intrinsicShape = inner.target.intrinsicShape)
    (ho : outer.Stores s outerTier) (hi : inner.Stores t innerTier)
    (hl : outer.alignedOuter inner = .ok l) (hr : outer.alignedInner inner = .ok r)
    {batch tier : Shape} (hb : Shape.broadcast s.batch t.batch = .ok batch)
    (htier : Shape.broadcast outerTier innerTier = .ok tier) :
    ∃ c, l.matmul r = .ok c ∧ c.batch = batch ∧
      c.middle = tier ++ (outer.outerPart ++ (outer.argument.intrinsicShape ++ inner.innerPart)) ∧
      c.base = [outer.target.base.numel, inner.argument.base.numel] ∧
      ∀ {b e p u q k}, Shape.InBounds batch b → Shape.InBounds tier e →
        Shape.InBounds outer.outerPart p → Shape.InBounds outer.argument.intrinsicShape u →
        Shape.InBounds inner.innerPart q →
        k < Shape.numel [outer.target.base.numel, inner.argument.base.numel] →
        c.cell b (e ++ (p ++ (u ++ q))) k =
          pairCell outer inner s t outerTier innerTier b e p u q k := by
  obtain ⟨l', hl', vl⟩ := alignedOuter_view hfin ho hi
  obtain ⟨r', hr', vr⟩ := alignedInner_view hfin hbase ho hi
  rw [hl] at hl'
  rw [hr] at hr'
  cases hl'
  cases hr'
  have hblock : inner.block = outer.argument.intrinsicShape ++ inner.innerPart := by
    rw [block_eq_inner, hshape]
  rw [hblock] at vr
  have hm : Shape.broadcast (outerTier ++ outer.block ++ List.replicate inner.innerPart.length 1)
      (innerTier ++ (List.replicate outer.outerPart.length 1 ++
        (outer.argument.intrinsicShape ++ inner.innerPart))) =
      .ok (tier ++ (outer.outerPart ++ (outer.argument.intrinsicShape ++ inner.innerPart))) := by
    rw [ho.block_eq_outer, List.append_assoc outerTier]
    exact (Shape.broadcast_append (by simp) (joinSizes?_parts _ _ _)).2
      ⟨tier, htier, rfl⟩
  obtain ⟨c, hc, hcb, hcm, hcbase, hcell⟩ := vl.matmul vr hb hm
  refine ⟨c, hc, hcb, hcm, hcbase, fun {b e p u q k} hib hie hip hiu hiq hk => ?_⟩
  have hin := Shape.inBounds_append hie
    (Shape.inBounds_append hip (Shape.inBounds_append hiu hiq))
  have hle : outerTier.length ≤ e.length := by
    rw [hie.length_eq]
    exact Shape.expandsTo_length (Shape.broadcast_expandsTo htier).1
  have hle' : innerTier.length ≤ e.length := by
    rw [hie.length_eq]
    exact Shape.expandsTo_length (Shape.broadcast_expandsTo htier).2.1
  rw [hcell hib hin hk, take_project_outer _ hle hip hiu hiq.length_eq ho.block_eq_outer,
    parts_project_inner _ hle' hip.length_eq hiu hiq]
  rfl

end Aligned

end TieredCalculus.Derivative
