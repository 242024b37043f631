import TieredCalculus.Proofs.Assembly.Groups
import TieredCalculus.Proofs.Derivative.Promotion
import TieredCalculus.Proofs.Shape.Bounds

/-! # Chain rule and assembly

A derivative is assembled to a matrix over the intermediate and base indices of its target and
its argument. Where all dimensions are extrinsic that matrix is diagonal in the intermediate
indices, where all are intrinsic it is the dense form. In both cases the chain rule assembles
to the product of matrices.
-/

namespace TieredCalculus.Derivative

open Tensor

variable {α : Type}

/-- The dense form over the intermediate and base shapes of target and argument. -/
def assembled [Zero α] [Scalar α] (d : Derivative α 1) : Except TensorError (Tensor α) := do
  (← d.dense).assemble [d.target.middle, d.argument.middle] [d.target.base, d.argument.base]

/-- All dimensions are extrinsic: target and argument have one intermediate shape, and the
stored one expands to it. -/
structure Extrinsic (d : Derivative α 1) (I : Shape) : Prop where
  target_intrinsic : d.target.intrinsic = 0
  argument_intrinsic : d.argument.intrinsic = 0
  target_middle : d.target.middle = I
  argument_middle : d.argument.middle = I
  expands : (d.middle?.getD []).expandsTo I = true

/-- All dimensions are intrinsic, and nothing is stored beside the block. -/
structure Intrinsic (d : Derivative α 1) : Prop where
  target_intrinsic : d.target.intrinsic = d.target.middle.length
  argument_intrinsic : d.argument.intrinsic = d.argument.middle.length
  form : d.InForm
  extrinsic : d.extrinsicShape = []

theorem intrinsicShape_of_zero {q : Quantity} (h : q.intrinsic = 0) : q.intrinsicShape = [] := by
  unfold Quantity.intrinsicShape
  rw [h, Nat.sub_zero, List.drop_length]

theorem intrinsicShape_of_all {q : Quantity} (h : q.intrinsic = q.middle.length) :
    q.intrinsicShape = q.middle := by
  unfold Quantity.intrinsicShape
  rw [h, Nat.sub_self, List.drop_zero]

/-! ## Assembled forms -/

section Assembled

variable [Zero α] [Scalar α] {d : Derivative α 1} {a : Tensor α}

theorem assembled_intrinsic (ha : d.dense = .ok a)
    (hm : a.middle = d.target.middle ++ d.argument.middle)
    (hb : a.base = d.target.base ++ d.argument.base) :
    ∃ r, d.assembled = .ok r ∧
      r.Assembled a.batch d.target.middle d.target.base d.argument.middle d.argument.base
        fun b p i q j => a.entry (b ++ (p ++ q) ++ (i ++ j)) := by
  have hflat : a.middle = [d.target.middle, d.argument.middle].flatten := by simp [hm]
  obtain ⟨r, hr, hra⟩ := assemble_pair hb (fillGroups_of_flat hflat) rfl hm hb
  refine ⟨r, ?_, hra⟩
  unfold assembled
  rw [ha]
  exact hr

theorem assembled_of_filled {f : Tensor α} {g : Index → Index → Index → Nat → α}
    (ha : d.dense = .ok a) (hb : a.base = d.target.base ++ d.argument.base)
    (hf : a.fillGroups [d.target.middle, d.argument.middle] = .ok f) (hfb : f.batch = a.batch)
    (hfm : f.middle = d.target.middle ++ d.argument.middle) (hfbase : f.base = a.base)
    (hcell : ∀ {b p q k}, Shape.InBounds a.batch b → Shape.InBounds d.target.middle p →
      Shape.InBounds d.argument.middle q → k < a.base.numel → f.cell b (p ++ q) k = g b p q k) :
    ∃ r, d.assembled = .ok r ∧
      r.Assembled a.batch d.target.middle d.target.base d.argument.middle d.argument.base
        fun b p i q j => g b p q (a.base.offset (i ++ j)) := by
  obtain ⟨r, hr, hra⟩ := assemble_pair hb hf hfb hfm (hfbase.trans hb)
  refine ⟨r, ?_, hra.congr fun {b p i q j} hib hp hi hq hj => ?_⟩
  · unfold assembled
    rw [ha]
    exact hr
  · have hpq : (p ++ q).length = f.middle.length := by
      rw [hfm, (Shape.inBounds_append hp hq).length_eq]
    have hk : a.base.offset (i ++ j) < a.base.numel := by
      rw [hb]
      exact Shape.offset_lt (Shape.inBounds_append hi hj)
    rw [entry_eq_cell f (i ++ j) (by rw [hfb, hib.length_eq]) hpq, hfbase, hcell hib hp hq hk]

theorem assembled_extrinsic {I : Shape} (ha : d.dense = .ok a) (hy : d.target.middle = I)
    (hx : d.argument.middle = I) (hm : a.middle.expandsTo I = true)
    (hb : a.base = d.target.base ++ d.argument.base) :
    ∃ r, d.assembled = .ok r ∧
      r.Assembled a.batch I d.target.base I d.argument.base fun b p i q j =>
        if p = q then a.entry (b ++ a.middle.project p ++ (i ++ j)) else 0 := by
  obtain ⟨f, hf, hfb, hfm, hfbase, hcell⟩ := fillGroups_pair hm
  obtain ⟨r, hr, hra⟩ := assembled_of_filled ha hb (by rw [hy, hx]; exact hf) hfb
    (by rw [hy, hx, hfm]) hfbase (by rw [hy, hx]; exact hcell)
  rw [hy, hx] at hra
  refine ⟨r, hr, hra.congr fun {b p i q j} hib hp _ _ _ => ?_⟩
  rw [entry_eq_cell a (i ++ j) hib.length_eq (Shape.project_inBounds hm hp).length_eq]

theorem assembled_unit (ha : d.dense = .ok a) (hb : a.base = d.target.base ++ d.argument.base)
    (hne : a.middle ≠ d.target.middle ++ d.argument.middle)
    (hm : a.middle.expandsTo d.target.middle = true) (hone : d.argument.middle.numel = 1) :
    ∃ r, d.assembled = .ok r ∧
      r.Assembled a.batch d.target.middle d.target.base d.argument.middle d.argument.base
        fun b p i _ j => a.entry (b ++ a.middle.project p ++ (i ++ j)) := by
  obtain ⟨f, hf, vf⟩ := fillGroups_unit hne hm hone
  obtain ⟨r, hr, hra⟩ := assembled_of_filled ha hb hf vf.batch_eq vf.middle_eq vf.base_eq
    fun hib hp hq hk => vf.cell_eq hib (Shape.inBounds_append hp hq) hk
  refine ⟨r, hr, hra.congr fun {b p i q j} hib hp _ _ _ => ?_⟩
  rw [List.take_left' hp.length_eq,
    entry_eq_cell a (i ++ j) hib.length_eq (Shape.project_inBounds hm hp).length_eq]

theorem assembled_cases {r : Tensor α} (ha : d.dense = .ok a) (h : d.assembled = .ok r) :
    a.middle = d.target.middle ++ d.argument.middle ∨
      a.middle.expandsTo d.target.middle = true ∧
        (d.argument.middle.numel = 1 ∨ d.argument.middle = d.target.middle) := by
  unfold assembled at h
  rw [ha] at h
  have hassemble : a.assemble [d.target.middle, d.argument.middle]
      [d.target.base, d.argument.base] = .ok r := h
  obtain ⟨f, hf⟩ := exists_filled hassemble
  exact fillGroups_cases hf

end Assembled

/-! ## Products -/

section Product

variable [Scalar α] [CommRing α] [BEq α] [LawfulBEq α] {outer inner d : Derivative α 1}
  {a c s t : Tensor α} {outerTier innerTier : Shape}

/-- The chain rule composes factors that store their values in the blocks of their forms and
share the quantity between them. -/
theorem composes_of_stores (hfin : ∀ x : α, Scalar.isFinite x = true)
    (ho : outer.Stores s outerTier) (hi : inner.Stores t innerTier)
    (ha : outer.DenseOf s outerTier a) (hc : inner.DenseOf t innerTier c)
    (hu : outer.argument = inner.target) (hd : outer.compose inner = .ok d) :
    outer.Composes a 0 inner c 0 d := by
  have hshape : outer.argument.intrinsicShape = inner.target.intrinsicShape := by rw [hu]
  rw [compose_eq_aligned ho hi hshape] at hd
  have hot := storedTier_eq ho.value_eq ho.middle_eq
  have hit := storedTier_eq hi.value_eq hi.middle_eq
  rw [← hot] at ho ha
  rw [← hit] at hi hc
  exact (follows_of_stores ho ha rfl rfl).composes hfin (follows_of_stores hi hc rfl rfl) hshape hd

omit [BEq α] [LawfulBEq α] in
theorem Extrinsic.exists_dense {I tier : Shape} {t : Tensor α}
    (hfin : ∀ x : α, Scalar.isFinite x = true) (hkeeps : d.Keeps t tier) (h : d.Extrinsic I) :
    ∃ a, d.Stores t d.storedTier ∧ d.DenseOf t d.storedTier a ∧ d.dense = .ok a ∧
      a.middle = d.storedTier ∧ a.middle.expandsTo I = true := by
  have hdiag : ¬d.isDiagonal = true := by
    rw [isDiagonal_iff, h.target_intrinsic, h.argument_intrinsic]
    exact Nat.not_lt_zero _
  have hstores := hkeeps.stores (fun hd => absurd hd hdiag) fun hd => absurd hd hdiag
  rw [← hkeeps.storedTier_eq] at hstores
  obtain ⟨a, ha, hdense⟩ := hstores.dense hfin
  have hm := hdense.middle_eq
  have hexp := h.expands
  have hblock := hstores.middle_eq
  unfold block at hblock
  rw [if_neg hdiag, intrinsicShape_of_zero h.target_intrinsic,
    intrinsicShape_of_zero h.argument_intrinsic, List.append_nil, List.append_nil] at hblock
  rw [intrinsicShape_of_zero h.target_intrinsic, intrinsicShape_of_zero h.argument_intrinsic,
    List.append_nil, List.append_nil] at hm
  unfold middle? at hexp
  rw [hstores.value_eq] at hexp
  change t.middle.expandsTo I = true at hexp
  rw [hblock] at hexp
  exact ⟨a, hstores, hdense, ha, hm, hm ▸ hexp⟩

theorem assembled_mul_extrinsic {I : Shape} (hfin : ∀ x : α, Scalar.isFinite x = true)
    (ho : outer.Keeps s outerTier) (hi : inner.Keeps t innerTier)
    (hu : outer.argument = inner.target) (hoe : outer.Extrinsic I) (hie : inner.Extrinsic I)
    (hd : outer.compose inner = .ok d) :
    ∃ l r m, outer.assembled = .ok l ∧ inner.assembled = .ok r ∧ d.assembled = .ok m ∧
      l.matmul r = .ok m := by
  obtain ⟨a, hos, hoa, ha, ham, haI⟩ := hoe.exists_dense hfin ho
  obtain ⟨c, his, hic, hc, hcm, hcI⟩ := hie.exists_dense hfin hi
  obtain ⟨hy, hx, v, batch, tier, hv, hbatch, htier, hvb, hvm, hvbase, hentry⟩ :=
    composes_of_stores hfin hos his hoa hic hu hd
  have hy' : d.target = outer.target := hy
  have hx' : d.argument = inner.argument := hx
  rw [frontTier_zero, frontTier_zero, ← ham, ← hcm] at htier
  rw [hy', hx', intrinsicShape_of_zero hoe.target_intrinsic,
    intrinsicShape_of_zero hie.argument_intrinsic, List.append_nil, List.append_nil] at hvm
  have hvI : v.middle.expandsTo I = true := hvm ▸ Shape.broadcast_least htier haI hcI
  obtain ⟨l, hl, hla⟩ := assembled_extrinsic ha hoe.target_middle hoe.argument_middle haI
    hoa.base_eq
  obtain ⟨r, hr, hra⟩ := assembled_extrinsic hc hie.target_middle hie.argument_middle hcI
    hic.base_eq
  obtain ⟨m, hm, hma⟩ := assembled_extrinsic hv (by rw [hy', hoe.target_middle])
    (by rw [hx', hie.argument_middle]) hvI (by rw [hvbase, hy', hx'])
  rw [hvb, hy', hx'] at hma
  rw [← hu] at hra
  obtain ⟨m', hm', hma'⟩ := hla.matmul hra hbatch
  refine ⟨l, r, m, hl, hr, hm, ?_⟩
  rw [hm', hma'.unique hma fun {b p i q j} hb hp hii hq hj => ?_]
  have hav : a.middle.expandsTo v.middle = true := hvm ▸ (Shape.broadcast_expandsTo htier).1
  have hcv : c.middle.expandsTo v.middle = true := hvm ▸ (Shape.broadcast_expandsTo htier).2.1
  have hpv : v.middle.length ≤ p.length := hp.length_eq ▸ Shape.expandsTo_length hvI
  rw [sumOver_eq_single hp]
  · by_cases hpq : p = q
    · have hnil : (outer.argument.promote 0).intrinsicShape = [] :=
        intrinsicShape_of_zero hoe.argument_intrinsic
      have hpt : Shape.InBounds tier (v.middle.project p) := hvm ▸ Shape.project_inBounds hvI hp
      have hyn : Shape.InBounds d.target.intrinsicShape [] := by
        rw [hy', intrinsicShape_of_zero hoe.target_intrinsic]
        trivial
      have hxn : Shape.InBounds d.argument.intrinsicShape [] := by
        rw [hx', intrinsicShape_of_zero hie.argument_intrinsic]
        trivial
      have hsum := hentry hb hpt hyn hxn hii hj
      simp only [hnil, sumOver_nil, promotedEntry_zero, ← ham, ← hcm, List.append_nil,
        Shape.project_project hav hpv, Shape.project_project hcv hpv] at hsum
      simp only [hpq, if_true] at hsum ⊢
      exact hsum.symm
    · simp [hpq, sumOver]
  · intro u _ hne
    simp [Ne.symm hne, sumOver]

omit [BEq α] [LawfulBEq α] in
theorem Intrinsic.exists_dense {t : Tensor α} {tier : Shape}
    (hfin : ∀ x : α, Scalar.isFinite x = true) (hkeeps : d.Keeps t tier) (h : d.Intrinsic) :
    ∃ a, d.Stores t d.storedTier ∧ d.DenseOf t d.storedTier a ∧ d.dense = .ok a ∧
      d.storedTier = [] ∧ a.middle = d.target.middle ++ d.argument.middle := by
  have hstores := hkeeps.stores_of_inForm h.form
  have hnil : d.storedTier = [] :=
    hkeeps.storedTier_eq.trans (hstores.extrinsicShape_eq.symm.trans h.extrinsic)
  rw [← hkeeps.storedTier_eq] at hstores
  obtain ⟨a, ha, hdense⟩ := hstores.dense hfin
  refine ⟨a, hstores, hdense, ha, hnil, ?_⟩
  rw [hdense.middle_eq, hnil, intrinsicShape_of_all h.target_intrinsic,
    intrinsicShape_of_all h.argument_intrinsic, List.nil_append]

theorem assembled_mul_intrinsic (hfin : ∀ x : α, Scalar.isFinite x = true)
    (ho : outer.Keeps s outerTier) (hi : inner.Keeps t innerTier)
    (hu : outer.argument = inner.target) (hoe : outer.Intrinsic) (hie : inner.Intrinsic)
    (hd : outer.compose inner = .ok d) :
    ∃ l r m, outer.assembled = .ok l ∧ inner.assembled = .ok r ∧ d.assembled = .ok m ∧
      l.matmul r = .ok m := by
  obtain ⟨a, hos, hoa, ha, hot, ham⟩ := hoe.exists_dense hfin ho
  obtain ⟨c, his, hic, hc, hit, hcm⟩ := hie.exists_dense hfin hi
  obtain ⟨hy, hx, v, batch, tier, hv, hbatch, htier, hvb, hvm, hvbase, hentry⟩ :=
    composes_of_stores hfin hos his hoa hic hu hd
  have hy' : d.target = outer.target := hy
  have hx' : d.argument = inner.argument := hx
  have hyshape := intrinsicShape_of_all hoe.target_intrinsic
  have hxshape := intrinsicShape_of_all hie.argument_intrinsic
  have hushape : (outer.argument.promote 0).intrinsicShape = outer.argument.middle :=
    intrinsicShape_of_all hoe.argument_intrinsic
  rw [frontTier_zero, frontTier_zero, hot, hit] at htier
  cases htier
  rw [List.nil_append, hy', hx', hyshape, hxshape] at hvm
  rw [hy', hx', hyshape, hxshape, hushape] at hentry
  obtain ⟨l, hl, hla⟩ := assembled_intrinsic ha ham hoa.base_eq
  obtain ⟨r, hr, hra⟩ := assembled_intrinsic hc hcm hic.base_eq
  obtain ⟨m, hm, hma⟩ := assembled_intrinsic hv (by rw [hvm, hy', hx'])
    (by rw [hvbase, hy', hx'])
  rw [hvb, hy', hx'] at hma
  rw [← hu] at hra
  obtain ⟨m', hm', hma'⟩ := hla.matmul hra hbatch
  refine ⟨l, r, m, hl, hr, hm, ?_⟩
  rw [hm', hma'.unique hma fun {b p i q j} hb hp hii hq hj => ?_]
  have hsum := hentry hb (e := []) trivial hp hq hii hj
  have hproject : Shape.project [] [] = [] := rfl
  simp only [promotedEntry_zero, hot, hit, List.nil_append, hproject] at hsum
  exact hsum.symm

/-- The chain rule and assembly commute, for factors that are extrinsic over one intermediate
shape and for factors that are intrinsic: when the chain rule has a result, both factors and the
result can be assembled, the result to the product of the matrices of the factors. -/
theorem compose_assembled_eq_matmul (hfin : ∀ x : α, Scalar.isFinite x = true)
    (ho : outer.Reached) (hi : inner.Reached) (hu : outer.argument = inner.target)
    (h : (∃ I, outer.Extrinsic I ∧ inner.Extrinsic I) ∨ outer.Intrinsic ∧ inner.Intrinsic)
    (hd : outer.compose inner = .ok d) :
    ∃ l r m, outer.assembled = .ok l ∧ inner.assembled = .ok r ∧ d.assembled = .ok m ∧
      l.matmul r = .ok m := by
  obtain ⟨s, t, hs, ht⟩ := tensors_of_compose hd
  obtain ⟨outerTier, hok⟩ := ho.exists_keeps hs
  obtain ⟨innerTier, hik⟩ := hi.exists_keeps ht
  obtain ⟨I, hoe, hie⟩ | ⟨hoe, hie⟩ := h
  · exact assembled_mul_extrinsic hfin hok hik hu hoe hie hd
  · exact assembled_mul_intrinsic hfin hok hik hu hoe hie hd

end Product

def sharedExtrinsic : Derivative ℚ 1 :=
  ofAssignment 0 ⟨"y", [2], 0, [1]⟩ ⟨"u", [2], 0, [2]⟩ ⟨[], [], [1, 2], #[1, 2], rfl⟩

def itemExtrinsic : Derivative ℚ 1 :=
  ofAssignment 0 ⟨"u", [2], 0, [2]⟩ ⟨"x", [2], 0, [1]⟩ ⟨[], [2], [2, 1], #[3, 4, 5, 6], rfl⟩

def rowIntrinsic : Derivative ℚ 1 :=
  ofAssignment 1 ⟨"y", [], 0, []⟩ ⟨"u", [2], 1, []⟩ ⟨[], [2], [], #[1, 2], rfl⟩

def diagonalIntrinsic : Derivative ℚ 1 :=
  ofAssignment 1 ⟨"u", [2], 1, []⟩ ⟨"x", [2], 1, []⟩ ⟨[], [2], [], #[3, 4], rfl⟩

theorem items_assembled_eq_matmul :
    (sharedExtrinsic.Extrinsic [2] ∧ itemExtrinsic.Extrinsic [2] ∧
      ∃ d l r m, sharedExtrinsic.compose itemExtrinsic = .ok d ∧
        sharedExtrinsic.assembled = .ok l ∧ itemExtrinsic.assembled = .ok r ∧
        d.assembled = .ok m ∧ l.matmul r = .ok m) ∧
    rowIntrinsic.Intrinsic ∧ diagonalIntrinsic.Intrinsic ∧
      ∃ d l r m, rowIntrinsic.compose diagonalIntrinsic = .ok d ∧
        rowIntrinsic.assembled = .ok l ∧ diagonalIntrinsic.assembled = .ok r ∧
        d.assembled = .ok m ∧ l.matmul r = .ok m := by
  have hshared : sharedExtrinsic.Extrinsic [2] := ⟨rfl, rfl, rfl, rfl, by decide +kernel⟩
  have hitem : itemExtrinsic.Extrinsic [2] := ⟨rfl, rfl, rfl, rfl, by decide +kernel⟩
  have hrow : rowIntrinsic.Intrinsic := ⟨rfl, rfl, .inl rfl, by decide +kernel⟩
  have hdiagonal : diagonalIntrinsic.Intrinsic := ⟨rfl, rfl, .inr ⟨rfl, rfl⟩, by decide +kernel⟩
  obtain ⟨d, hd, -⟩ := Update.exists_of_toOption_map (x := sharedExtrinsic.compose itemExtrinsic)
    (f := fun _ => ()) (c := ()) (by decide +kernel)
  obtain ⟨d', hd', -⟩ := Update.exists_of_toOption_map
    (x := rowIntrinsic.compose diagonalIntrinsic) (f := fun _ => ()) (c := ()) (by decide +kernel)
  obtain ⟨l, r, m, hall⟩ := compose_assembled_eq_matmul (fun _ => rfl)
    (reached_ofAssignment rfl) (reached_ofAssignment rfl) rfl (.inl ⟨[2], hshared, hitem⟩) hd
  obtain ⟨l', r', m', hall'⟩ := compose_assembled_eq_matmul (fun _ => rfl)
    (reached_ofAssignment rfl) (reached_ofAssignment rfl) rfl (.inr ⟨hrow, hdiagonal⟩) hd'
  exact ⟨⟨hshared, hitem, d, l, r, m, hd, hall⟩, hrow, hdiagonal, d', l', r', m', hd', hall'⟩

end TieredCalculus.Derivative
