import TieredCalculus.Proofs.Derivative.ChainRule
import TieredCalculus.Proofs.Derivative.Reached

/-! # The chain rule between different intrinsic counts

Where the two factors disagree on the intrinsic dimensions of the shared quantity, the one with
fewer is promoted: it is elementwise in the last extrinsic dimensions of its target and its
argument, so at promoted indices it is zero unless these agree. The chain rule composes the
factors read in this way, as long as the promoted one has no dense block without a shape of its
argument, which promotion would take for a diagonal.
-/

namespace TieredCalculus

namespace Quantity

def lastExtrinsic (q : Quantity) (k : Nat) : Shape := (q.promote k).intrinsicShape.take k

theorem intrinsicShape_promote {q : Quantity} {k : Nat} (h : q.intrinsic + k ≤ q.middle.length) :
    (q.promote k).intrinsicShape = q.lastExtrinsic k ++ q.intrinsicShape ∧
      (q.lastExtrinsic k).length = k := by
  have hskip : q.middle.length - (q.intrinsic + k) + k = q.middle.length - q.intrinsic := by omega
  have hdrop : (q.promote k).intrinsicShape.drop k = q.intrinsicShape := by
    unfold intrinsicShape promote
    rw [List.drop_drop, hskip]
  refine ⟨?_, ?_⟩
  · unfold lastExtrinsic
    rw [← hdrop, List.take_append_drop]
  · unfold lastExtrinsic intrinsicShape promote
    rw [List.length_take, List.length_drop]
    dsimp only
    omega

theorem intrinsicShape_promote_sub {q q' : Quantity} (hmiddle : q.middle = q'.middle)
    (h : q.intrinsic ≤ q'.intrinsic) :
    (q.promote (q'.intrinsic - q.intrinsic)).intrinsicShape = (q'.promote 0).intrinsicShape := by
  unfold intrinsicShape promote
  dsimp only
  rw [hmiddle, Nat.add_sub_cancel' h, Nat.add_zero]

end Quantity

namespace Derivative

open Tensor

variable {α : Type} {d d' : Derivative α 1} {t : Tensor α} {tier : Shape} {k : Nat}

/-! ## The tier before the block -/

/-- What the stored intermediate shape has before the intrinsic block. -/
def storedTier (d : Derivative α 1) : Shape :=
  (d.middle?.getD []).take ((d.middle?.getD []).length - d.block.length)

/-- What is left of that tier when its last `k` dimensions become intrinsic. -/
def frontTier (d : Derivative α 1) (k : Nat) : Shape :=
  d.storedTier.take (d.storedTier.length - k)

theorem storedTier_eq (hvalue : d.value = some t) (hmiddle : t.middle = tier ++ d.block) :
    d.storedTier = tier := by
  unfold storedTier middle?
  rw [hvalue]
  change t.middle.take (t.middle.length - d.block.length) = tier
  rw [hmiddle, List.length_append, Nat.add_sub_cancel, List.take_left]

theorem Keeps.storedTier_eq (h : d.Keeps t tier) : d.storedTier = tier :=
  Derivative.storedTier_eq h.value_eq h.middle_eq

theorem frontTier_zero (d : Derivative α 1) : d.frontTier 0 = d.storedTier := by
  unfold frontTier
  rw [Nat.sub_zero, List.take_length]

theorem exists_frontTier (h : k ≤ d.storedTier.length) :
    ∃ last, last.length = k ∧ d.storedTier = d.frontTier k ++ last := by
  refine ⟨d.storedTier.drop (d.storedTier.length - k), ?_, (List.take_append_drop _ _).symm⟩
  rw [List.length_drop]
  omega

/-! ## Counts below that of the block -/

/-- The derivative with the count of a diagonal block raised to the dimensions it spans. -/
def settled (d : Derivative α 1) : Derivative α 1 :=
  { d with intrinsic := if d.isDiagonal then d.target.intrinsic else d.intrinsic }

theorem Keeps.isDiagonal_settled (h : d.Keeps t tier)
    (hshape : d.isDiagonal = true → d.target.intrinsicShape = d.argument.intrinsicShape) :
    d.settled.isDiagonal = d.isDiagonal := by
  by_cases hdiag : d.isDiagonal = true
  · have hlt := (isDiagonal_iff d).1 hdiag
    have hle := h.count_le hdiag
    have hcounts : d.target.intrinsic = d.argument.intrinsic := by
      rw [← h.target_length, hshape hdiag, h.argument_length]
    have hsettled : d.settled.intrinsic = d.target.intrinsic := if_pos hdiag
    refine ((isDiagonal_iff d.settled).2 ?_).trans hdiag.symm
    rw [hsettled]
    change d.target.intrinsic < d.target.intrinsic + d.argument.intrinsic
    omega
  · have hsettled : d.settled = d := by
      unfold settled
      rw [if_neg hdiag]
    rw [hsettled]

theorem Keeps.settled_stores (h : d.Keeps t tier)
    (hshape : d.isDiagonal = true → d.target.intrinsicShape = d.argument.intrinsicShape) :
    d.settled.Stores t tier := by
  have hdiag := h.isDiagonal_settled hshape
  have hblock : d.settled.block = d.block := by
    unfold block
    rw [hdiag]
    rfl
  have hkeeps : d.settled.Keeps t tier :=
    { value_eq := h.value_eq
      base_eq := h.base_eq
      middle_eq := hblock ▸ h.middle_eq
      target_length := h.target_length
      argument_length := h.argument_length
      count_le := fun hd => Nat.le_of_eq (if_pos (hdiag ▸ hd))
      count_eq := fun hd => (if_neg (hdiag ▸ hd)).trans (h.count_eq (hdiag ▸ hd)) }
  exact hkeeps.stores (fun hd => if_pos (hdiag ▸ hd)) fun hd => hshape (hdiag ▸ hd)

section Compose

variable [Zero α] [Add α] [Mul α] [BEq α] [Scalar α] {outer inner : Derivative α 1}

/-- The chain rule asks of the outer factor only for its form. -/
theorem composeAligned_settled_left (h : outer.settled.isDiagonal = outer.isDiagonal) :
    outer.settled.composeAligned inner = outer.composeAligned inner := by
  unfold composeAligned checkShared alignedOuter alignedInner sumShared ofProduct
  rw [h]
  rfl

theorem composeAligned_settled_right (h : inner.settled.isDiagonal = inner.isDiagonal)
    (hdiag : outer.isDiagonal = true) :
    outer.composeAligned inner.settled = outer.composeAligned inner := by
  unfold composeAligned checkShared alignedOuter alignedInner sumShared ofProduct
  simp only [h, hdiag, if_true]
  rfl

end Compose

/-! ## Promotion -/

section Promotion

variable [Scalar α]

theorem shapes_of_dense [Zero α] {a : Tensor α} (h : d.dense = .ok a) :
    d.isDiagonal = true → d.target.intrinsicShape = d.argument.intrinsicShape := by
  intro hdiag
  obtain ⟨v, -, h₁⟩ := Update.except_bind_eq_ok.1 h
  rw [if_pos hdiag] at h₁
  by_contra hne
  dsimp only at h₁
  rw [if_neg hne] at h₁
  cases h₁

/-- What the last `k` extrinsic dimensions need to become intrinsic: all dimensions of the
target are stored, target and argument have the same sizes there, and the block is not that of
a target whose argument has no intrinsic dimensions. -/
structure Elementwise (d : Derivative α 1) (k : Nat) : Prop where
  present : d.target.middle.length ≤ d.storedTier.length + d.target.intrinsic
  shared : d.target.lastExtrinsic k = d.argument.lastExtrinsic k
  form : d.target.intrinsic = 0 ∨ 0 < d.argument.intrinsic

theorem promote_checked [Zero α] (hfin : ∀ x : α, Scalar.isFinite x = true)
    (hvalue : d.value = some t) (h : d.promote k = .ok d') :
    t.middle.drop (t.middle.length - d.intrinsic) = d.target.intrinsicShape ∧
      d.target.intrinsic + k ≤ d.target.middle.length ∧
      d.argument.intrinsic + k ≤ d.argument.middle.length ∧
      (d.promoted k).withValue t = .ok d' := by
  obtain ⟨v, hv, hblock, hrest⟩ := promote_eq_ok h
  rw [tensor_eq_ok hfin hvalue] at hv
  cases hv
  unfold intrinsicShape? middle? at hblock
  rw [hvalue] at hblock
  exact ⟨hblock, hrest⟩

omit [Scalar α] in
/-- A derivative that promotes, and whose block is not that of a target alone, is diagonal or
has no intrinsic dimensions. -/
theorem Keeps.own_of_promote (h : d.Keeps t tier)
    (hshape : d.isDiagonal = true → d.target.intrinsicShape = d.argument.intrinsicShape)
    (hform : d.target.intrinsic = 0 ∨ 0 < d.argument.intrinsic)
    (hblock : t.middle.drop (t.middle.length - d.intrinsic) = d.target.intrinsicShape) :
    t.middle = tier ++ d.target.intrinsicShape ∧ d.intrinsic = d.target.intrinsicShape.length ∧
      d.target.intrinsicShape = d.argument.intrinsicShape := by
  have hlength := congrArg List.length hblock
  have hmiddle := h.middle_eq
  rw [List.length_drop, h.target_length] at hlength
  by_cases hdiag : d.isDiagonal = true
  · have hrank := congrArg List.length hmiddle
    have hle := h.count_le hdiag
    unfold block at hmiddle hrank
    rw [if_pos hdiag] at hmiddle hrank
    rw [List.length_append, h.target_length] at hrank
    exact ⟨hmiddle, by rw [h.target_length]; omega, hshape hdiag⟩
  · have hrank := congrArg List.length hmiddle
    have hcount := h.count_eq hdiag
    unfold block at hmiddle hrank
    rw [if_neg hdiag] at hmiddle hrank
    rw [List.length_append, List.length_append, h.target_length, h.argument_length] at hrank
    have hempty : d.target.intrinsicShape = [] ∧ d.argument.intrinsicShape = [] := by
      rw [← List.length_eq_zero_iff, ← List.length_eq_zero_iff, h.target_length,
        h.argument_length]
      omega
    rw [hempty.1, hempty.2] at hmiddle ⊢
    exact ⟨hmiddle, by rw [List.length_nil]; omega, rfl⟩

theorem promote_view [Zero α] (hfin : ∀ x : α, Scalar.isFinite x = true) (h : d.Keeps t tier)
    (hshape : d.isDiagonal = true → d.target.intrinsicShape = d.argument.intrinsicShape)
    (hk : 0 < k) (hrest : d.Elementwise k) (hd : d.promote k = .ok d') :
    d.storedTier.expandsTo (d.frontTier k ++ d.target.lastExtrinsic k) = true ∧
      ∃ w, d' = { d.promoted k with value := some w } ∧
      w.View t.batch (d.frontTier k ++ (d.promoted k).target.intrinsicShape) t.base fun b m i =>
        t.cell b ((d.storedTier ++ d.target.intrinsicShape).project m) i := by
  obtain ⟨hblock, hy, hx, hvalue⟩ := promote_checked hfin h.value_eq hd
  obtain ⟨hmiddle, hcount, -⟩ := h.own_of_promote hshape hrest.form hblock
  obtain ⟨htarget, hylast⟩ := Quantity.intrinsicShape_promote hy
  have hpresent := hrest.present
  obtain ⟨last, hlast, hsplit⟩ := exists_frontTier (d := d) (k := k) (by omega)
  rw [← h.storedTier_eq] at hmiddle
  have hm : t.middle = d.frontTier k ++ (last ++ d.target.intrinsicShape) := by
    rw [hmiddle, hsplit, List.append_assoc]
  have hc : (d.promoted k).intrinsic = (last ++ d.target.intrinsicShape).length := by
    rw [List.length_append, hlast, ← hcount]
    exact Nat.add_comm _ _
  have hlen : (d.promoted k).target.intrinsicShape.length =
      (last ++ d.target.intrinsicShape).length := by
    change (d.target.promote k).intrinsicShape.length = _
    rw [htarget, List.length_append, List.length_append, hylast, hlast]
  have hne : last ++ d.target.intrinsicShape ≠ (d.promoted k).denseShape := by
    intro heq
    have hsizes := congrArg List.length heq
    have hargument : (d.promoted k).argument.intrinsicShape.length = d.argument.intrinsic + k :=
      length_intrinsicShape hx
    rw [denseShape_eq, ← hlen, List.length_append, hargument] at hsizes
    omega
  have hbase : t.base = (d.promoted k).base := h.base_eq.trans (base_eq (d.promoted k)).symm
  have hexp := expandsTo_of_withValue hm hc hne hvalue
  obtain ⟨w, hw, vw⟩ := withValue_expand hbase hm hc hlen hne hexp
  rw [hvalue] at hw
  cases hw
  rw [← List.append_assoc, ← hsplit] at vw
  refine ⟨?_, w, rfl, vw⟩
  have hranks : last.length = (d.target.lastExtrinsic k).length := hlast.trans hylast.symm
  rw [Shape.expandsTo_iff_stretches hlen.symm] at hexp
  change Shape.Stretches _ (d.target.promote k).intrinsicShape at hexp
  rw [htarget, Shape.stretches_append_iff hranks] at hexp
  have hfront : (d.frontTier k ++ last).length =
      (d.frontTier k ++ d.target.lastExtrinsic k).length := by
    rw [List.length_append, hranks, List.length_append]
  rw [hsplit, Shape.expandsTo_iff_stretches hfront, Shape.stretches_append_iff rfl]
  exact ⟨.refl _, hexp.1⟩

/-- A promoted derivative is diagonal, and at indices of target and argument it has the cells
of the value at its own indices. -/
theorem promote_stores [Zero α] (hfin : ∀ x : α, Scalar.isFinite x = true) (h : d.Keeps t tier)
    (hshape : d.isDiagonal = true → d.target.intrinsicShape = d.argument.intrinsicShape)
    (hk : 0 < k) (hrest : d.Elementwise k) (hd : d.promote k = .ok d') :
    ∃ w, d'.Stores w (d.frontTier k) ∧ d'.isDiagonal = true ∧
      d'.target = d.target.promote k ∧ d'.argument = d.argument.promote k ∧
      w.batch = t.batch ∧
      d.storedTier.expandsTo (d.frontTier k ++ d.target.lastExtrinsic k) = true ∧
      ∀ {b e a p i}, Shape.InBounds t.batch b → Shape.InBounds (d.frontTier k) e →
        Shape.InBounds (d.target.lastExtrinsic k) a → Shape.InBounds d.target.intrinsicShape p →
        i < t.base.numel →
        w.cell b (e ++ (a ++ p)) i = t.cell b (d.storedTier.project (e ++ a) ++ p) i := by
  obtain ⟨hblock, hy, hx, -⟩ := promote_checked hfin h.value_eq hd
  obtain ⟨-, hcount, hown⟩ := h.own_of_promote hshape hrest.form hblock
  obtain ⟨htarget, hylast⟩ := Quantity.intrinsicShape_promote hy
  obtain ⟨hargument, -⟩ := Quantity.intrinsicShape_promote hx
  obtain ⟨hexp, w, rfl, vw⟩ := promote_view hfin h hshape hk hrest hd
  have hylen : (d.target.promote k).intrinsicShape.length = d.target.intrinsic + k :=
    length_intrinsicShape hy
  have hdiag : ({ d.promoted k with value := some w } : Derivative α 1).isDiagonal = true := by
    have hlength := h.target_length
    rw [isDiagonal_iff]
    change d.intrinsic + k < d.target.intrinsic + k + (d.argument.intrinsic + k)
    omega
  have hblock : ({ d.promoted k with value := some w } : Derivative α 1).block =
      (d.target.promote k).intrinsicShape := by
    unfold block
    rw [if_pos hdiag]
    rfl
  refine ⟨w, ?_, hdiag, rfl, rfl, vw.batch_eq, hexp, fun {b e a p i} hb he ha hp hi => ?_⟩
  · refine ⟨rfl, vw.base_eq.trans h.base_eq, ?_, ?_, hylen, length_intrinsicShape hx, fun _ => ?_⟩
    · rw [hblock]
      exact vw.middle_eq
    · rw [hblock, hylen]
      change d.intrinsic + k = _
      rw [hcount, h.target_length]
    · change (d.target.promote k).intrinsicShape = (d.argument.promote k).intrinsicShape
      rw [htarget, hargument, hrest.shared, hown]
  · have hpresent := hrest.present
    have hrank : d.storedTier.length ≤ (e ++ a).length := by
      obtain ⟨last, hlast, hsplit⟩ := exists_frontTier (d := d) (k := k) (by omega)
      rw [hsplit, List.length_append, List.length_append, he.length_eq, ha.length_eq, hylast,
        hlast]
    have hin : Shape.InBounds (d.target.promote k).intrinsicShape (a ++ p) :=
      htarget ▸ Shape.inBounds_append ha hp
    rw [vw.cell_eq hb (Shape.inBounds_append he hin) hi]
    rw [← List.append_assoc e, Shape.project_append hp.length_eq hrank,
      Shape.clamp_of_inBounds hp]

end Promotion

/-! ## Entries at promoted indices -/

/-- The entry of a dense form `a` at promoted indices `p` of the target and `q` of the argument.
The `k` leading ones are extrinsic indices of the derivative and have to agree. -/
def promotedEntry [Zero α] (d : Derivative α 1) (a : Tensor α) (k : Nat) (b e p q i j : Index) :
    α :=
  if p.take k = q.take k then
    a.entry (a.batch.project b ++
      (d.storedTier.project (e ++ p.take k) ++ (p.drop k ++ q.drop k)) ++ (i ++ j))
  else 0

section Follows

variable [Scalar α] [CommRing α]

/-- The second derivative, with dense form `a'`, stands for the first, with dense form `a`, at
indices promoted by `k` dimensions. -/
structure Follows (d : Derivative α 1) (a : Tensor α) (k : Nat) (d' : Derivative α 1)
    (t' a' : Tensor α) : Prop where
  stores : d'.Stores t' (d.frontTier k)
  dense : d'.DenseOf t' (d.frontTier k) a'
  target_eq : d'.target = d.target.promote k
  argument_eq : d'.argument = d.argument.promote k
  present : k ≤ d.storedTier.length
  batch_eq : a'.batch = a.batch
  entry_eq : ∀ {b e p q i j}, Shape.InBounds a.batch b → Shape.InBounds (d.frontTier k) e →
    Shape.InBounds (d.target.promote k).intrinsicShape p →
    Shape.InBounds (d.argument.promote k).intrinsicShape q →
    Shape.InBounds d.target.base i → Shape.InBounds d.argument.base j →
    a'.entry (b ++ (e ++ (p ++ q)) ++ (i ++ j)) = d.promotedEntry a k b e p q i j

theorem Keeps.settled_denseOf (hfin : ∀ x : α, Scalar.isFinite x = true) (h : d.Keeps t tier)
    {a : Tensor α} (ha : d.dense = .ok a) : d.settled.DenseOf t tier a := by
  have hshape := shapes_of_dense ha
  have hdense : d.settled.dense = d.dense := by
    unfold Derivative.dense
    rw [h.isDiagonal_settled hshape]
    rfl
  obtain ⟨c, hc, hdc⟩ := (h.settled_stores hshape).dense hfin
  rw [hdense, ha] at hc
  cases hc
  exact hdc

omit [Scalar α] in
theorem promotedEntry_zero (d : Derivative α 1) (a : Tensor α) (b e p q i j : Index) :
    d.promotedEntry a 0 b e p q i j =
      a.entry (a.batch.project b ++ (d.storedTier.project e ++ (p ++ q)) ++ (i ++ j)) := by
  unfold promotedEntry
  simp only [List.take_zero, if_true, List.drop_zero, List.append_nil]

omit [Scalar α] in
theorem follows_of_stores {a : Tensor α} (hstores : d'.Stores t d.storedTier)
    (hdense : d'.DenseOf t d.storedTier a) (htarget : d'.target = d.target)
    (hargument : d'.argument = d.argument) : d.Follows a 0 d' t a := by
  rw [← frontTier_zero] at hstores hdense
  refine ⟨hstores, hdense, htarget, hargument, Nat.zero_le _, rfl,
    fun {b e p q i j} hb he _ _ _ _ => ?_⟩
  rw [frontTier_zero] at he
  rw [promotedEntry_zero, Shape.project_of_inBounds hb, Shape.project_of_inBounds he]

theorem Keeps.follows_settled (hfin : ∀ x : α, Scalar.isFinite x = true) (h : d.Keeps t tier)
    {a : Tensor α} (ha : d.dense = .ok a) : d.Follows a 0 d.settled t a := by
  have hdense := h.settled_denseOf hfin ha
  have hstores := h.settled_stores (shapes_of_dense ha)
  rw [← h.storedTier_eq] at hdense hstores
  exact follows_of_stores hstores hdense rfl rfl

omit [Scalar α] in
theorem Keeps.fullCell_own (h : d.Keeps t tier) (hdiag : d'.isDiagonal = d.isDiagonal)
    (hmiddle : t.middle = tier ++ d.target.intrinsicShape)
    (hown : d.target.intrinsicShape = d.argument.intrinsicShape) {b e p q : Index} {i : Nat}
    (hp : Shape.InBounds d.target.intrinsicShape p)
    (hq : Shape.InBounds d.target.intrinsicShape q) :
    d'.fullCell t b e p q i = if p = q then t.cell b (e ++ p) i else 0 := by
  unfold fullCell
  rw [hdiag]
  by_cases hd : d.isDiagonal = true
  · rw [if_pos hd]
  · have hblock := h.middle_eq
    unfold block at hblock
    rw [if_neg hd, hmiddle, List.append_cancel_left_eq, List.self_eq_append_right, ← hown]
      at hblock
    rw [hblock] at hp hq
    rw [if_neg hd, List.length_eq_zero_iff.1 hp.length_eq, List.length_eq_zero_iff.1 hq.length_eq,
      if_pos rfl, List.append_nil]

theorem Keeps.follows_promote (hfin : ∀ x : α, Scalar.isFinite x = true) (h : d.Keeps t tier)
    {a : Tensor α} (ha : d.dense = .ok a) (hk : 0 < k) (hrest : d.Elementwise k)
    (hd : d.promote k = .ok d') : ∃ t' a', d'.isDiagonal = true ∧ d.Follows a k d' t' a' := by
  have hshape := shapes_of_dense ha
  have hdense := h.settled_denseOf hfin ha
  obtain ⟨hblock, hy, hx, -⟩ := promote_checked hfin h.value_eq hd
  obtain ⟨hmiddle, -, hown⟩ := h.own_of_promote hshape hrest.form hblock
  obtain ⟨htarget, hylast⟩ := Quantity.intrinsicShape_promote hy
  obtain ⟨hargument, -⟩ := Quantity.intrinsicShape_promote hx
  obtain ⟨w, hstores, hdiag, hy', hx', hwb, hexp, hcell⟩ :=
    promote_stores hfin h hshape hk hrest hd
  obtain ⟨a', -, hda'⟩ := hstores.dense hfin
  have hpresent := hrest.present
  refine ⟨w, a', hdiag, hstores, hda', hy', hx', by omega, hda'.batch_eq.trans
    (hwb.trans hdense.batch_eq.symm), fun {b e p q i j} hb he hp hq hi hj => ?_⟩
  have hbt : Shape.InBounds t.batch b := hdense.batch_eq ▸ hb
  have hplace : d.target.base.offset i * d.argument.base.numel + d.argument.base.offset j <
      t.base.numel := by
    rw [h.base_eq, ← Shape.offset_append hi.length_eq]
    exact Shape.offset_lt (Shape.inBounds_append hi hj)
  rw [hda'.entry_eq (hwb ▸ hbt) he (hy' ▸ hp) (hx' ▸ hq) (hy' ▸ hi) (hx' ▸ hj)]
  rw [htarget] at hp
  rw [hargument, ← hown, ← hrest.shared] at hq
  obtain ⟨p₁, p₂, rfl, hp₁, hp₂⟩ := Shape.exists_append_of_inBounds hp
  obtain ⟨q₁, q₂, rfl, hq₁, hq₂⟩ := Shape.exists_append_of_inBounds hq
  have hplen : p₁.length = k := hp₁.length_eq.trans hylast
  have hqlen : q₁.length = k := hq₁.length_eq.trans hylast
  have hin : Shape.InBounds tier (d.storedTier.project (e ++ p₁)) :=
    h.storedTier_eq ▸ Shape.project_inBounds hexp (Shape.inBounds_append he hp₁)
  unfold promotedEntry fullCell
  rw [if_pos hdiag, List.take_left' hplen, List.take_left' hqlen, List.drop_left' hplen,
    List.drop_left' hqlen, Shape.project_of_inBounds hb, hy', hx']
  by_cases h₁ : p₁ = q₁
  · rw [if_pos h₁, hdense.entry_eq hbt hin hp₂ (hown ▸ hq₂) hi hj]
    rw [h.fullCell_own (h.isDiagonal_settled hshape) hmiddle hown hp₂ hq₂]
    simp only [h₁, List.append_cancel_left_eq]
    rw [← h₁]
    exact if_congr Iff.rfl (hcell hbt he hp₁ hp₂ hplace) rfl
  · rw [if_neg h₁, if_neg fun heq => h₁ (List.append_inj_left heq (hplen.trans hqlen.symm))]

omit [Scalar α] in
theorem promotedEntry_project {a : Tensor α} {b e p q i j : Index}
    (hb : a.batch.length ≤ b.length) (he : (d.frontTier k).length ≤ e.length)
    (hk : k ≤ d.storedTier.length) (hp : k ≤ p.length) :
    d.promotedEntry a k (a.batch.project b) ((d.frontTier k).project e) p q i j =
      d.promotedEntry a k b e p q i j := by
  obtain ⟨last, hlast, hsplit⟩ := exists_frontTier hk
  have htake : (p.take k).length = last.length := by
    rw [List.length_take, hlast]
    omega
  unfold promotedEntry
  rw [Shape.project_project (Shape.expandsTo_refl _) hb, hsplit,
    Shape.project_append htake (Nat.le_of_eq (Shape.length_project he).symm),
    Shape.project_append htake he, Shape.project_project (Shape.expandsTo_refl _) he]

omit [Scalar α] in
theorem Follows.entry_project {a t' a' : Tensor α} (h : d.Follows a k d' t' a') {batch tier : Shape}
    (hbatch : a.batch.expandsTo batch = true) (htier : (d.frontTier k).expandsTo tier = true)
    {b e p q i j : Index} (hb : Shape.InBounds batch b) (he : Shape.InBounds tier e)
    (hp : Shape.InBounds (d.target.promote k).intrinsicShape p)
    (hq : Shape.InBounds (d.argument.promote k).intrinsicShape q)
    (hi : Shape.InBounds d.target.base i) (hj : Shape.InBounds d.argument.base j) :
    a'.entry (a'.batch.project b ++ ((d.frontTier k).project e ++ (p ++ q)) ++ (i ++ j)) =
      d.promotedEntry a k b e p q i j := by
  have hplen : k ≤ p.length := by
    have htarget := h.stores.target_length
    rw [h.target_eq, ← hp.length_eq] at htarget
    change p.length = d.target.intrinsic + k at htarget
    omega
  rw [h.batch_eq, h.entry_eq (Shape.project_inBounds hbatch hb) (Shape.project_inBounds htier he)
    hp hq hi hj]
  exact promotedEntry_project (hb.length_eq ▸ Shape.expandsTo_length hbatch)
    (he.length_eq ▸ Shape.expandsTo_length htier) h.present hplen

end Follows

/-! ## Composition -/

/-- The derivative is the composition of the outer factor, promoted by `ko` dimensions, and the
inner one, promoted by `ki`: its dense form sums the products of their entries over all indices
of the shared quantity. -/
def Composes [Scalar α] [CommRing α] (outer : Derivative α 1) (a : Tensor α) (ko : Nat)
    (inner : Derivative α 1) (c : Tensor α) (ki : Nat) (d : Derivative α 1) : Prop :=
  d.target = outer.target.promote ko ∧ d.argument = inner.argument.promote ki ∧
    ∃ r batch tier, d.dense = .ok r ∧ Shape.broadcast a.batch c.batch = .ok batch ∧
      Shape.broadcast (outer.frontTier ko) (inner.frontTier ki) = .ok tier ∧ r.batch = batch ∧
      r.middle = tier ++ (d.target.intrinsicShape ++ d.argument.intrinsicShape) ∧
      r.base = outer.target.base ++ inner.argument.base ∧
      ∀ {b e p q i j}, Shape.InBounds batch b → Shape.InBounds tier e →
        Shape.InBounds d.target.intrinsicShape p → Shape.InBounds d.argument.intrinsicShape q →
        Shape.InBounds outer.target.base i → Shape.InBounds inner.argument.base j →
        r.entry (b ++ (e ++ (p ++ q)) ++ (i ++ j)) =
          sumOver (outer.argument.promote ko).intrinsicShape fun u =>
            sumOver outer.argument.base fun l =>
              outer.promotedEntry a ko b e p u i l * inner.promotedEntry c ki b e u q l j

section Compose

variable [Scalar α] [CommRing α] [BEq α] [LawfulBEq α] {outer inner outer' inner' : Derivative α 1}
  {a c s t' a' c' : Tensor α} {ko ki : Nat}

/-- What stands for the factors is composed to what stands for the composition. -/
theorem Follows.composes (hfin : ∀ x : α, Scalar.isFinite x = true)
    (ho : outer.Follows a ko outer' s a') (hi : inner.Follows c ki inner' t' c')
    (hshape : (outer.argument.promote ko).intrinsicShape =
      (inner.target.promote ki).intrinsicShape)
    (hd : outer'.composeAligned inner' = .ok d) : outer.Composes a ko inner c ki d := by
  have hu : outer'.argument.intrinsicShape = inner'.target.intrinsicShape := by
    rw [ho.argument_eq, hi.target_eq]
    exact hshape
  obtain ⟨hbase, batch, tier, hb, htier⟩ :=
    of_composeAligned_ok hfin ho.stores hi.stores hu hd
  obtain ⟨d₁, w, hd₁, hy, hx, -, hstores, hwb, hcell⟩ :=
    composeAligned_stores hfin ho.stores hi.stores hbase hu hb htier
  rw [hd] at hd₁
  cases hd₁
  obtain ⟨r, hr, hdr⟩ := hstores.dense hfin
  have hbatch : Shape.broadcast a.batch c.batch = .ok batch := by
    rw [← ho.batch_eq, ← hi.batch_eq, ho.dense.batch_eq, hi.dense.batch_eq]
    exact hb
  obtain ⟨hbo, hbi, -⟩ := Shape.broadcast_expandsTo hbatch
  obtain ⟨hto, hti, -⟩ := Shape.broadcast_expandsTo htier
  refine ⟨hy.trans ho.target_eq, hx.trans hi.argument_eq, r, batch, tier, hr, hbatch, htier,
    hdr.batch_eq.trans hwb, hdr.middle_eq, ?_, fun {b e p q i j} hib hie hp hq hii hij => ?_⟩
  · rw [hdr.base_eq, hy, hx, ho.target_eq, hi.argument_eq]
    rfl
  · rw [hy] at hp
    rw [hx] at hq
    have hii' : Shape.InBounds outer'.target.base i := by
      rw [ho.target_eq]
      exact hii
    have hij' : Shape.InBounds inner'.argument.base j := by
      rw [hi.argument_eq]
      exact hij
    have hplace := Shape.offset_lt (Shape.inBounds_append hii' hij')
    rw [Shape.offset_append hii'.length_eq] at hplace
    rw [hdr.entry_eq (hwb ▸ hib) hie (hy ▸ hp) (hx ▸ hq) (hy ▸ hii') (hx ▸ hij'), hy, hx,
      hcell hib hie hp hq hplace, ho.argument_eq]
    apply sumOver_congr
    intro u huo
    rw [fullPair_eq_sumOver ho.dense hi.dense hbase hu hb htier hib hie hp
      (ho.argument_eq ▸ huo) hq hii' hij', ho.argument_eq]
    apply sumOver_congr
    intro l hl
    have hl' : Shape.InBounds inner.target.base l := by
      rw [ho.argument_eq, hi.target_eq] at hbase
      exact hbase ▸ hl
    rw [ho.target_eq] at hp
    rw [hi.argument_eq] at hq
    rw [ho.entry_project hbo hto hib hie hp huo hii hl,
      hi.entry_project hbi hti hib hie (hshape ▸ huo) hq hl' hij]

/-- The chain rule composes factors that disagree on the intrinsic dimensions of the shared
quantity: whenever it has a result, that is the composition of the dense forms of the factors,
the one with fewer dimensions read as elementwise in the last extrinsic ones. -/
theorem compose_promoted_eq_sum (hfin : ∀ x : α, Scalar.isFinite x = true)
    (ho : outer.Reached) (hi : inner.Reached) (ha : outer.dense = .ok a)
    (hc : inner.dense = .ok c) (hmiddle : outer.argument.middle = inner.target.middle)
    (hne : outer.argument.intrinsic ≠ inner.target.intrinsic)
    (hko : outer.argument.intrinsic < inner.target.intrinsic →
      outer.Elementwise (inner.target.intrinsic - outer.argument.intrinsic))
    (hki : inner.target.intrinsic < outer.argument.intrinsic →
      inner.Elementwise (outer.argument.intrinsic - inner.target.intrinsic))
    (hd : outer.compose inner = .ok d) :
    outer.Composes a (inner.target.intrinsic - outer.argument.intrinsic) inner c
      (outer.argument.intrinsic - inner.target.intrinsic) d := by
  obtain ⟨s, hos, -⟩ := Update.except_bind_eq_ok.1 ha
  obtain ⟨t, hit, -⟩ := Update.except_bind_eq_ok.1 hc
  obtain ⟨outerTier, hs⟩ := ho.exists_keeps hos
  obtain ⟨innerTier, ht⟩ := hi.exists_keeps hit
  have hso := hs.isDiagonal_settled (shapes_of_dense ha)
  have hsi := ht.isDiagonal_settled (shapes_of_dense hc)
  unfold compose at hd
  obtain hlt | hlt := Nat.lt_or_gt_of_ne hne
  · have hshape := Quantity.intrinsicShape_promote_sub hmiddle (Nat.le_of_lt hlt)
    dsimp only at hd
    rw [if_neg (Nat.lt_asymm hlt), if_pos hlt] at hd
    obtain ⟨outer', hpromote, hd⟩ := Update.except_bind_eq_ok.1 hd
    obtain ⟨t', a', hdiag, hfollows⟩ :=
      hs.follows_promote hfin ha (Nat.sub_pos_of_lt hlt) (hko hlt) hpromote
    rw [← composeAligned_settled_right hsi hdiag] at hd
    rw [Nat.sub_eq_zero_of_le (Nat.le_of_lt hlt)]
    exact hfollows.composes hfin (ht.follows_settled hfin hc) hshape hd
  · have hshape := Quantity.intrinsicShape_promote_sub hmiddle.symm (Nat.le_of_lt hlt)
    dsimp only at hd
    rw [if_pos hlt] at hd
    obtain ⟨inner', hpromote, hd⟩ := Update.except_bind_eq_ok.1 hd
    obtain ⟨t', c', -, hfollows⟩ :=
      ht.follows_promote hfin hc (Nat.sub_pos_of_lt hlt) (hki hlt) hpromote
    rw [← composeAligned_settled_left hso] at hd
    rw [Nat.sub_eq_zero_of_le (Nat.le_of_lt hlt)]
    exact (hs.follows_settled hfin ha).composes hfin hfollows hshape.symm hd

end Compose

theorem reached_ofAssignment {m : Nat} {y x : Quantity} {t : Tensor ℚ}
    (h : checkDeclaration m y [x] = .ok ()) : (ofAssignment m y x t).Reached :=
  .assigned t (.declared (declareFirst_eq_ok.2 ⟨h, rfl⟩))

def pairedDense : Derivative ℚ 1 :=
  ofAssignment 2 ⟨"y", [], 0, []⟩ ⟨"u", [2, 2], 2, []⟩ ⟨[], [2, 2], [], #[1, 2, 3, 4], rfl⟩

def rowDiagonal : Derivative ℚ 1 :=
  ofAssignment 1 ⟨"u", [2, 2], 1, []⟩ ⟨"x", [2, 2], 1, []⟩ ⟨[], [2, 2], [], #[5, 6, 7, 8], rfl⟩

theorem pairedDense_composes_rowDiagonal : ∃ a c d,
    pairedDense.Reached ∧ rowDiagonal.Reached ∧ pairedDense.dense = .ok a ∧
    rowDiagonal.dense = .ok c ∧ rowDiagonal.Elementwise 1 ∧
    pairedDense.compose rowDiagonal = .ok d ∧ pairedDense.Composes a 0 rowDiagonal c 1 d := by
  have ho : pairedDense.Reached := reached_ofAssignment rfl
  have hi : rowDiagonal.Reached := reached_ofAssignment rfl
  have hrest : rowDiagonal.Elementwise 1 := ⟨by decide +kernel, rfl, .inr (by decide +kernel)⟩
  obtain ⟨a, ha, -⟩ := Update.exists_of_toOption_map (x := pairedDense.dense) (f := fun _ => ())
    (c := ()) (by decide +kernel)
  obtain ⟨c, hc, -⟩ := Update.exists_of_toOption_map (x := rowDiagonal.dense) (f := fun _ => ())
    (c := ()) (by decide +kernel)
  obtain ⟨d, hd, -⟩ := Update.exists_of_toOption_map (x := pairedDense.compose rowDiagonal)
    (f := fun _ => ()) (c := ()) (by decide +kernel)
  exact ⟨a, c, d, ho, hi, ha, hc, hrest, hd, compose_promoted_eq_sum (fun _ => rfl) ho hi ha hc rfl
    (by decide +kernel) (fun h => absurd h (by decide +kernel)) (fun _ => hrest) hd⟩

/-- A derivative by a quantity without intrinsic dimensions is dense. -/
def columnTarget : Derivative ℚ 1 :=
  ofAssignment 1 ⟨"y", [2, 2], 1, []⟩ ⟨"u", [2], 0, []⟩ ⟨[], [2, 2], [], #[1, 2, 3, 4], rfl⟩

def columnSource : Derivative ℚ 1 :=
  ofAssignment 1 ⟨"u", [2], 1, []⟩ ⟨"x", [], 0, []⟩ ⟨[], [2], [], #[5, 7], rfl⟩

/-- Promotion takes the block of such a target for a diagonal. At `[0, 1]` the result pairs the
outer entry with the inner one at `1`, where the index of the promoted dimension is `0`. -/
theorem columnTarget_not_composes : ∃ a c d,
    columnTarget.Reached ∧ columnSource.Reached ∧ columnTarget.dense = .ok a ∧
    columnSource.dense = .ok c ∧
    columnTarget.argument.middle = columnSource.target.middle ∧
    columnTarget.argument.intrinsic < columnSource.target.intrinsic ∧
    columnTarget.storedTier.length + columnTarget.target.intrinsic =
      columnTarget.target.middle.length ∧
    columnTarget.target.lastExtrinsic 1 = columnTarget.argument.lastExtrinsic 1 ∧
    columnTarget.compose columnSource = .ok d ∧ ¬columnTarget.Composes a 1 columnSource c 0 d := by
  have ho : columnTarget.Reached := reached_ofAssignment rfl
  have hi : columnSource.Reached := reached_ofAssignment rfl
  obtain ⟨a, ha, hav⟩ := Update.exists_of_toOption_map (x := columnTarget.dense)
    (f := fun a => (a.batch, columnTarget.promotedEntry a 1 [] [] [0, 1] [0] [] [],
      columnTarget.promotedEntry a 1 [] [] [0, 1] [1] [] [])) (c := ([], 2, 0)) (by decide +kernel)
  obtain ⟨c, hc, hcv⟩ := Update.exists_of_toOption_map (x := columnSource.dense)
    (f := fun c => (c.batch, columnSource.promotedEntry c 0 [] [] [0] [] [] [])) (c := ([], 5))
    (by decide +kernel)
  obtain ⟨d, hd, hdv⟩ := Update.exists_of_toOption_map (x := columnTarget.compose columnSource)
    (f := fun d => (d.dense.map fun r => r.entry [0, 1]).toOption) (c := some 14)
    (by decide +kernel)
  refine ⟨a, c, d, ho, hi, ha, hc, rfl, by decide +kernel, by decide +kernel, by decide +kernel,
    hd, ?_⟩
  rintro ⟨htarget, hargument, r, batch, tier, hr, hbatch, htier, -, -, -, hentry⟩
  obtain ⟨hab, ha₀, ha₁⟩ : a.batch = [] ∧ _ = (2 : ℚ) ∧ _ = (0 : ℚ) := by simpa using hav
  obtain ⟨hcb, hc₀⟩ : c.batch = [] ∧ _ = (5 : ℚ) := by simpa using hcv
  rw [hr] at hdv
  have hr₀ : r.entry [0, 1] = 14 := Option.some.inj hdv
  rw [hab, hcb] at hbatch
  have hfront : columnTarget.frontTier 1 = [] := by decide +kernel
  have hfront' : columnSource.frontTier 0 = [] := by decide +kernel
  rw [hfront, hfront'] at htier
  cases hbatch
  cases htier
  have hp : Shape.InBounds d.target.intrinsicShape [0, 1] := by
    rw [htarget]
    decide +kernel
  have hq : Shape.InBounds d.argument.intrinsicShape [] := by
    rw [hargument]
    decide +kernel
  have hvalue : r.entry [0, 1] = _ :=
    hentry (b := []) (e := []) (i := []) (j := []) trivial trivial hp hq trivial trivial
  have hshape : (columnTarget.argument.promote 1).intrinsicShape = [2] := rfl
  have hbase : columnTarget.argument.base = [] := rfl
  rw [hshape, hbase, sumOver_cons] at hvalue
  simp only [List.range_succ, List.range_zero, List.nil_append, List.map_cons, List.map_nil,
    List.cons_append, List.sum_cons, List.sum_nil, sumOver_nil, ha₀, ha₁, hc₀,
    hr₀, zero_mul, add_zero] at hvalue
  exact absurd hvalue (by decide +kernel)

end Derivative

end TieredCalculus
