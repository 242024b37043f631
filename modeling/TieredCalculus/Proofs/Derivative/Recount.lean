import TieredCalculus.Proofs.Derivative.Promotion

/-! # The chain rule and the count of a diagonal factor

A diagonal derivative may be declared with fewer dimensions than its block spans. The chain rule
places the dimensions of the outer target by the declared count, in the middle of such a block.
The value does not depend on the dimensions before, so that a result is the right one, but a
result is only there where the misplaced dimensions still fit the outer block.
-/

namespace TieredCalculus.Derivative

open Tensor

variable {α : Type} {d outer inner : Derivative α 1} {s t : Tensor α} {outerTier tier : Shape}

theorem Keeps.length_counted (h : d.Keeps t tier) (hd : d.isDiagonal = true) :
    d.counted.length = d.intrinsic :=
  Derivative.length_counted h.target_length (h.count_le hd)

theorem Keeps.block_diagonal (h : d.Keeps t tier) (hd : d.isDiagonal = true) :
    t.middle = tier ++ (d.uncounted ++ d.counted) := by
  rw [h.middle_eq, block, if_pos hd, uncounted_append_counted]

/-- What has been assigned to a diagonal derivative does not depend on the dimensions that its
count leaves out. -/
theorem Assigned.constant [Zero α] (h : d.Assigned) (hd : d.isDiagonal = true) :
    ∃ t tier, d.Keeps t tier ∧
      ∀ {b e v v' r k}, Shape.InBounds t.batch b → Shape.InBounds tier e →
        Shape.InBounds d.uncounted v → Shape.InBounds d.uncounted v' →
        Shape.InBounds d.counted r → k < t.base.numel →
        t.cell b (e ++ (v ++ r)) k = t.cell b (e ++ (v' ++ r)) k := by
  obtain ⟨t, tier, hkeeps⟩ := keeps_of_assigned h
  obtain ⟨d₀, t₀, hcheck, hassign⟩ := h
  obtain ⟨-, w, hw, rfl⟩ := withValue_eq_ok.1 (assign_outcome_eq_ok.1 hassign)
  cases hkeeps.value_eq
  have hlt : d₀.intrinsic < d₀.total := of_decide_eq_true hd
  obtain ⟨-, tier₁, hmiddle, hconst⟩ :=
    Ranked.expandIntrinsic_constant (checkDeclaration_eq_ok_iff.1 hcheck).1 hlt.ne hw
  have htier : tier ++ d₀.target.intrinsicShape = tier₁ ++ d₀.target.intrinsicShape := by
    rw [← hmiddle, hkeeps.middle_eq, block, if_pos hd]
  cases List.append_cancel_right htier
  exact ⟨t, tier, hkeeps, hconst⟩

/-! ## Misplaced dimensions -/

/-- The dimensions that the inner count leaves out, with those of the outer target behind them,
expand to the outer block in their place. -/
def Fits (outer inner : Derivative α 1) : Prop :=
  (inner.uncounted ++ List.replicate outer.target.intrinsic 1).expandsTo
    (outer.target.intrinsicShape ++ inner.uncounted) = true

theorem fits_full (hy : outer.target.intrinsic ≤ outer.target.middle.length)
    (h : inner.intrinsic = inner.target.intrinsic) : outer.Fits inner := by
  unfold Fits uncounted
  rw [h, Nat.sub_self, List.take_zero, List.nil_append, List.append_nil,
    ← length_intrinsicShape hy, Shape.expandsTo_iff_stretches List.length_replicate]
  exact Shape.stretches_units _

private theorem parts_project_misplaced {front post left : Shape} {e y v u : Index} (n : Nat)
    (he : tier.length ≤ e.length)
    (hs : Shape.Stretches (front ++ List.replicate n 1) (left ++ front))
    (hy : Shape.InBounds left y) (hv : Shape.InBounds front v) (hu : Shape.InBounds post u) :
    ∃ v', Shape.InBounds front v' ∧
      ((tier ++ front ++ (List.replicate n 1 ++ post)).project (e ++ (y ++ (v ++ u)))).take
          (tier ++ front).length ++
        ((tier ++ front ++ (List.replicate n 1 ++ post)).project (e ++ (y ++ (v ++ u)))).drop
          ((tier ++ front).length + n) =
      tier.project e ++ (v' ++ u) := by
  have hyv := Shape.inBounds_append hy hv
  obtain ⟨v', z, hclamp, hv', hz⟩ :=
    Shape.exists_append_of_inBounds (Shape.stretches_clamp_inBounds hs hyv)
  have hlen : (y ++ v).length = (front ++ List.replicate n 1).length :=
    hyv.length_eq.trans hs.length_eq.symm
  have hall : (y ++ v ++ u).length = (front ++ List.replicate n 1 ++ post).length := by
    rw [List.length_append, hlen, hu.length_eq, ← List.length_append]
  have hproject : (tier ++ front ++ (List.replicate n 1 ++ post)).project
      (e ++ (y ++ (v ++ u))) = tier.project e ++ v' ++ (z ++ u) := by
    rw [List.append_assoc tier, ← List.append_assoc front, ← List.append_assoc y,
      Shape.project_append hall he, Shape.clamp_append hlen, hclamp, Shape.clamp_of_inBounds hu]
    simp only [List.append_assoc]
  have hlead : (tier.project e ++ v').length = (tier ++ front).length := by
    rw [List.length_append, Shape.length_project he, hv'.length_eq, List.length_append]
  have hzlen : (tier.project e ++ v' ++ z).length = (tier ++ front).length + n := by
    rw [List.length_append, hlead, hz.length_eq, List.length_replicate]
  refine ⟨v', hv', ?_⟩
  rw [hproject, List.take_left' hlead, ← List.append_assoc (tier.project e ++ v'),
    List.drop_left' hzlen, List.append_assoc]

private theorem matmul_misplaced [CommRing α] [BEq α] [LawfulBEq α] {l r r' c : Tensor α}
    {bs bt left front post : Shape} {m k n : Nat} {f g : Index → Index → Nat → α}
    (vl : l.View bs (outerTier ++ (left ++ (front ++ post))) [m, k] f)
    (vr : r.View bt (tier ++ front ++ (List.replicate left.length 1 ++ post)) [k, n] fun b w i =>
      g b (w.take (tier ++ front).length ++ w.drop ((tier ++ front).length + left.length)) i)
    (vr' : r'.View bt (tier ++ (List.replicate left.length 1 ++ (front ++ post))) [k, n]
      fun b w i => g b (w.take tier.length ++ w.drop (tier.length + left.length)) i)
    (hs : Shape.Stretches (front ++ List.replicate left.length 1) (left ++ front))
    (hconst : ∀ {b e v v' u i}, Shape.InBounds bt b → Shape.InBounds tier e →
      Shape.InBounds front v → Shape.InBounds front v' → Shape.InBounds post u →
      i < Shape.numel [k, n] → g b (e ++ (v ++ u)) i = g b (e ++ (v' ++ u)) i) :
    l.matmul r = .ok c ↔ l.matmul r' = .ok c := by
  have hplaced : Shape.Stretches (List.replicate left.length 1 ++ (front ++ post))
      (left ++ (front ++ post)) := by
    rw [Shape.stretches_append_iff List.length_replicate]
    exact ⟨Shape.stretches_units _, .refl _⟩
  have hmisplaced : Shape.Stretches (front ++ (List.replicate left.length 1 ++ post))
      (left ++ (front ++ post)) := by
    rw [← List.append_assoc, ← List.append_assoc, Shape.stretches_append_iff hs.length_eq]
    exact ⟨hs, .refl _⟩
  refine vl.matmul_congr vr vr' (fun {middle} => ?_) fun {middle b w i} hm hb hw hi => ?_
  · rw [List.append_assoc tier, Shape.broadcast_append_stretches hmisplaced,
      Shape.broadcast_append_stretches hplaced]
  · rw [List.append_assoc tier, Shape.broadcast_append_stretches hmisplaced] at hm
    obtain ⟨common, hcommon, rfl⟩ := hm
    obtain ⟨e, p, rfl, he, hp⟩ := Shape.exists_append_of_inBounds hw
    obtain ⟨y, q, rfl, hy, hq⟩ := Shape.exists_append_of_inBounds hp
    obtain ⟨v, u, rfl, hv, hu⟩ := Shape.exists_append_of_inBounds hq
    have hexp := (Shape.broadcast_expandsTo hcommon).2.1
    have hle : tier.length ≤ e.length := he.length_eq ▸ Shape.expandsTo_length hexp
    obtain ⟨v', hv', hparts⟩ := parts_project_misplaced left.length hle hs hy hv hu
    rw [hparts, parts_project_inner _ hle hy.length_eq hv hu]
    exact hconst hb (Shape.project_inBounds hexp he) hv' hv hu hi

section Product

variable [Scalar α] [CommRing α]

theorem alignedInner_counted (hfin : ∀ x : α, Scalar.isFinite x = true)
    (hbase : outer.argument.base = inner.target.base) (hdo : outer.isDiagonal = false)
    (hi : inner.Keeps t tier) (hd : inner.isDiagonal = true) :
    ∃ r, outer.alignedInner inner = .ok r ∧
      r.View t.batch ((tier ++ inner.uncounted) ++
          (List.replicate outer.target.intrinsic 1 ++ inner.counted))
        [outer.argument.base.numel, inner.argument.base.numel] fun b m k =>
          t.cell b (m.take (tier ++ inner.uncounted).length ++
            m.drop ((tier ++ inner.uncounted).length + outer.target.intrinsic)) k := by
  have hnum : Shape.numel [outer.argument.base.numel, inner.argument.base.numel] =
      t.base.numel := by
    simp [hi.base_eq, hbase]
  obtain ⟨l, hl, vl⟩ := t.view_self.reshapeBase hnum
  rw [hi.block_diagonal hd, ← List.append_assoc] at vl
  have hplace : l.middle.length - inner.intrinsic = (tier ++ inner.uncounted).length := by
    rw [vl.middle_eq, List.length_append, hi.length_counted hd, Nat.add_sub_cancel]
  unfold alignedInner
  rw [tensor_eq_ok hfin hi.value_eq, hdo]
  simp only [bind, Except.bind, hl, Bool.false_eq_true, if_false]
  rw [hplace]
  exact vl.insertMiddleUnits outer.target.intrinsic

variable [BEq α]

omit [BEq α] [Scalar α] in
theorem middle_of_ofProduct {c : Tensor α} (hdi : (outer.isDiagonal && inner.isDiagonal) = false)
    (hx : 0 < inner.argument.intrinsic) (h : outer.ofProduct inner c = .ok d)
    {pre : Shape} {post : Shape} (hm : c.middle = pre ++ post)
    (hpost : post.length = outer.target.intrinsic + inner.argument.intrinsic) :
    post = outer.target.intrinsicShape ++ inner.argument.intrinsicShape := by
  unfold ofProduct at h
  simp only [hdi, Bool.false_eq_true, if_false] at h
  obtain ⟨result, hresult, h₁⟩ := Update.except_bind_eq_ok.1 h
  obtain ⟨v, hv, hvalue⟩ := Update.except_bind_eq_ok.1 h₁
  obtain ⟨hcheck, rfl⟩ := declareFirst_eq_ok.1 hresult
  have hvm : v.middle = c.middle := by
    unfold Tensor.reshapeBase Tensor.reshape at hv
    split at hv
    · cases hv
      rfl
    · cases hv
  by_contra hne
  have hexp := Shape.expandsTo_length (expandsTo_of_withValue (hvm.trans hm) hpost.symm
    (fun heq => hne (heq.trans (denseShape_eq _))) hvalue)
  have hle := (checkDeclaration_eq_ok.1 hcheck).1
  have hown := length_intrinsicShape hle
  change post.length ≤ outer.target.intrinsicShape.length at hexp
  omega

theorem composeAligned_diagonal_eq_ok (hd : inner.isDiagonal = true) :
    outer.composeAligned inner = .ok d ↔ outer.argument.base = inner.target.base ∧
      ∃ l r c, outer.alignedOuter inner = .ok l ∧ outer.alignedInner inner = .ok r ∧
        l.matmul r = .ok c ∧ outer.ofProduct inner c = .ok d := by
  have hsum : ∀ c : Tensor α, outer.sumShared inner c = .ok c := fun c => by
    unfold sumShared
    simp [hd]
  unfold composeAligned
  simp only [hsum, bind, Except.bind]
  refine checkShared_bind_eq_ok.trans (and_congr_right fun _ => ?_)
  constructor
  · intro h
    obtain ⟨l, hl, h₁⟩ := Update.except_bind_eq_ok.1 h
    obtain ⟨r, hr, h₂⟩ := Update.except_bind_eq_ok.1 h₁
    obtain ⟨c, hc, h₃⟩ := Update.except_bind_eq_ok.1 h₂
    exact ⟨l, r, c, hl, hr, hc, h₃⟩
  · rintro ⟨l, r, c, hl, hr, hc, h⟩
    simp only [hl, hr, hc, h]

omit [Scalar α] [CommRing α] [BEq α] in
theorem Keeps.length_misplaced (hi : inner.Keeps t tier)
    (hux : inner.target.intrinsicShape = inner.argument.intrinsicShape) (n : Nat) :
    (inner.uncounted ++ List.replicate n 1 ++ inner.counted).length =
      n + inner.argument.intrinsic := by
  have hlen := congrArg List.length (uncounted_append_counted inner)
  rw [hux, hi.argument_length] at hlen
  simp only [List.length_append, List.length_replicate] at hlen ⊢
  omega

theorem fits_of_composeAligned (hfin : ∀ x : α, Scalar.isFinite x = true)
    (hdo : outer.isDiagonal = false) (hi : inner.Keeps t tier) (hd : inner.isDiagonal = true)
    (hux : inner.target.intrinsicShape = inner.argument.intrinsicShape)
    (h : outer.composeAligned inner = .ok d) : outer.Fits inner := by
  obtain ⟨hbase, l, r, c, -, hr, hc, hproduct⟩ := (composeAligned_diagonal_eq_ok hd).1 h
  obtain ⟨r', hr', vr⟩ := alignedInner_counted hfin hbase hdo hi hd
  rw [hr] at hr'
  cases hr'
  obtain ⟨-, hexp⟩ := (join_of_matmul hc).expandsTo (t := r) (by simp)
  have hmisplaced := hi.length_misplaced hux outer.target.intrinsic
  have hsplit : r.middle = tier ++ (inner.uncounted ++
      List.replicate outer.target.intrinsic 1 ++ inner.counted) := by
    rw [vr.middle_eq]
    simp only [List.append_assoc]
  have hrank := Shape.expandsTo_length hexp
  rw [hsplit, List.length_append, hmisplaced] at hrank
  obtain ⟨pre, post, hm, hpost⟩ : ∃ pre post, c.middle = pre ++ post ∧
      post.length = outer.target.intrinsic + inner.argument.intrinsic :=
    ⟨_, _, (List.take_append_drop
      (c.middle.length - (outer.target.intrinsic + inner.argument.intrinsic)) _).symm,
      by rw [List.length_drop]; omega⟩
  have hpos : 0 < inner.argument.intrinsic := (hi.settled_stores fun _ => hux).argument_pos
    ((hi.isDiagonal_settled fun _ => hux).trans hd)
  have hblock := middle_of_ofProduct (by rw [hdo]; rfl) hpos hproduct hm hpost
  have hlast := hmisplaced.trans (hpost.symm.trans (congrArg List.length hblock))
  rw [hm, hsplit, hblock, ← hux, ← uncounted_append_counted inner,
    ← List.append_assoc outer.target.intrinsicShape] at hexp
  rw [← hux, ← uncounted_append_counted inner,
    ← List.append_assoc outer.target.intrinsicShape] at hlast
  have hstretch := Shape.stretches_of_append hexp hlast
  have hfront : (inner.uncounted ++ List.replicate outer.target.intrinsic 1).length =
      (outer.target.intrinsicShape ++ inner.uncounted).length := by
    simp only [List.length_append] at hlast ⊢
    omega
  rw [Shape.stretches_append_iff hfront] at hstretch
  exact (Shape.expandsTo_iff_stretches hfront).2 hstretch.1

variable [LawfulBEq α]

theorem aligned_settled (hfin : ∀ x : α, Scalar.isFinite x = true)
    (ho : outer.Keeps s outerTier) (hdo : outer.isDiagonal = false) (hi : inner.Assigned)
    (hd : inner.isDiagonal = true)
    (hux : inner.target.intrinsicShape = inner.argument.intrinsicShape)
    (hshape : outer.argument.intrinsicShape = inner.target.intrinsicShape)
    (hbase : outer.argument.base = inner.target.base) (hfits : outer.Fits inner) :
    ∃ l r r', outer.alignedOuter inner = .ok l ∧ outer.alignedOuter inner.settled = .ok l ∧
      outer.alignedInner inner = .ok r ∧ outer.alignedInner inner.settled = .ok r' ∧
      ∀ {c}, l.matmul r = .ok c ↔ l.matmul r' = .ok c := by
  obtain ⟨t, tier, hkeeps, hconst⟩ := hi.constant hd
  have hds := (hkeeps.isDiagonal_settled fun _ => hux).trans hd
  have hstores := hkeeps.settled_stores fun _ => hux
  have hso := ho.stores (fun h => absurd h (by simp [hdo])) fun h => absurd h (by simp [hdo])
  have hbase' : outer.argument.base = inner.settled.target.base := hbase
  obtain ⟨l, hl, vl⟩ := alignedOuter_view hfin hso hstores
  obtain ⟨r, hr, vr⟩ := alignedInner_counted hfin hbase hdo hkeeps hd
  obtain ⟨r', hr', vr'⟩ := alignedInner_view hfin hbase' hso hstores
  have hl' : outer.alignedOuter inner = .ok l := by
    rw [← hl]
    unfold alignedOuter
    rw [hd, hds]
    rfl
  have hown : outer.block = outer.target.intrinsicShape ++ (inner.uncounted ++ inner.counted) := by
    rw [block, hdo, uncounted_append_counted, hshape]
    rfl
  have hsettled : inner.settled.block = inner.uncounted ++ inner.counted := by
    rw [block, if_pos hds, uncounted_append_counted]
    rfl
  have hpart : outer.outerPart = outer.target.intrinsicShape := by
    rw [outerPart, hdo]
    rfl
  have hempty : inner.settled.innerPart = [] := if_pos hds
  have hylen := ho.target_length
  rw [hown, hempty, List.length_nil, List.replicate_zero, List.append_nil] at vl
  rw [hsettled, hpart, hylen] at vr'
  have hfront : (inner.uncounted ++ List.replicate outer.target.intrinsic 1).length =
      (outer.target.intrinsicShape ++ inner.uncounted).length := by
    rw [List.length_append, List.length_append, List.length_replicate, hylen, Nat.add_comm]
  have hstretch := (Shape.expandsTo_iff_stretches hfront).1 hfits
  have hnum : Shape.numel [outer.argument.base.numel, inner.argument.base.numel] =
      t.base.numel := by
    simp [hkeeps.base_eq, hbase]
  rw [← hylen] at vr vr' hstretch
  exact ⟨l, r, r', hl', hl, hr, hr', matmul_misplaced vl vr vr' hstretch
    fun hb he hv hv' hu hi => hconst hb he hv hv' hu (hnum ▸ hi)⟩

/-- Where the misplaced dimensions fit, the composition is that for the full count. -/
theorem composeAligned_settled (hfin : ∀ x : α, Scalar.isFinite x = true)
    (ho : outer.Keeps s outerTier) (hdo : outer.isDiagonal = false) (hi : inner.Assigned)
    (hd : inner.isDiagonal = true)
    (hux : inner.target.intrinsicShape = inner.argument.intrinsicShape)
    (hshape : outer.argument.intrinsicShape = inner.target.intrinsicShape)
    (hfits : outer.Fits inner) :
    outer.composeAligned inner = .ok d ↔ outer.composeAligned inner.settled = .ok d := by
  obtain ⟨t, tier, hkeeps⟩ := keeps_of_assigned hi
  have hds := (hkeeps.isDiagonal_settled fun _ => hux).trans hd
  rw [composeAligned_diagonal_eq_ok hd, composeAligned_diagonal_eq_ok hds]
  refine and_congr_right fun hbase => ?_
  obtain ⟨l, r, r', hl, hl', hr, hr', hmatmul⟩ :=
    aligned_settled hfin ho hdo hi hd hux hshape hbase hfits
  have hproduct : ∀ c : Tensor α, outer.ofProduct inner.settled c = outer.ofProduct inner c := by
    intro c
    unfold ofProduct
    rw [hds, hd]
    rfl
  constructor
  · rintro ⟨l₁, r₁, c, hl₁, hr₁, hc, hok⟩
    rw [hl] at hl₁
    rw [hr] at hr₁
    cases hl₁
    cases hr₁
    exact ⟨l, r', c, hl', hr', hmatmul.1 hc, (hproduct c).trans hok⟩
  · rintro ⟨l₁, r₁, c, hl₁, hr₁, hc, hok⟩
    rw [hl'] at hl₁
    rw [hr'] at hr₁
    cases hl₁
    cases hr₁
    exact ⟨l, r, c, hl, hr, hmatmul.2 hc, (hproduct c).symm.trans hok⟩

/-- The chain rule sees the count of an assigned diagonal factor only where it misplaces the
dimensions of a dense outer target. -/
theorem compose_settled (hfin : ∀ x : α, Scalar.isFinite x = true)
    (ho : outer.Keeps s outerTier) (hi : inner.Assigned) (hd : inner.isDiagonal = true)
    (hux : inner.target.intrinsicShape = inner.argument.intrinsicShape)
    (hshape : outer.argument.intrinsicShape = inner.target.intrinsicShape) :
    outer.compose inner = .ok d ↔
      outer.compose inner.settled = .ok d ∧ (outer.isDiagonal = true ∨ outer.Fits inner) := by
  obtain ⟨t, tier, hkeeps⟩ := keeps_of_assigned hi
  have hcounts : outer.argument.intrinsic = inner.target.intrinsic := by
    rw [← ho.argument_length, hshape, hkeeps.target_length]
  have hcounts' : outer.argument.intrinsic = inner.settled.target.intrinsic := hcounts
  rw [compose_of_intrinsic_eq hcounts, compose_of_intrinsic_eq hcounts']
  cases hdo : outer.isDiagonal with
  | true =>
    rw [composeAligned_settled_right (hkeeps.isDiagonal_settled fun _ => hux) hdo]
    simp
  | false =>
    simp only [Bool.false_eq_true, false_or]
    constructor
    · intro h
      have hfits := fits_of_composeAligned hfin hdo hkeeps hd hux h
      exact ⟨(composeAligned_settled hfin ho hdo hi hd hux hshape hfits).1 h, hfits⟩
    · rintro ⟨h, hfits⟩
      exact (composeAligned_settled hfin ho hdo hi hd hux hshape hfits).2 h

/-- The count of a broadcast value does not change what the chain rule computes, but whether it
computes it. For two assigned diagonal factors of the same quantities that store the same value
with different counts, results are equal where both are there. Each result is that of the full
count, and beside a dense outer factor it is there only where the dimensions that its count
misplaces fit the outer block. So both factors mean the same exactly when both fit or neither
does, or when the outer factor is diagonal or the full count has no result either. -/
theorem compose_recount {inner' : Derivative α 1} (hfin : ∀ x : α, Scalar.isFinite x = true)
    (ho : outer.Reached) (hi : inner.Assigned) (hi' : inner'.Assigned)
    (hd : inner.isDiagonal = true) (hd' : inner'.isDiagonal = true)
    (htarget : inner'.target = inner.target) (harguments : inner'.arguments = inner.arguments)
    (hvalue : inner'.value = inner.value)
    (hux : inner.target.intrinsicShape = inner.argument.intrinsicShape)
    (hshape : outer.argument.intrinsicShape = inner.target.intrinsicShape) :
    (∀ d d', outer.compose inner = .ok d → outer.compose inner' = .ok d' → d = d') ∧
      (∀ d, outer.compose inner = .ok d ↔ outer.compose inner.settled = .ok d ∧
        (outer.isDiagonal = true ∨ outer.Fits inner)) ∧
      (inner.intrinsic = inner.target.intrinsic → outer.Fits inner) ∧
      ((∀ d, outer.compose inner = .ok d ↔ outer.compose inner' = .ok d) ↔
        ((∃ d, outer.compose inner.settled = .ok d) →
          (outer.isDiagonal = true ∨ (outer.Fits inner ↔ outer.Fits inner')))) := by
  have hsame : inner'.settled = inner.settled := by
    unfold settled
    simp only [hd, hd', htarget, harguments, hvalue, if_true]
  have hargument : inner'.argument = inner.argument := by
    rw [argument, harguments]
    rfl
  have hsettled : ∀ {e d : Derivative α 1}, e.Assigned → e.isDiagonal = true →
      e.target.intrinsicShape = e.argument.intrinsicShape →
      outer.argument.intrinsicShape = e.target.intrinsicShape →
      (outer.compose e = .ok d ↔ outer.compose e.settled = .ok d ∧
        (outer.isDiagonal = true ∨ outer.Fits e)) := by
    intro e d he hde hue hse
    constructor
    · intro h
      obtain ⟨s, -, hs, -⟩ := tensors_of_compose h
      obtain ⟨outerTier, hkeeps⟩ := ho.exists_keeps hs
      exact (compose_settled hfin hkeeps he hde hue hse).1 h
    · intro h
      obtain ⟨s, -, hs, -⟩ := tensors_of_compose h.1
      obtain ⟨outerTier, hkeeps⟩ := ho.exists_keeps hs
      exact (compose_settled hfin hkeeps he hde hue hse).2 h
  have hfirst : ∀ {d}, outer.compose inner = .ok d ↔ outer.compose inner.settled = .ok d ∧
      (outer.isDiagonal = true ∨ outer.Fits inner) := hsettled hi hd hux hshape
  have hsecond : ∀ {d}, outer.compose inner' = .ok d ↔ outer.compose inner.settled = .ok d ∧
      (outer.isDiagonal = true ∨ outer.Fits inner') :=
    hsame ▸ hsettled hi' hd' (by rw [htarget, hargument, hux]) (by rw [htarget, hshape])
  refine ⟨fun d d' h h' => ?_, fun d => hfirst, fun hfull => ?_, ?_⟩
  · exact Except.ok.inj ((hfirst.1 h).1.symm.trans (hsecond.1 h').1)
  · exact fits_full ho.wellFormed.target_le hfull
  · constructor
    · rintro h ⟨d, hok⟩
      have hboth := h d
      rw [hfirst, hsecond, and_congr_right_iff] at hboth
      by_cases hdo : outer.isDiagonal = true
      · exact .inl hdo
      · simpa [hdo] using hboth hok
    · intro h d
      rw [hfirst, hsecond]
      refine and_congr_right fun hok => ?_
      rcases h ⟨d, hok⟩ with hdo | hfits
      · simp [hdo]
      · rw [hfits]

end Product

def tallDense : Derivative ℚ 1 :=
  ofAssignment 2 ⟨"y", [3], 1, []⟩ ⟨"u", [2], 1, []⟩ ⟨[], [3, 2], [], #[1, 2, 3, 4, 5, 6], by decide⟩

def squareDense : Derivative ℚ 1 :=
  ofAssignment 2 ⟨"y", [2], 1, []⟩ ⟨"u", [2], 1, []⟩ ⟨[], [2, 2], [], #[2, 1, 4, 3], rfl⟩

/-- A multiple of the identity, declared with the count `m`. -/
def constantDiagonal (m : Nat) : Derivative ℚ 1 :=
  ofAssignment m ⟨"u", [2], 1, []⟩ ⟨"x", [2], 1, []⟩ (Tensor.full [] [] [] 5)

/-- At square sizes the misplaced dimension fits. -/
theorem squareDense_recount : squareDense.Reached ∧ (constantDiagonal 1).Assigned ∧
    (constantDiagonal 0).Assigned ∧ (constantDiagonal 0).value = (constantDiagonal 1).value ∧
    ∃ d, squareDense.compose (constantDiagonal 1) = .ok d ∧
      squareDense.compose (constantDiagonal 0) = .ok d := by
  have ho : squareDense.Reached := reached_ofAssignment rfl
  have hi : (constantDiagonal 1).Assigned := ⟨_, _, rfl, Prod.ext rfl rfl⟩
  have hi' : (constantDiagonal 0).Assigned := ⟨_, _, rfl, Prod.ext rfl rfl⟩
  have hfits : ∀ m, m = 0 ∨ m = 1 → squareDense.Fits (constantDiagonal m) := by
    rintro m (rfl | rfl) <;> rfl
  obtain ⟨d, hok, -⟩ := Update.exists_of_toOption_map
    (x := squareDense.compose (constantDiagonal 1)) (f := fun _ => ()) (c := ()) (by decide +kernel)
  obtain ⟨-, -, -, hiff⟩ := compose_recount (fun _ => rfl) ho hi hi' rfl rfl rfl rfl rfl rfl rfl
  have hsame := hiff.2 fun _ =>
    .inr ⟨fun _ => hfits 0 (.inl rfl), fun _ => hfits 1 (.inr rfl)⟩
  exact ⟨ho, hi, hi', rfl, d, hok, (hsame d).1 hok⟩

/-- With more rows the smaller count has no result. -/
theorem tallDense_recount : tallDense.Reached ∧ (constantDiagonal 1).Assigned ∧
    (constantDiagonal 0).Assigned ∧ tallDense.InForm ∧
    (constantDiagonal 1).isDiagonal = true ∧ (constantDiagonal 0).isDiagonal = true ∧
    (constantDiagonal 0).target = (constantDiagonal 1).target ∧
    (constantDiagonal 0).arguments = (constantDiagonal 1).arguments ∧
    (constantDiagonal 0).value = (constantDiagonal 1).value ∧
    (constantDiagonal 1).target.intrinsicShape = (constantDiagonal 1).argument.intrinsicShape ∧
    tallDense.argument.intrinsicShape = (constantDiagonal 1).target.intrinsicShape ∧
    (∃ d, tallDense.compose (constantDiagonal 1) = .ok d) ∧
    ∀ d, tallDense.compose (constantDiagonal 0) ≠ .ok d := by
  obtain ⟨d, hok, -⟩ := Update.exists_of_toOption_map
    (x := tallDense.compose (constantDiagonal 1)) (f := fun _ => ()) (c := ()) (by decide +kernel)
  have herror : ((tallDense.compose (constantDiagonal 0)).map fun _ => ()).toOption = none := by
    decide +kernel
  refine ⟨reached_ofAssignment rfl, ⟨_, _, rfl, Prod.ext rfl rfl⟩, ⟨_, _, rfl, Prod.ext rfl rfl⟩,
    .inl rfl, rfl, rfl, rfl, rfl, rfl, rfl, rfl, ⟨d, hok⟩, fun d hd => ?_⟩
  rw [hd] at herror
  cases herror

end TieredCalculus.Derivative
