import TieredCalculus.Proofs.Derivative.Composition
import TieredCalculus.Proofs.Derivative.Expansion
import TieredCalculus.Proofs.Rational

/-! # The chain rule

The derivative that the product is declared as stores the sum over the shared quantity, and
its dense form is the composition of the dense forms of the factors.
-/

namespace TieredCalculus.Derivative

open Tensor

variable {α : Type} {outer inner : Derivative α 1} {s t : Tensor α}
  {outerTier innerTier : Shape}

/-! ## The stored result -/

section Stored

variable [Zero α]

theorem withValue_dense {n : Nat} {d : Derivative α n} {v : Tensor α} {tier : Shape}
    (hb : v.base = d.base) (hm : v.middle = tier ++ d.denseShape)
    (hc : d.intrinsic = d.denseShape.length) :
    d.withValue v = .ok { d with value := some v } :=
  withValue_eq_ok.2 ⟨hb, v, expandIntrinsic_dense hm hc, rfl⟩

theorem expandsTo_of_withValue {d d' : Derivative α 1} {v : Tensor α} {tier block : Shape}
    (hm : v.middle = tier ++ block) (hc : d.intrinsic = block.length)
    (hne : block ≠ d.denseShape) (h : d.withValue v = .ok d') :
    block.expandsTo d.target.intrinsicShape = true := by
  obtain ⟨hpad, hlen⟩ := padIntrinsic_eq_self hm hc
  obtain ⟨-, w, hw, -⟩ := withValue_eq_ok.1 h
  unfold expandIntrinsic at hw
  rw [hpad] at hw
  simp only [bind, Except.bind, hlen] at hw
  rw [hm, List.drop_left, if_neg hne] at hw
  by_contra hexp
  rw [if_neg hexp] at hw
  cases hw

theorem withValue_expand {d : Derivative α 1} {v : Tensor α} {tier block : Shape}
    (hb : v.base = d.base) (hm : v.middle = tier ++ block) (hc : d.intrinsic = block.length)
    (hlen : d.target.intrinsicShape.length = block.length) (hne : block ≠ d.denseShape)
    (hexp : block.expandsTo d.target.intrinsicShape = true) :
    ∃ w, d.withValue v = .ok { d with value := some w } ∧
      w.View v.batch (tier ++ d.target.intrinsicShape) v.base fun b m k =>
        v.cell b ((tier ++ block).project m) k := by
  obtain ⟨w, hw, vw⟩ := expandIntrinsic_own hm hc hne hexp
  refine ⟨w, withValue_eq_ok.2 ⟨hb, w, hw, rfl⟩, vw.congr fun {b m k} _ hm' _ => ?_⟩
  obtain ⟨e, p, rfl, he, hp⟩ := Shape.exists_append_of_inBounds hm'
  have hplen : p.length = block.length := hp.length_eq.trans hlen
  rw [List.take_left' he.length_eq, List.drop_left' he.length_eq, Shape.project_of_length hplen,
    Shape.project_append hplen (Nat.le_of_eq he.length_eq.symm), Shape.project_of_inBounds he]

theorem withValue_own {d : Derivative α 1} {v : Tensor α} {tier : Shape} (hb : v.base = d.base)
    (hm : v.middle = tier ++ d.target.intrinsicShape)
    (hc : d.intrinsic = d.target.intrinsicShape.length) :
    ∃ w, d.withValue v = .ok { d with value := some w } ∧
      w.View v.batch v.middle v.base v.cell := by
  by_cases hdense : d.target.intrinsicShape = d.denseShape
  · rw [hdense] at hm hc
    exact ⟨v, withValue_dense hb hm hc, v.view_self⟩
  · obtain ⟨w, hw, vw⟩ := withValue_expand hb hm hc rfl hdense (Shape.expandsTo_refl _)
    refine ⟨w, hw, ?_⟩
    rw [hm]
    refine vw.congr fun {b m k} _ hm' _ => ?_
    rw [Shape.project_of_inBounds hm']

end Stored

theorem Stores.intrinsic_le {d : Derivative α 1} {v : Tensor α} {tier : Shape}
    (h : d.Stores v tier) : d.target.intrinsic ≤ d.target.middle.length ∧
      d.argument.intrinsic ≤ d.argument.middle.length := by
  have ht := h.target_length
  have hx := h.argument_length
  unfold Quantity.intrinsicShape at ht hx
  rw [List.length_drop] at ht hx
  omega

theorem Stores.argument_pos {d : Derivative α 1} {v : Tensor α} {tier : Shape}
    (h : d.Stores v tier) (hd : d.isDiagonal = true) : 0 < d.argument.intrinsic := by
  have hcount := h.count
  unfold block at hcount
  rw [if_pos hd, h.target_length] at hcount
  unfold isDiagonal at hd
  rw [decide_eq_true_eq, total_eq] at hd
  omega

variable [CommRing α]

/-- The derivative is of the outer target by the inner argument, in the form that the factors
give it, and stores the cells of the product. -/
structure ResultOf (outer inner : Derivative α 1) (c : Tensor α) (tier : Shape)
    (d : Derivative α 1) (w : Tensor α) : Prop where
  target_eq : d.target = outer.target
  argument_eq : d.argument = inner.argument
  isDiagonal_eq : d.isDiagonal = (outer.isDiagonal && inner.isDiagonal)
  stores : d.Stores w tier
  view : w.View c.batch c.middle (outer.target.base ++ inner.argument.base) c.cell

omit [CommRing α] in
private theorem reshapeBase_product [Zero α] {c : Tensor α}
    (hbase : c.base = [outer.target.base.numel, inner.argument.base.numel]) : ∃ v,
    c.reshapeBase (outer.target.base ++ inner.argument.base) = .ok v ∧
      v.View c.batch c.middle (outer.target.base ++ inner.argument.base) c.cell := by
  have hnum : (outer.target.base ++ inner.argument.base).numel = c.base.numel := by
    simp [hbase]
  exact c.view_self.reshapeBase hnum

section Product

variable (ho : outer.Stores s outerTier) (hi : inner.Stores t innerTier) {c : Tensor α}
  {tier : Shape} (hbase : c.base = [outer.target.base.numel, inner.argument.base.numel])
include ho hi hbase

theorem ofProduct_diagonal
    (hshape : outer.argument.intrinsicShape = inner.target.intrinsicShape)
    (hd : (outer.isDiagonal && inner.isDiagonal) = true)
    (hmiddle : c.middle = tier ++ outer.target.intrinsicShape) :
    ∃ d w, outer.ofProduct inner c = .ok d ∧ outer.ResultOf inner c tier d w := by
  obtain ⟨hdo, hdi⟩ := Bool.and_eq_true_iff.1 hd
  obtain ⟨v, hv, vv⟩ := reshapeBase_product hbase
  have hylen := ho.target_length
  let d₀ : Derivative α 1 := ⟨outer.target.intrinsic, outer.target, #v[inner.argument], none⟩
  have hdecl : declareFirst outer.target.intrinsic outer.target inner.argument = .ok d₀ :=
    declareFirst_eq_ok.2 ⟨checkDeclaration_eq_ok.2
      ⟨ho.intrinsic_le.1, hi.intrinsic_le.2, .inl (Nat.le_refl _)⟩, rfl⟩
  have hvb : v.base = d₀.base := vv.base_eq.trans (base_eq d₀).symm
  obtain ⟨w, hw, vw⟩ := withValue_own hvb (vv.middle_eq.trans hmiddle) hylen.symm
  have hdiag : ({ d₀ with value := some w } : Derivative α 1).isDiagonal = true := by
    unfold isDiagonal
    rw [decide_eq_true_eq, total_eq]
    exact Nat.lt_add_of_pos_right (hi.argument_pos hdi)
  refine ⟨{ d₀ with value := some w }, w, ?_, rfl, rfl, hdiag.trans hd.symm, ?_, ?_⟩
  · unfold ofProduct
    simp only [hd, if_true, bind, Except.bind, hdecl, hv]
    exact hw
  · refine ⟨rfl, vw.base_eq.trans vv.base_eq, ?_, ?_, hylen, hi.argument_length, fun _ => ?_⟩
    · unfold block
      rw [if_pos hdiag, vw.middle_eq, vv.middle_eq, hmiddle]
    · unfold block
      rw [if_pos hdiag]
      exact hylen.symm
    · exact (ho.diagonal hdo).trans (hshape.trans (hi.diagonal hdi))
  · refine ⟨vw.batch_eq.trans vv.batch_eq, vw.middle_eq.trans vv.middle_eq,
      vw.base_eq.trans vv.base_eq, fun hib him hk => ?_⟩
    rw [vw.cell_eq (vv.batch_eq ▸ hib) (vv.middle_eq ▸ him) (vv.base_eq ▸ hk),
      vv.cell_eq hib him hk]

theorem ofProduct_dense (hd : (outer.isDiagonal && inner.isDiagonal) = false)
    (hmiddle : c.middle =
      tier ++ (outer.target.intrinsicShape ++ inner.argument.intrinsicShape)) :
    ∃ d w, outer.ofProduct inner c = .ok d ∧ outer.ResultOf inner c tier d w := by
  obtain ⟨v, hv, vv⟩ := reshapeBase_product hbase
  let d₀ : Derivative α 1 := ⟨outer.target.intrinsic + inner.argument.intrinsic, outer.target,
    #v[inner.argument], none⟩
  have hdecl : declareFirst (outer.target.intrinsic + inner.argument.intrinsic) outer.target
      inner.argument = .ok d₀ :=
    declareFirst_eq_ok.2 ⟨checkDeclaration_eq_ok.2
      ⟨ho.intrinsic_le.1, hi.intrinsic_le.2, .inr rfl⟩, rfl⟩
  have hvb : v.base = d₀.base := vv.base_eq.trans (base_eq d₀).symm
  have hshape₀ : d₀.denseShape =
      outer.target.intrinsicShape ++ inner.argument.intrinsicShape := denseShape_eq d₀
  have hcount : d₀.intrinsic = d₀.denseShape.length := by
    rw [hshape₀, List.length_append, ho.target_length, hi.argument_length]
  have hw := withValue_dense hvb ((vv.middle_eq.trans hmiddle).trans (by rw [hshape₀])) hcount
  have hdiag : ({ d₀ with value := some v } : Derivative α 1).isDiagonal = false := by
    unfold isDiagonal
    rw [decide_eq_false_iff_not, total_eq]
    exact Nat.lt_irrefl _
  have hblock : ({ d₀ with value := some v } : Derivative α 1).block =
      outer.target.intrinsicShape ++ inner.argument.intrinsicShape := by
    unfold block
    rw [hdiag]
    rfl
  refine ⟨{ d₀ with value := some v }, v, ?_, rfl, rfl, hdiag.trans hd.symm, ?_, vv⟩
  · unfold ofProduct
    simp only [hd, Bool.false_eq_true, if_false, bind, Except.bind, hdecl, hv]
    exact hw
  · refine ⟨rfl, vv.base_eq, ?_, ?_, ho.target_length, hi.argument_length, fun h => ?_⟩
    · rw [hblock, vv.middle_eq, hmiddle]
    · rw [hblock, ← hshape₀]
      exact hcount
    · rw [hdiag] at h
      cases h

theorem ofProduct_stores
    (hshape : outer.argument.intrinsicShape = inner.target.intrinsicShape)
    (hmiddle : c.middle = tier ++
      if outer.isDiagonal && inner.isDiagonal then outer.target.intrinsicShape
      else outer.target.intrinsicShape ++ inner.argument.intrinsicShape) :
    ∃ d w, outer.ofProduct inner c = .ok d ∧ outer.ResultOf inner c tier d w := by
  cases hd : outer.isDiagonal && inner.isDiagonal with
  | true =>
      rw [hd, if_pos rfl] at hmiddle
      exact ofProduct_diagonal ho hi hbase hshape hd hmiddle
  | false =>
      rw [hd, if_neg Bool.false_ne_true] at hmiddle
      exact ofProduct_dense ho hi hbase hd hmiddle

end Product

/-! ## The sum over the shared quantity -/

/-- The product of the dense forms at one index of the shared quantity. -/
def fullPair (outer inner : Derivative α 1) (s t : Tensor α) (outerTier innerTier : Shape)
    (b e p u q : Index) (k : Nat) : α :=
  ((List.range outer.argument.base.numel).map fun l =>
    outer.fullCell s (s.batch.project b) (outerTier.project e) p u
        (k / inner.argument.base.numel * outer.argument.base.numel + l) *
      inner.fullCell t (t.batch.project b) (innerTier.project e) u q
        (l * inner.argument.base.numel + k % inner.argument.base.numel)).sum

theorem fullCell_eq_outer (d : Derivative α 1) (b e p u : Index) (k : Nat) :
    d.fullCell t b e p u k =
      if d.isDiagonal = true → p = u then
        t.cell b (e ++ ((if d.isDiagonal then [] else p) ++ u)) k
      else 0 := by
  unfold fullCell
  by_cases hd : d.isDiagonal = true
  · by_cases hpu : p = u
    · simp [hd, hpu]
    · simp [hd, hpu]
  · simp [hd]

theorem fullCell_eq_inner (d : Derivative α 1) (b e u q : Index) (k : Nat) :
    d.fullCell t b e u q k =
      if d.isDiagonal = true → u = q then
        t.cell b (e ++ (u ++ if d.isDiagonal then [] else q)) k
      else 0 := by
  unfold fullCell
  by_cases hd : d.isDiagonal = true
  · by_cases huq : u = q
    · simp [hd, huq]
    · simp [hd, huq]
  · simp [hd]

/-- A diagonal factor lets a term count only where its two indices agree. -/
theorem fullPair_eq (b e p u q : Index) (k : Nat) :
    fullPair outer inner s t outerTier innerTier b e p u q k =
      if (outer.isDiagonal = true → p = u) ∧ (inner.isDiagonal = true → u = q) then
        pairCell outer inner s t outerTier innerTier b e (if outer.isDiagonal then [] else p) u
          (if inner.isDiagonal then [] else q) k
      else 0 := by
  unfold fullPair pairCell
  simp only [fullCell_eq_outer outer, fullCell_eq_inner inner]
  by_cases ho : outer.isDiagonal = true → p = u
  · by_cases hi : inner.isDiagonal = true → u = q
    · simp only [if_pos ho, if_pos hi, if_pos (And.intro ho hi)]
    · rw [if_neg (not_and_of_not_right _ hi)]
      simp only [if_neg hi, mul_zero]
      exact List.sum_map_zero
  · rw [if_neg (not_and_of_not_left _ ho)]
    simp only [if_neg ho, zero_mul]
    exact List.sum_map_zero

theorem sumShared_dense (ho : outer.Stores s outerTier) (hi : inner.Stores t innerTier)
    (hdo : outer.isDiagonal = false) (hdi : inner.isDiagonal = false) {c : Tensor α} {tier : Shape}
    (hm : c.middle = tier ++ (outer.target.intrinsicShape ++
      (outer.argument.intrinsicShape ++ inner.argument.intrinsicShape))) :
    ∃ r, outer.sumShared inner c = .ok r ∧
      r.View c.batch (tier ++ (outer.target.intrinsicShape ++ inner.argument.intrinsicShape)) c.base
        fun b m k => sumOver outer.argument.intrinsicShape fun u =>
          c.cell b (m.take (tier ++ outer.target.intrinsicShape).length ++
            (u ++ m.drop (tier ++ outer.target.intrinsicShape).length)) k := by
  have hulen := ho.argument_length
  have hxlen := hi.argument_length
  have hself := c.view_self
  rw [hm, ← List.append_assoc tier] at hself
  unfold sumShared
  simp only [hdo, hdi, Bool.not_false, Bool.and_true, decide_eq_true_eq]
  rw [← List.append_assoc tier]
  by_cases hpos : 0 < outer.argument.intrinsic
  · rw [if_pos hpos]
    obtain ⟨r, hr, vr⟩ := hself.sumMiddle
    have hstart : c.middle.length - outer.argument.intrinsic - inner.argument.intrinsic =
        (tier ++ outer.target.intrinsicShape).length := by
      rw [hm]
      simp only [List.length_append]
      omega
    rw [hstart, ← hulen]
    exact ⟨r, hr, vr⟩
  · rw [if_neg hpos]
    have hnil : outer.argument.intrinsicShape = [] := List.length_eq_zero_iff.1 (by omega)
    rw [hnil, List.nil_append] at hself
    refine ⟨c, rfl, hself.congr fun {b m k} _ _ _ => ?_⟩
    rw [hnil, sumOver_nil, List.nil_append, List.take_append_drop]

theorem sumShared_diagonal (hd : (!outer.isDiagonal && !inner.isDiagonal) = false) (c : Tensor α) :
    outer.sumShared inner c = .ok c := by
  unfold sumShared
  dsimp only
  rw [Bool.and_assoc, hd, Bool.and_false]
  rfl

/-- The tensor has the block of the result's form and holds the sums of the products of the
dense forms over the intrinsic indices of the shared quantity. -/
structure HoldsSums (outer inner : Derivative α 1) (s t : Tensor α)
    (outerTier innerTier tier : Shape) (c r : Tensor α) : Prop where
  batch_eq : r.batch = c.batch
  base_eq : r.base = c.base
  middle_eq : r.middle = tier ++
    if outer.isDiagonal && inner.isDiagonal then outer.target.intrinsicShape
    else outer.target.intrinsicShape ++ inner.argument.intrinsicShape
  cell_eq : ∀ {b e p q k}, Shape.InBounds c.batch b → Shape.InBounds tier e →
    Shape.InBounds outer.target.intrinsicShape p →
    Shape.InBounds inner.argument.intrinsicShape q → k < c.base.numel →
    (if outer.isDiagonal && inner.isDiagonal then if p = q then r.cell b (e ++ p) k else 0
      else r.cell b (e ++ (p ++ q)) k) =
      sumOver outer.argument.intrinsicShape fun u =>
        fullPair outer inner s t outerTier innerTier b e p u q k

section Sums

variable (ho : outer.Stores s outerTier) (hi : inner.Stores t innerTier)
  (hshape : outer.argument.intrinsicShape = inner.target.intrinsicShape) {c : Tensor α}
  {tier : Shape}
  (hm : c.middle =
    tier ++ (outer.outerPart ++ (outer.argument.intrinsicShape ++ inner.innerPart)))
  (hcell : ∀ {b e p u q k}, Shape.InBounds c.batch b → Shape.InBounds tier e →
    Shape.InBounds outer.outerPart p → Shape.InBounds outer.argument.intrinsicShape u →
    Shape.InBounds inner.innerPart q → k < c.base.numel →
    c.cell b (e ++ (p ++ (u ++ q))) k =
      pairCell outer inner s t outerTier innerTier b e p u q k)
include ho hi hm hcell

theorem holdsSums_dense (hdo : outer.isDiagonal = false) (hdi : inner.isDiagonal = false) :
    ∃ r, outer.sumShared inner c = .ok r ∧
      HoldsSums outer inner s t outerTier innerTier tier c r := by
  unfold outerPart innerPart at hm hcell
  simp only [hdo, hdi, Bool.false_eq_true, if_false] at hm hcell
  obtain ⟨r, hr, vr⟩ := sumShared_dense ho hi hdo hdi hm
  refine ⟨r, hr, vr.batch_eq, vr.base_eq, ?_, fun {b e p q k} hb he hp hq hk => ?_⟩
  · simp only [hdo, hdi, Bool.and_false, Bool.false_eq_true, if_false]
    exact vr.middle_eq
  · simp only [fullPair_eq, hdo, hdi, Bool.and_false, Bool.false_eq_true, if_false]
    have hlen : (e ++ p).length = (tier ++ outer.target.intrinsicShape).length := by
      rw [List.length_append, List.length_append, he.length_eq, hp.length_eq]
    rw [vr.cell_eq hb (Shape.inBounds_append he (Shape.inBounds_append hp hq)) hk]
    apply sumOver_congr
    intro u hu
    rw [← List.append_assoc e, List.take_left' hlen, List.drop_left' hlen, List.append_assoc,
      hcell hb he hp hu hq hk]
    simp

include hshape

omit ho in
theorem holdsSums_diagonal_inner (hdo : outer.isDiagonal = false)
    (hdi : inner.isDiagonal = true) :
    HoldsSums outer inner s t outerTier innerTier tier c c := by
  have hux := hshape.trans (hi.diagonal hdi)
  unfold outerPart innerPart at hm hcell
  simp only [hdo, hdi, Bool.false_eq_true, if_false, if_true] at hm hcell
  refine ⟨rfl, rfl, ?_, fun {b e p q k} hb he hp hq hk => ?_⟩
  · simp only [hdo, Bool.false_and, Bool.false_eq_true, if_false]
    rw [hm, hux, List.append_nil]
  · simp only [fullPair_eq, hdo, hdi, Bool.false_and, Bool.false_eq_true, if_false, if_true]
    have hqu : Shape.InBounds outer.argument.intrinsicShape q := hux ▸ hq
    have hread := hcell hb he hp hqu (q := []) trivial hk
    rw [List.append_nil] at hread
    rw [sumOver_eq_single hqu, hread]
    · simp
    · intro u _ hne
      simp [hne]

omit hi hshape in
theorem holdsSums_diagonal_outer (hdo : outer.isDiagonal = true) :
    HoldsSums outer inner s t outerTier innerTier tier c c := by
  have hyu := ho.diagonal hdo
  unfold outerPart at hm hcell
  simp only [hdo, if_true, List.nil_append] at hm hcell
  refine ⟨rfl, rfl, ?_, fun {b e p q k} hb he hp hq hk => ?_⟩
  · rw [hm, ← hyu, hdo]
    unfold innerPart
    cases inner.isDiagonal with
    | true => simp
    | false => simp
  · have hpu : Shape.InBounds outer.argument.intrinsicShape p := hyu ▸ hp
    have hq' : Shape.InBounds inner.innerPart (if inner.isDiagonal then [] else q) := by
      unfold innerPart
      cases inner.isDiagonal with
      | true => trivial
      | false => exact hq
    have hread := hcell hb he (p := []) trivial hpu hq' hk
    rw [List.nil_append] at hread
    rw [sumOver_eq_single hpu, fullPair_eq, hdo, if_pos rfl, ← hread]
    · cases inner.isDiagonal with
      | true => simp
      | false => simp
    · intro u _ hne
      simp [fullPair_eq, hdo, Ne.symm hne]

/-- What is stored holds the sums, in each of the four combinations of forms. -/
theorem holdsSums_sumShared : ∃ r, outer.sumShared inner c = .ok r ∧
    HoldsSums outer inner s t outerTier innerTier tier c r := by
  cases hdo : outer.isDiagonal with
  | true =>
      exact ⟨c, sumShared_diagonal (by rw [hdo]; rfl) c,
        holdsSums_diagonal_outer ho hm hcell hdo⟩
  | false =>
      cases hdi : inner.isDiagonal with
      | true =>
          exact ⟨c, sumShared_diagonal (by rw [hdo, hdi]; rfl) c,
            holdsSums_diagonal_inner hi hshape hm hcell hdo hdi⟩
      | false => exact holdsSums_dense ho hi hm hcell hdo hdi

end Sums

theorem ResultOf.fullCell_eq {c r w : Tensor α} {tier : Shape} {d : Derivative α 1}
    (h : outer.ResultOf inner r tier d w)
    (hs : HoldsSums outer inner s t outerTier innerTier tier c r) {b e p q : Index} {k : Nat}
    (hb : Shape.InBounds c.batch b) (he : Shape.InBounds tier e)
    (hp : Shape.InBounds outer.target.intrinsicShape p)
    (hq : Shape.InBounds inner.argument.intrinsicShape q) (hk : k < c.base.numel)
    (hk' : k < (outer.target.base ++ inner.argument.base).numel) :
    d.fullCell w b e p q k = sumOver outer.argument.intrinsicShape fun u =>
      fullPair outer inner s t outerTier innerTier b e p u q k := by
  have hcell : ∀ m, Shape.InBounds r.middle m → w.cell b m k = r.cell b m k := fun m hm =>
    h.view.cell_eq (hs.batch_eq ▸ hb) hm hk'
  have hm := hs.middle_eq
  rw [← hs.cell_eq hb he hp hq hk]
  unfold fullCell
  rw [h.isDiagonal_eq]
  by_cases hboth : (outer.isDiagonal && inner.isDiagonal) = true
  · rw [if_pos hboth, if_pos hboth]
    rw [if_pos hboth] at hm
    rw [hcell _ (hm ▸ Shape.inBounds_append he hp)]
  · rw [if_neg hboth, if_neg hboth]
    rw [if_neg hboth] at hm
    exact hcell _ (hm ▸ Shape.inBounds_append he (Shape.inBounds_append hp hq))

/-! ## Composition -/

theorem fullPair_eq_sumOver {a c : Tensor α} {batch tier : Shape}
    (ha : outer.DenseOf s outerTier a) (hc : inner.DenseOf t innerTier c)
    (hbase : outer.argument.base = inner.target.base)
    (hshape : outer.argument.intrinsicShape = inner.target.intrinsicShape)
    (hb : Shape.broadcast s.batch t.batch = .ok batch)
    (htier : Shape.broadcast outerTier innerTier = .ok tier)
    {b e p u q i j : Index} (hib : Shape.InBounds batch b) (hie : Shape.InBounds tier e)
    (hp : Shape.InBounds outer.target.intrinsicShape p)
    (hu : Shape.InBounds outer.argument.intrinsicShape u)
    (hq : Shape.InBounds inner.argument.intrinsicShape q)
    (hi : Shape.InBounds outer.target.base i) (hj : Shape.InBounds inner.argument.base j) :
    fullPair outer inner s t outerTier innerTier b e p u q
        (outer.target.base.offset i * inner.argument.base.numel + inner.argument.base.offset j) =
      sumOver outer.argument.base fun l =>
        a.entry (a.batch.project b ++ (outerTier.project e ++ (p ++ u)) ++ (i ++ l)) *
          c.entry (c.batch.project b ++ (innerTier.project e ++ (u ++ q)) ++ (l ++ j)) := by
  obtain ⟨hsb, htb, -⟩ := Shape.broadcast_expandsTo hb
  obtain ⟨hoe, hie', -⟩ := Shape.broadcast_expandsTo htier
  have hdigits := Shape.place_div_mod (a := outer.target.base.offset i) (Shape.offset_lt hj)
  unfold fullPair
  rw [hdigits.1, hdigits.2, sum_range_numel]
  apply sumOver_congr
  intro l hl
  rw [ha.batch_eq, hc.batch_eq,
    ha.entry_eq (Shape.project_inBounds hsb hib) (Shape.project_inBounds hoe hie) hp hu hi hl,
    hc.entry_eq (Shape.project_inBounds htb hib) (Shape.project_inBounds hie' hie)
      (hshape ▸ hu) hq (hbase ▸ hl) hj, hbase]

variable [Scalar α] [BEq α]

theorem of_composeAligned_ok (hfin : ∀ x : α, Scalar.isFinite x = true)
    (ho : outer.Stores s outerTier) (hi : inner.Stores t innerTier)
    (hshape : outer.argument.intrinsicShape = inner.target.intrinsicShape) {d : Derivative α 1}
    (h : outer.composeAligned inner = .ok d) :
    outer.argument.base = inner.target.base ∧
      ∃ batch tier, Shape.broadcast s.batch t.batch = .ok batch ∧
        Shape.broadcast outerTier innerTier = .ok tier := by
  unfold composeAligned checkShared at h
  obtain ⟨_, hcheck, h₁⟩ := Update.except_bind_eq_ok.1 h
  obtain ⟨l, hl, h₂⟩ := Update.except_bind_eq_ok.1 h₁
  obtain ⟨r, hr, h₃⟩ := Update.except_bind_eq_ok.1 h₂
  obtain ⟨c, hc, -⟩ := Update.except_bind_eq_ok.1 h₃
  have hbase : outer.argument.base = inner.target.base := by
    by_contra hne
    dsimp only at hcheck
    rw [if_neg hne] at hcheck
    cases hcheck
  exact ⟨hbase, broadcast_of_product hfin hbase hshape ho hi hl hr hc⟩

theorem compose_of_intrinsic_eq (hk : outer.argument.intrinsic = inner.target.intrinsic) :
    outer.compose inner = outer.composeAligned inner := by
  unfold compose
  dsimp only
  rw [hk, if_neg (Nat.lt_irrefl _), if_neg (Nat.lt_irrefl _)]

theorem compose_eq_aligned (ho : outer.Stores s outerTier) (hi : inner.Stores t innerTier)
    (hshape : outer.argument.intrinsicShape = inner.target.intrinsicShape) :
    outer.compose inner = outer.composeAligned inner :=
  compose_of_intrinsic_eq (by rw [← ho.argument_length, ← hi.target_length, hshape])

variable [LawfulBEq α]

/-- Where bases agree and the tiers broadcast, the result of the chain rule stores the sums of
the products of the dense forms. -/
theorem composeAligned_stores (hfin : ∀ x : α, Scalar.isFinite x = true)
    (ho : outer.Stores s outerTier) (hi : inner.Stores t innerTier)
    (hbase : outer.argument.base = inner.target.base)
    (hshape : outer.argument.intrinsicShape = inner.target.intrinsicShape)
    {batch tier : Shape} (hb : Shape.broadcast s.batch t.batch = .ok batch)
    (htier : Shape.broadcast outerTier innerTier = .ok tier) :
    ∃ d w, outer.composeAligned inner = .ok d ∧ d.target = outer.target ∧
      d.argument = inner.argument ∧ d.isDiagonal = (outer.isDiagonal && inner.isDiagonal) ∧
      d.Stores w tier ∧ w.batch = batch ∧
      ∀ {b e p q k}, Shape.InBounds batch b → Shape.InBounds tier e →
        Shape.InBounds outer.target.intrinsicShape p →
        Shape.InBounds inner.argument.intrinsicShape q →
        k < (outer.target.base ++ inner.argument.base).numel →
        d.fullCell w b e p q k = sumOver outer.argument.intrinsicShape fun u =>
          fullPair outer inner s t outerTier innerTier b e p u q k := by
  obtain ⟨l, hl, -⟩ := alignedOuter_view hfin ho hi
  obtain ⟨r, hr, -⟩ := alignedInner_view hfin hbase ho hi
  obtain ⟨c, hc, hcb, hcm, hcbase, hcell⟩ := product_cell hfin hbase hshape ho hi hl hr hb htier
  rw [← hcb, ← hcbase] at hcell
  obtain ⟨c', hc', hsums⟩ := holdsSums_sumShared ho hi hshape hcm hcell
  obtain ⟨d, w, hd, hresult⟩ :=
    ofProduct_stores ho hi (hsums.base_eq.trans hcbase) hshape hsums.middle_eq
  refine ⟨d, w, ?_, hresult.target_eq, hresult.argument_eq, hresult.isDiagonal_eq,
    hresult.stores, hresult.view.batch_eq.trans (hsums.batch_eq.trans hcb),
    fun {b e p q k} hib hie hip hiq hk => ?_⟩
  · unfold composeAligned checkShared
    simp only [bind, Except.bind, if_pos hbase, hl, hr, hc, hc', hd]
  · have hkc : k < c.base.numel := by
      rw [hcbase]
      simpa using hk
    exact hresult.fullCell_eq hsums (hcb ▸ hib) hie hip hiq hkc hk

/-- The chain rule composes dense forms. For assigned factors that agree on the intrinsic shape
of the shared quantity it has a result exactly where the bases of that quantity agree and the
batches and the extrinsic tiers broadcast. Every entry of the dense form of the result is then
the sum, over the intrinsic and the base indices of the shared quantity, of the products of
the entries of the dense forms. The result is diagonal exactly when both factors are. -/
theorem compose_dense_eq_sum (hfin : ∀ x : α, Scalar.isFinite x = true)
    (ho : outer.Assigned) (hi : inner.Assigned) (hfo : outer.InForm) (hfi : inner.InForm)
    (hshape : outer.argument.intrinsicShape = inner.target.intrinsicShape) :
    ∃ a c, outer.dense = .ok a ∧ inner.dense = .ok c ∧
      ((∃ d, outer.compose inner = .ok d) ↔
        outer.argument.base = inner.target.base ∧
          (∃ batch, Shape.broadcast a.batch c.batch = .ok batch) ∧
          ∃ tier, Shape.broadcast outer.extrinsicShape inner.extrinsicShape = .ok tier) ∧
      ∀ d, outer.compose inner = .ok d →
        d.isDiagonal = (outer.isDiagonal && inner.isDiagonal) ∧ d.target = outer.target ∧
        d.argument = inner.argument ∧
        ∃ r batch tier, d.dense = .ok r ∧ Shape.broadcast a.batch c.batch = .ok batch ∧
          Shape.broadcast outer.extrinsicShape inner.extrinsicShape = .ok tier ∧
          r.batch = batch ∧
          r.middle = tier ++ (outer.target.intrinsicShape ++ inner.argument.intrinsicShape) ∧
          r.base = outer.target.base ++ inner.argument.base ∧
          ∀ {b e p q i j}, Shape.InBounds batch b → Shape.InBounds tier e →
            Shape.InBounds outer.target.intrinsicShape p →
            Shape.InBounds inner.argument.intrinsicShape q →
            Shape.InBounds outer.target.base i → Shape.InBounds inner.argument.base j →
            r.entry (b ++ (e ++ (p ++ q)) ++ (i ++ j)) =
              sumOver outer.argument.intrinsicShape fun u => sumOver outer.argument.base fun l =>
                a.entry (a.batch.project b ++ (outer.extrinsicShape.project e ++ (p ++ u)) ++
                    (i ++ l)) *
                  c.entry (c.batch.project b ++ (inner.extrinsicShape.project e ++ (u ++ q)) ++
                    (l ++ j)) := by
  obtain ⟨s, hs⟩ := stores_of_assigned ho hfo
  obtain ⟨t, ht⟩ := stores_of_assigned hi hfi
  obtain ⟨a, ha, hda⟩ := hs.dense hfin
  obtain ⟨c, hc, hdc⟩ := ht.dense hfin
  refine ⟨a, c, ha, hc, ?_, fun d hd => ?_⟩
  · rw [hda.batch_eq, hdc.batch_eq, compose_eq_aligned hs ht hshape]
    constructor
    · rintro ⟨d, hd⟩
      obtain ⟨hbase, batch, tier, hb, htier⟩ := of_composeAligned_ok hfin hs ht hshape hd
      exact ⟨hbase, ⟨batch, hb⟩, tier, htier⟩
    · rintro ⟨hbase, ⟨batch, hb⟩, tier, htier⟩
      obtain ⟨d, w, hd, -⟩ := composeAligned_stores hfin hs ht hbase hshape hb htier
      exact ⟨d, hd⟩
  · rw [compose_eq_aligned hs ht hshape] at hd
    obtain ⟨hbase, batch, tier, hb, htier⟩ := of_composeAligned_ok hfin hs ht hshape hd
    obtain ⟨d', w, hd', hy, hx, hdiag, hstores, hwb, hcell⟩ :=
      composeAligned_stores hfin hs ht hbase hshape hb htier
    rw [hd] at hd'
    cases hd'
    obtain ⟨r, hr, hdr⟩ := hstores.dense hfin
    refine ⟨hdiag, hy, hx, r, batch, tier, hr, ?_, htier, hdr.batch_eq.trans hwb, ?_, ?_, ?_⟩
    · rw [hda.batch_eq, hdc.batch_eq]
      exact hb
    · rw [hdr.middle_eq, hy, hx]
    · rw [hdr.base_eq, hy, hx]
    · intro b e p q i j hib hie hp hq hi hj
      rw [hdr.entry_eq (hwb ▸ hib) hie (hy ▸ hp) (hx ▸ hq) (hy ▸ hi) (hx ▸ hj), hy, hx]
      have hk := Shape.offset_lt (Shape.inBounds_append hi hj)
      rw [Shape.offset_append hi.length_eq] at hk
      rw [hcell hib hie hp hq hk]
      apply sumOver_congr
      intro u hu
      exact fullPair_eq_sumOver hda hdc hbase hshape hb htier hib hie hp hu hq hi hj

def ofAssignment (m : Nat) (y x : Quantity) (t : Tensor ℚ) : Derivative ℚ 1 :=
  ((assign t).outcome ⟨m, y, .singleton x, none⟩).2

def batchedDense : Derivative ℚ 1 :=
  ofAssignment 2 ⟨.root, [2], 1, [1]⟩ ⟨.root, [3, 2], 1, [2]⟩ (Tensor.full [2] [2, 2] [1, 2] 3)

def unbatchedDiagonal : Derivative ℚ 1 :=
  ofAssignment 1 ⟨.root, [3, 2], 1, [2]⟩ ⟨.root, [2], 1, [1]⟩ (Tensor.full [] [3, 1] [2, 1] 5)

theorem compose_batchedDense_unbatchedDiagonal :
    batchedDense.Assigned ∧ unbatchedDiagonal.Assigned ∧ batchedDense.InForm ∧
      unbatchedDiagonal.InForm ∧
      batchedDense.argument.intrinsicShape = unbatchedDiagonal.target.intrinsicShape ∧
      ∃ d, batchedDense.compose unbatchedDiagonal = .ok d ∧ d.isDiagonal = false := by
  have ho : batchedDense.Assigned := ⟨_, _, rfl, Prod.ext rfl rfl⟩
  have hi : unbatchedDiagonal.Assigned := ⟨_, _, rfl, Prod.ext rfl rfl⟩
  have hfo : batchedDense.InForm := .inl rfl
  have hfi : unbatchedDiagonal.InForm := .inr ⟨rfl, rfl⟩
  obtain ⟨a, c, ha, hc, hok, hsum⟩ := compose_dense_eq_sum (fun _ => rfl) ho hi hfo hfi rfl
  have hab : (batchedDense.dense.map (·.batch)).toOption = some [2] := by decide +kernel
  have hcb : (unbatchedDiagonal.dense.map (·.batch)).toOption = some [] := by decide +kernel
  rw [ha] at hab
  rw [hc] at hcb
  have hab' : a.batch = [2] := Option.some.inj hab
  have hcb' : c.batch = [] := Option.some.inj hcb
  have hbatch : Shape.broadcast a.batch c.batch = .ok [2] := by
    rw [hab', hcb']
    rfl
  have hdense : batchedDense.extrinsicShape = [] := by decide +kernel
  have hdiagonal : unbatchedDiagonal.extrinsicShape = [3] := by decide +kernel
  have htier : Shape.broadcast batchedDense.extrinsicShape unbatchedDiagonal.extrinsicShape =
      .ok [3] := by
    rw [hdense, hdiagonal]
    rfl
  obtain ⟨d, hd⟩ := hok.2 ⟨rfl, ⟨[2], hbatch⟩, [3], htier⟩
  exact ⟨ho, hi, hfo, hfi, rfl, d, hd, (hsum d hd).1⟩

end TieredCalculus.Derivative
