import TieredCalculus.Proofs.Derivative.Stored

/-! # Expanded intrinsic blocks

A value is padded to the count of a derivative, and a block that is not the dense one is
expanded to the intrinsic shape of the target. What is stored is read back from the value by
projection, and does not depend on the dimensions that the count leaves out.
-/

namespace TieredCalculus

namespace Shape

theorem stretches_of_append {s t a b : Shape} (h : (s ++ a).expandsTo (t ++ b) = true)
    (hlen : a.length = b.length) : Stretches a b := by
  obtain ⟨pre, rest, hrest, hs⟩ := expandsTo_iff.1 h
  have hlength := hs.length_eq
  rw [List.length_append] at hlength
  have hsplit := List.take_append_drop s.length rest
  have hdrop : rest.drop s.length = b := by
    rw [← hsplit, ← List.append_assoc] at hrest
    refine (List.append_inj_right' hrest ?_).symm
    rw [List.length_drop]
    omega
  rw [← hsplit, stretches_append_iff (by rw [List.length_take]; omega), hdrop] at hs
  exact hs.2

end Shape

namespace Derivative

open Tensor

variable {α : Type} [Zero α] {n : Nat} {d : Derivative α n} {t w : Tensor α} {tier block : Shape}

/-! ## Padding -/

theorem padIntrinsic_view (d : Derivative α n) (t : Tensor α) :
    ∃ r, d.padIntrinsic t = .ok r ∧
      r.View t.batch (t.middle ++ List.replicate (d.intrinsic - t.middle.length) 1) t.base
        fun b m k => t.cell b (m.take t.middle.length) k := by
  unfold padIntrinsic
  split
  · have hself := t.view_self
    rw [← List.append_nil t.middle] at hself
    obtain ⟨r, hr, vr⟩ := hself.insertMiddleUnits (d.intrinsic - t.middle.length)
    refine ⟨r, hr, ?_⟩
    rw [List.append_nil] at vr
    refine vr.congr fun {b m k} _ hm _ => ?_
    have hlen := hm.length_eq
    rw [List.length_append, List.length_replicate] at hlen
    rw [List.drop_of_length_le (Nat.le_of_eq hlen), List.append_nil]
  · next hle =>
    rw [Nat.sub_eq_zero_of_le (Nat.le_of_not_lt hle), List.replicate_zero, List.append_nil]
    exact ⟨t, rfl, t.view_self.congr fun {b m k} _ hm _ => by rw [← hm.length_eq, List.take_length]⟩

omit [Zero α] in
theorem padIntrinsic_eq_self (hm : t.middle = tier ++ block) (hc : d.intrinsic = block.length) :
    d.padIntrinsic t = .ok t ∧ t.middle.length - d.intrinsic = tier.length := by
  have hlen : t.middle.length = tier.length + d.intrinsic := by
    rw [hm, hc, List.length_append]
  refine ⟨?_, by omega⟩
  unfold padIntrinsic
  rw [if_neg]
  omega

/-! ## Expansion -/

theorem expandIntrinsic_dense (hm : t.middle = tier ++ d.denseShape)
    (hc : d.intrinsic = d.denseShape.length) : d.expandIntrinsic t = .ok t := by
  obtain ⟨hpad, hlen⟩ := padIntrinsic_eq_self hm hc
  unfold expandIntrinsic
  rw [hpad]
  simp only [bind, Except.bind, hlen, pure, Except.pure]
  rw [hm, List.drop_left, if_pos rfl]

private theorem parts_project_units {e p : Index} (j : Nat) (he : Shape.InBounds tier e)
    (hp : p.length = j + block.length) :
    ((tier ++ (List.replicate j 1 ++ block)).project (e ++ p)).take tier.length ++
        ((tier ++ (List.replicate j 1 ++ block)).project (e ++ p)).drop (tier.length + j) =
      e ++ block.project p := by
  obtain ⟨z, q, rfl, hz⟩ : ∃ z q, p = z ++ q ∧ z.length = j :=
    ⟨p.take j, p.drop j, (List.take_append_drop j p).symm, by rw [List.length_take]; omega⟩
  rw [List.length_append] at hp
  have hq : q.length = block.length := by omega
  have hunits : z.length = (List.replicate j 1).length := by rw [hz, List.length_replicate]
  have hlead : (e ++ Shape.clamp (List.replicate j 1) z).length = tier.length + j := by
    rw [List.length_append, Shape.length_clamp hunits, he.length_eq, List.length_replicate]
  rw [Shape.project_append (by rw [List.length_append, List.length_append, hunits, hq])
      (Nat.le_of_eq he.length_eq.symm), Shape.project_of_inBounds he, Shape.clamp_append hunits,
    List.take_left' he.length_eq, ← List.append_assoc e, List.drop_left' hlead,
    Shape.project_append_left hq]

theorem expandIntrinsic_own (hm : t.middle = tier ++ block) (hc : d.intrinsic = block.length)
    (hne : block ≠ d.denseShape) (hexp : block.expandsTo d.target.intrinsicShape = true) :
    ∃ w, d.expandIntrinsic t = .ok w ∧
      w.View t.batch (tier ++ d.target.intrinsicShape) t.base fun b m k =>
        t.cell b (m.take tier.length ++ block.project (m.drop tier.length)) k := by
  obtain ⟨hpad, hrank⟩ := padIntrinsic_eq_self hm hc
  have hle := Shape.expandsTo_length hexp
  obtain ⟨j, hj⟩ : ∃ j, d.target.intrinsicShape.length - block.length = j := ⟨_, rfl⟩
  have hself := t.view_self
  rw [hm] at hself
  obtain ⟨r, hr, vr⟩ := hself.insertMiddleUnits j
  have hblock : (List.replicate j 1 ++ block).length = d.target.intrinsicShape.length := by
    rw [List.length_append, List.length_replicate]
    omega
  have hmiddle : (tier ++ (List.replicate j 1 ++ block)).expandsTo
      (tier ++ d.target.intrinsicShape) = true := by
    rw [Shape.expandsTo_iff_stretches (by rw [List.length_append, hblock, ← List.length_append]),
      Shape.stretches_append_iff rfl, ← Shape.expandsTo_iff_stretches hblock, ← hj]
    exact ⟨.refl tier, (Shape.padLeft_expandsTo hle).trans hexp⟩
  obtain ⟨w, hw, vw⟩ := vr.expandLeading (Shape.expandsTo_refl t.batch) hmiddle
  refine ⟨w, ?_, vw.congr fun {b m k} hb hm' _ => ?_⟩
  · unfold expandIntrinsic
    rw [hpad]
    simp only [bind, Except.bind, hrank, pure, Except.pure]
    rw [hm, List.drop_left, List.take_left, if_neg hne, if_pos hexp, hc, hj, hr]
    unfold expandMiddle
    dsimp only
    rw [vr.batch_eq]
    exact hw
  · obtain ⟨e, p, rfl, he, hp⟩ := Shape.exists_append_of_inBounds hm'
    rw [Shape.project_of_inBounds hb, parts_project_units j he (by rw [hp.length_eq]; omega),
      List.take_left' he.length_eq, List.drop_left' he.length_eq]

theorem expandIntrinsic_refused (hm : t.middle = tier ++ block) (hc : d.intrinsic = block.length)
    (hne : block ≠ d.denseShape) (hexp : ¬block.expandsTo d.target.intrinsicShape = true) :
    d.expandIntrinsic t = .error (.middleShapeMismatch d.name d.target.intrinsicShape block) := by
  obtain ⟨hpad, hrank⟩ := padIntrinsic_eq_self hm hc
  unfold expandIntrinsic
  rw [hpad]
  simp only [bind, Except.bind, hrank]
  rw [hm, List.drop_left, if_neg hne, if_neg hexp]
  rfl

/-- Every value is checked as its padding is, which ends in as many dimensions as are counted. -/
theorem exists_padded (d : Derivative α n) (t : Tensor α) :
    ∃ t' tier block, d.padIntrinsic t = .ok t' ∧ d.expandIntrinsic t = d.expandIntrinsic t' ∧
      d.intrinsic = block.length ∧
      t.middle ++ List.replicate (d.intrinsic - t.middle.length) 1 = tier ++ block ∧
      t'.View t.batch (tier ++ block) t.base fun b m k =>
        t.cell b (m.take t.middle.length) k := by
  obtain ⟨t', ht', vt'⟩ := padIntrinsic_view d t
  have hlen : d.intrinsic ≤ t'.middle.length := by
    rw [vt'.middle_eq, List.length_append, List.length_replicate]
    omega
  obtain ⟨tier, block, hm, hc⟩ : ∃ tier block, t'.middle = tier ++ block ∧
      d.intrinsic = block.length :=
    ⟨_, _, (List.take_append_drop (t'.middle.length - d.intrinsic) _).symm,
      by rw [List.length_drop]; omega⟩
  have hsplit := vt'.middle_eq.symm.trans hm
  obtain ⟨hpad, -⟩ := padIntrinsic_eq_self hm hc
  refine ⟨t', tier, block, ht', ?_, hc, hsplit, hsplit ▸ vt'⟩
  unfold expandIntrinsic
  rw [ht', hpad]

/-- What is stored of a value is its padding, or that expanded to the intrinsic shape of the
target. -/
structure Expands (d : Derivative α n) (t : Tensor α) (tier block : Shape) (w : Tensor α) :
    Prop where
  middle_eq : t.middle = tier ++ block
  count : d.intrinsic = block.length
  stored : block = d.denseShape ∧ w = t ∨
    block ≠ d.denseShape ∧ block.expandsTo d.target.intrinsicShape = true ∧
      w.View t.batch (tier ++ d.target.intrinsicShape) t.base fun b m k =>
        t.cell b (m.take tier.length ++ block.project (m.drop tier.length)) k

theorem exists_expands (h : d.expandIntrinsic t = .ok w) :
    ∃ t' tier block, d.padIntrinsic t = .ok t' ∧ d.Expands t' tier block w := by
  obtain ⟨t', tier, block, ht', hsame, hc, -, vt'⟩ := exists_padded d t
  have hm := vt'.middle_eq
  refine ⟨t', tier, block, ht', hm, hc, ?_⟩
  rw [hsame] at h
  by_cases hdense : block = d.denseShape
  · subst hdense
    rw [expandIntrinsic_dense hm hc] at h
    cases h
    exact .inl ⟨rfl, rfl⟩
  · by_cases hexp : block.expandsTo d.target.intrinsicShape = true
    · obtain ⟨w', hw', vw'⟩ := expandIntrinsic_own hm hc hdense hexp
      rw [hw'] at h
      cases h
      exact .inr ⟨hdense, hexp, vw'⟩
    · rw [expandIntrinsic_refused hm hc hdense hexp] at h
      cases h

/-! ## Uncounted dimensions -/

def uncounted (d : Derivative α n) : Shape :=
  d.target.intrinsicShape.take (d.target.intrinsic - d.intrinsic)

def counted (d : Derivative α n) : Shape :=
  d.target.intrinsicShape.drop (d.target.intrinsic - d.intrinsic)

omit [Zero α] in
theorem uncounted_append_counted (d : Derivative α n) :
    d.uncounted ++ d.counted = d.target.intrinsicShape :=
  List.take_append_drop _ _

omit [Zero α] in
theorem length_counted (h : d.target.intrinsicShape.length = d.target.intrinsic)
    (hle : d.intrinsic ≤ d.target.intrinsic) : d.counted.length = d.intrinsic := by
  rw [counted, List.length_drop, h]
  omega

/-- Unless the count is the total, what is stored does not depend on the dimensions that it
leaves out. -/
theorem Ranked.expandIntrinsic_constant (hd : d.Ranked) (hm : d.intrinsic ≠ d.total)
    (h : d.expandIntrinsic t = .ok w) :
    d.intrinsic ≤ d.target.intrinsic ∧ ∃ tier, w.middle = tier ++ d.target.intrinsicShape ∧
      ∀ {b e v v' r k}, Shape.InBounds w.batch b → Shape.InBounds tier e →
        Shape.InBounds d.uncounted v → Shape.InBounds d.uncounted v' →
        Shape.InBounds d.counted r → k < w.base.numel →
        w.cell b (e ++ (v ++ r)) k = w.cell b (e ++ (v' ++ r)) k := by
  obtain ⟨t', tier, block, -, -, hcount, hstored⟩ := exists_expands h
  rcases hstored with ⟨rfl, -⟩ | ⟨-, hexp, vw⟩
  · exact absurd (hcount.trans hd.length_denseShape) hm
  · have hrank := length_intrinsicShape (List.forall_mem_cons.1 hd).1
    have hle : d.intrinsic ≤ d.target.intrinsic := by
      rw [hcount, ← hrank]
      exact Shape.expandsTo_length hexp
    have hread : ∀ {b e v r k}, Shape.InBounds w.batch b → Shape.InBounds tier e →
        Shape.InBounds d.uncounted v → Shape.InBounds d.counted r → k < w.base.numel →
        w.cell b (e ++ (v ++ r)) k = t'.cell b (e ++ block.clamp r) k := by
      intro b e v r k hb he hv hr hk
      have hin := Shape.inBounds_append hv hr
      rw [uncounted_append_counted] at hin
      have hlen := hr.length_eq.trans ((length_counted hrank hle).trans hcount)
      rw [vw.cell_eq (vw.batch_eq ▸ hb) (Shape.inBounds_append he hin) (vw.base_eq ▸ hk),
        List.take_left' he.length_eq, List.drop_left' he.length_eq,
        Shape.project_append_left hlen]
    refine ⟨hle, tier, vw.middle_eq, fun hb he hv hv' hr hk => ?_⟩
    rw [hread hb he hv hr hk, hread hb he hv' hr hk]

end Derivative

end TieredCalculus
