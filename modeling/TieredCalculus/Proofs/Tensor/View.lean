import TieredCalculus.Proofs.Shape.Joins
import TieredCalculus.Tensor.Arithmetic
import TieredCalculus.Update

/-! # Views of tensors

A view describes a tensor by its tiers and a function of a batch multi-index, an intermediate
multi-index and a place in the base. Every rearrangement turns the view of its operand into a
view of its result, so that a chain of operations is followed without looking at the data.
-/

namespace TieredCalculus

namespace Tensor

variable {α : Type} [Zero α]

/-! ## Cells -/

/-- The entry at a batch and an intermediate multi-index and a place of the base. -/
def cell (t : Tensor α) (b m : Index) (k : Nat) : α :=
  t.data[(t.batch.offset b * t.middle.numel + t.middle.offset m) * t.base.numel + k]?.getD 0

theorem entry_eq_cell (t : Tensor α) {b m : Index} (e : Index) (hb : b.length = t.batch.length)
    (hm : m.length = t.middle.length) : t.entry (b ++ m ++ e) = t.cell b m (t.base.offset e) := by
  have hbm : (b ++ m).length = (t.batch ++ t.middle).length := by
    rw [List.length_append, List.length_append, hb, hm]
  unfold entry cell shape
  rw [Shape.offset_append hbm, Shape.offset_append hb]

/-- Tensors over the same tiers are equal when they are read the same, tier by tier. -/
theorem ext_parts {s t : Tensor α} (hb : s.batch = t.batch) (hm : s.middle = t.middle)
    (hbase : s.base = t.base)
    (h : ∀ {b w e}, Shape.InBounds s.batch b → Shape.InBounds s.middle w →
      Shape.InBounds s.base e → s.entry (b ++ w ++ e) = t.entry (b ++ w ++ e)) : s = t := by
  refine ext_entry hb hm hbase fun idx hidx => ?_
  obtain ⟨lead, e, rfl, hlead, he⟩ := Shape.exists_append_of_inBounds hidx
  obtain ⟨b, w, rfl, hib, hiw⟩ := Shape.exists_append_of_inBounds hlead
  exact h hib hiw he

theorem cell_tabulate {batch middle base : Shape} (f : Index → α) {b m e : Index}
    (hb : Shape.InBounds batch b) (hm : Shape.InBounds middle m) (he : Shape.InBounds base e) :
    (tabulate batch middle base f).cell b m (base.offset e) = f (b ++ m ++ e) := by
  rw [← entry_tabulate f (Shape.inBounds_append (Shape.inBounds_append hb hm) he)]
  exact (entry_eq_cell (tabulate batch middle base f) e hb.length_eq hm.length_eq).symm

theorem cell_retier (t : Tensor α) {batch middle base : Shape}
    {h : (batch ++ middle ++ base).numel = t.shape.numel} {b m b' m' : Index} (k : Nat)
    (hmiddle : middle.numel = t.middle.numel) (hbase : base.numel = t.base.numel)
    (hb : batch.offset b = t.batch.offset b') (hm : middle.offset m = t.middle.offset m') :
    (t.retier batch middle base h).cell b m k = t.cell b' m' k := by
  unfold cell
  simp only [retier, hmiddle, hbase, hb, hm]

theorem cell_padTiers (t : Tensor α) {n k : Nat} (l : Nat) (hn : t.batch.length ≤ n)
    (hk : t.middle.length ≤ k) {b m : Index} (hb : b.length = n) (hm : m.length = k) (j : Nat) :
    (t.padTiers n k l).cell (Shape.clamp (t.batch.padLeft n) b)
      (Shape.clamp (t.middle.padLeft k) m) j = t.cell (t.batch.project b) (t.middle.project m) j := by
  unfold padTiers
  apply cell_retier
  · exact Shape.numel_padLeft _ _
  · exact Shape.numel_padLeft _ _
  · exact Shape.offset_clamp_padLeft hb hn
  · exact Shape.offset_clamp_padLeft hm hk

theorem entry_padLeading (t : Tensor α) {n k : Nat} (hn : t.batch.length ≤ n)
    (hk : t.middle.length ≤ k) {b m : Index} (e : Index) (hb : b.length = n) (hm : m.length = k) :
    (t.padLeading n k).entry (Shape.clamp (t.padLeading n k).leading (b ++ m) ++ e) =
      t.cell (t.batch.project b) (t.middle.project m) (t.base.offset e) := by
  have hpb : b.length = (t.batch.padLeft n).length := by rw [hb, Shape.length_padLeft hn]
  have hpm : m.length = (t.middle.padLeft k).length := by rw [hm, Shape.length_padLeft hk]
  have hlead : Shape.clamp (t.padLeading n k).leading (b ++ m) =
      Shape.clamp (t.batch.padLeft n) b ++ Shape.clamp (t.middle.padLeft k) m :=
    Shape.clamp_append hpb
  have hbase : (t.padLeading n k).base = t.base := Shape.padLeft_of_length (Nat.le_refl _)
  rw [hlead]
  refine (entry_eq_cell (t.padLeading n k) e (Shape.length_clamp hpb)
    (Shape.length_clamp hpm)).trans ?_
  rw [hbase]
  exact cell_padTiers t t.base.length hn hk hb hm _

omit [Zero α] in
theorem shape_padLeading (t : Tensor α) (n k : Nat) :
    (t.padLeading n k).shape = t.batch.padLeft n ++ t.middle.padLeft k ++ t.base := by
  change _ ++ _ ++ t.base.padLeft t.base.length = _
  rw [Shape.padLeft_of_length (Nat.le_refl _)]
  rfl

theorem entry_padLeading_clamp (t : Tensor α) {n k : Nat} (hn : t.batch.length ≤ n)
    (hk : t.middle.length ≤ k) {b m e : Index} (hb : b.length = n) (hm : m.length = k)
    (he : Shape.InBounds t.base e) :
    (t.padLeading n k).entry (Shape.clamp (t.padLeading n k).shape (b ++ m ++ e)) =
      t.cell (t.batch.project b) (t.middle.project m) (t.base.offset e) := by
  have hlead : (b ++ m).length = (t.batch.padLeft n ++ t.middle.padLeft k).length := by
    rw [List.length_append, List.length_append, hb, hm, Shape.length_padLeft hn,
      Shape.length_padLeft hk]
  rw [shape_padLeading, Shape.clamp_append hlead, Shape.clamp_of_inBounds he]
  exact entry_padLeading t hn hk e hb hm

omit [Zero α] in
theorem padLeading_expandsTo {t : Tensor α} {batch middle : Shape}
    (hb : t.batch.length ≤ batch.length) (hm : t.middle.length ≤ middle.length) :
    Shape.expandsTo (t.padLeading batch.length middle.length).shape (batch ++ middle ++ t.base) =
        true ↔ t.batch.expandsTo batch = true ∧ t.middle.expandsTo middle = true := by
  have hpb := Shape.length_padLeft hb
  have hpm := Shape.length_padLeft hm
  have hlead : (t.batch.padLeft batch.length ++ t.middle.padLeft middle.length).length =
      (batch ++ middle).length := by
    rw [List.length_append, List.length_append, hpb, hpm]
  have hall : (t.batch.padLeft batch.length ++ t.middle.padLeft middle.length ++
      t.base).length = (batch ++ middle ++ t.base).length := by
    rw [List.length_append, hlead, ← List.length_append]
  rw [shape_padLeading, Shape.expandsTo_iff_stretches hall, Shape.stretches_append_iff hlead,
    Shape.stretches_append_iff hpb, ← Shape.expandsTo_iff_stretches hpb,
    ← Shape.expandsTo_iff_stretches hpm, Shape.padLeft_expandsTo hb, Shape.padLeft_expandsTo hm]
  exact and_iff_left (.refl _)

/-- An expansion succeeds where both tiers expand, and reads the padded tensor at clamped
coordinates. -/
theorem expandLeading_eq_ok {t r : Tensor α} {batch middle : Shape} :
    t.expandLeading batch middle = .ok r ↔
      t.batch.expandsTo batch = true ∧ t.middle.expandsTo middle = true ∧
        r = tabulate batch middle t.base fun idx =>
          (t.padLeading batch.length middle.length).entry
            (Shape.clamp (t.padLeading batch.length middle.length).shape idx) := by
  unfold expandLeading
  by_cases hrank : t.batch.length ≤ batch.length ∧ t.middle.length ≤ middle.length
  · have hcheck : ¬(decide (batch.length < t.batch.length) ||
        decide (middle.length < t.middle.length)) = true := by
      simp only [Bool.or_eq_true, decide_eq_true_eq]
      omega
    have hexp := padLeading_expandsTo hrank.1 hrank.2
    rw [if_neg hcheck]
    by_cases h : Shape.expandsTo (t.padLeading batch.length middle.length).shape
        (batch ++ middle ++ t.base) = true
    · obtain ⟨hb, hm⟩ := hexp.1 h
      simp only [if_pos h, hb, hm, true_and, Except.ok.injEq]
      exact eq_comm
    · rw [if_neg h]
      constructor
      · intro hr
        cases hr
      · rintro ⟨hb, hm, -⟩
        exact absurd (hexp.2 ⟨hb, hm⟩) h
  · have hcheck : (decide (batch.length < t.batch.length) ||
        decide (middle.length < t.middle.length)) = true := by
      simp only [Bool.or_eq_true, decide_eq_true_eq]
      omega
    rw [if_pos hcheck]
    constructor
    · intro hr
      cases hr
    · rintro ⟨hb, hm, -⟩
      exact absurd ⟨Shape.expandsTo_length hb, Shape.expandsTo_length hm⟩ hrank

/-! ## Views -/

/-- The tensor has these tiers and these cells. -/
structure View (t : Tensor α) (batch middle base : Shape) (f : Index → Index → Nat → α) :
    Prop where
  batch_eq : t.batch = batch
  middle_eq : t.middle = middle
  base_eq : t.base = base
  cell_eq : ∀ {b m k}, Shape.InBounds batch b → Shape.InBounds middle m → k < base.numel →
    t.cell b m k = f b m k

theorem view_self (t : Tensor α) : t.View t.batch t.middle t.base t.cell :=
  ⟨rfl, rfl, rfl, fun _ _ _ => rfl⟩

theorem view_tabulate {batch middle base : Shape} (f : Index → α)
    {g : Index → Index → Nat → α}
    (h : ∀ {b m e}, Shape.InBounds batch b → Shape.InBounds middle m → Shape.InBounds base e →
      f (b ++ m ++ e) = g b m (base.offset e)) :
    (tabulate batch middle base f).View batch middle base g := by
  refine ⟨rfl, rfl, rfl, fun hb hm hk => ?_⟩
  obtain ⟨e, he, rfl⟩ := Shape.exists_offset_eq hk
  rw [cell_tabulate f hb hm he, h hb hm he]

theorem exists_view (batch middle base : Shape) (f : Index → Index → Nat → α) :
    ∃ t : Tensor α, t.View batch middle base f := by
  refine ⟨tabulate batch middle base fun idx => f (idx.take batch.length)
    ((idx.drop batch.length).take middle.length)
    (base.offset ((idx.drop batch.length).drop middle.length)),
    view_tabulate _ fun {b w e} hb hw _ => ?_⟩
  rw [List.append_assoc, ← hb.length_eq, ← hw.length_eq, List.take_left, List.drop_left,
    List.take_left, List.drop_left]

namespace View

variable {t : Tensor α} {batch middle base : Shape} {f g : Index → Index → Nat → α}

theorem congr (v : t.View batch middle base f)
    (h : ∀ {b m k}, Shape.InBounds batch b → Shape.InBounds middle m → k < base.numel →
      f b m k = g b m k) : t.View batch middle base g :=
  ⟨v.batch_eq, v.middle_eq, v.base_eq, fun hb hm hk => (v.cell_eq hb hm hk).trans (h hb hm hk)⟩

theorem entry_eq (v : t.View batch middle base f) {b m e : Index}
    (hb : Shape.InBounds batch b) (hm : Shape.InBounds middle m) (he : Shape.InBounds base e) :
    t.entry (b ++ m ++ e) = f b m (base.offset e) := by
  obtain ⟨rfl, rfl, rfl, hcell⟩ := v
  rw [entry_eq_cell t e hb.length_eq hm.length_eq, hcell hb hm (Shape.offset_lt he)]

/-! ## Tiers over the same entries -/

theorem reshapeBase (v : t.View batch middle base f) {base' : Shape}
    (h : base'.numel = base.numel) :
    ∃ r, t.reshapeBase base' = .ok r ∧ r.View batch middle base' f := by
  obtain ⟨rfl, rfl, rfl, hcell⟩ := v
  have hall : (t.batch ++ t.middle ++ base').numel = t.shape.numel := by
    rw [shape, Shape.numel_append, Shape.numel_append _ t.base, h]
  refine ⟨t.retier t.batch t.middle base' hall, dif_pos hall, rfl, rfl, rfl, fun hb hm hk => ?_⟩
  rw [cell_retier t _ rfl h rfl rfl, hcell hb hm (h ▸ hk)]

/-- Unit dimensions put between two parts of the intermediate tier are passed over. -/
theorem insertMiddleUnits {pre post : Shape} (v : t.View batch (pre ++ post) base f) (n : Nat) :
    ∃ r, t.insertMiddleUnits pre.length n = .ok r ∧
      r.View batch (pre ++ (List.replicate n 1 ++ post)) base fun b m k =>
        f b (m.take pre.length ++ m.drop (pre.length + n)) k := by
  obtain ⟨rfl, hm, rfl, hcell⟩ := v
  have hle : ¬ pre.length > t.middle.length := by
    rw [hm, List.length_append]
    omega
  refine ⟨_, if_neg hle, rfl, ?_, rfl, ?_⟩
  · change t.middle.insertUnits pre.length n = _
    rw [hm, Shape.insertUnits, List.take_left, List.drop_left]
  · intro b m k hb hin hk
    obtain ⟨is, rest, rfl, his, hrest⟩ := Shape.exists_append_of_inBounds hin
    obtain ⟨zs, js, rfl, hzs, hjs⟩ := Shape.exists_append_of_inBounds hrest
    have hread : (is ++ (zs ++ js)).take pre.length ++ (is ++ (zs ++ js)).drop (pre.length + n) =
        is ++ js := by
      have hz := hzs.length_eq
      rw [List.length_replicate] at hz
      rw [← his.length_eq, List.take_left, ← List.append_assoc, ← hz, ← List.length_append,
        List.drop_left]
    rw [hread, ← hcell hb (Shape.inBounds_append his hjs) hk]
    refine cell_retier t k (Shape.numel_insertUnits _ _ _) rfl rfl ?_
    rw [hm, Shape.insertUnits, List.take_left, List.drop_left, Shape.offset_append his.length_eq,
      Shape.offset_append hzs.length_eq, Shape.offset_units hzs,
      Shape.offset_append his.length_eq, Shape.numel_append, Shape.numel_replicate_one,
      Nat.one_mul, Nat.zero_mul, Nat.zero_add]

/-! ## Expansion -/

theorem expandLeading (v : t.View batch middle base f) {batch' middle' : Shape}
    (hb : batch.expandsTo batch' = true) (hm : middle.expandsTo middle' = true) :
    ∃ r, t.expandLeading batch' middle' = .ok r ∧
      r.View batch' middle' base fun b m k => f (batch.project b) (middle.project m) k := by
  obtain ⟨rfl, rfl, rfl, hcell⟩ := v
  have hlb := Shape.expandsTo_length hb
  have hlm := Shape.expandsTo_length hm
  refine ⟨_, expandLeading_eq_ok.2 ⟨hb, hm, rfl⟩, view_tabulate _ fun {b m e} hib him hie => ?_⟩
  rw [entry_padLeading_clamp t hlb hlm hib.length_eq him.length_eq hie]
  exact hcell (Shape.project_inBounds hb hib) (Shape.project_inBounds hm him)
    (Shape.offset_lt hie)

theorem unique {s : Tensor α} (vt : t.View batch middle base f) (vs : s.View batch middle base f) :
    t = s := by
  refine ext_parts (vt.batch_eq.trans vs.batch_eq.symm) (vt.middle_eq.trans vs.middle_eq.symm)
    (vt.base_eq.trans vs.base_eq.symm) fun {b m e} hb hm he => ?_
  rw [vt.batch_eq] at hb
  rw [vt.middle_eq] at hm
  rw [vt.base_eq] at he
  rw [vt.entry_eq hb hm he, vs.entry_eq hb hm he]

end View

theorem expandLeading_self (t : Tensor α) : t.expandLeading t.batch t.middle = .ok t := by
  obtain ⟨r, hr, v⟩ := t.view_self.expandLeading (Shape.expandsTo_refl t.batch)
    (Shape.expandsTo_refl t.middle)
  have hself : r.View t.batch t.middle t.base t.cell := v.congr fun hb hm _ => by
    rw [Shape.project_of_inBounds hb, Shape.project_of_inBounds hm]
  rw [hr, hself.unique t.view_self]

end Tensor

end TieredCalculus
