import TieredCalculus.Proofs.Tensor.Operands
import TieredCalculus.Proofs.Tensor.Permutation

/-! # Entrywise operations

Two tensors are combined where each of their tiers broadcasts on its own. An entry of the result
is made of the two entries that its batch, its intermediate and its base multi-index are read at,
each in its tier. Over one base only the leading tiers are aligned.
-/

namespace TieredCalculus

namespace Shape

theorem joinSizes?_three {a b c a' b' c' s : Shape} (ha : a.length = a'.length)
    (hb : b.length = b'.length) :
    joinSizes? (a ++ b ++ c) (a' ++ b' ++ c') = some s ↔ ∃ x y z, joinSizes? a a' = some x ∧
      joinSizes? b b' = some y ∧ joinSizes? c c' = some z ∧ s = x ++ y ++ z := by
  have hab : (a ++ b).length = (a' ++ b').length := by
    rw [List.length_append, List.length_append, ha, hb]
  rw [joinSizes?_append hab, joinSizes?_append ha]
  simp only [Option.bind_eq_some_iff, Option.map_eq_some_iff]
  constructor
  · rintro ⟨_, ⟨x, hx, y, hy, rfl⟩, z, hz, rfl⟩
    exact ⟨x, y, z, hx, hy, hz, rfl⟩
  · rintro ⟨x, y, z, hx, hy, hz, rfl⟩
    exact ⟨_, ⟨x, hx, y, hy, rfl⟩, z, hz, rfl⟩

theorem broadcast_of_length {a b c : Shape} (h : a.length = b.length) :
    broadcast a b = .ok c ↔ joinSizes? a b = some c := by
  rw [broadcast_eq_ok, h, Nat.max_self, padLeft_of_length (Nat.le_of_eq h.symm),
    padLeft_of_length (Nat.le_refl _)]

end Shape

namespace Tensor

variable {α : Type} [Zero α] {f : α → α → α} {s t r : Tensor α}

/-! ## Reading tier by tier -/

/-- The entry that is read at a batch, an intermediate and a base multi-index of larger tiers,
each aligned on the right of its tier and zero along unit dimensions. -/
def entryAt (t : Tensor α) (b w e : Index) : α :=
  t.entry (t.batch.project b ++ t.middle.project w ++ t.base.project e)

theorem entryAt_eq_cellAt {b w e : Index} (hb : t.batch.length ≤ b.length)
    (hw : t.middle.length ≤ w.length) (he : Shape.InBounds t.base e) :
    t.entryAt b w e = t.cellAt b w (t.base.offset e) := by
  unfold entryAt
  rw [Shape.project_of_inBounds he]
  exact entry_eq_cell t e (Shape.length_project hb) (Shape.length_project hw)

omit [Zero α] in
theorem shape_padTiers (t : Tensor α) (n k l : Nat) : (t.padTiers n k l).shape =
    t.batch.padLeft n ++ t.middle.padLeft k ++ t.base.padLeft l := rfl

theorem entry_padTiers_clamp (t : Tensor α) {n k l : Nat} (hn : t.batch.length ≤ n)
    (hk : t.middle.length ≤ k) (hl : t.base.length ≤ l) {b w e : Index} (hb : b.length = n)
    (hw : w.length = k) (he : e.length = l) :
    (t.padTiers n k l).entry (Shape.clamp (t.padTiers n k l).shape (b ++ w ++ e)) =
      t.entryAt b w e := by
  have hpb : b.length = (t.batch.padLeft n).length := by rw [hb, Shape.length_padLeft hn]
  have hpw : w.length = (t.middle.padLeft k).length := by rw [hw, Shape.length_padLeft hk]
  have hlead : (b ++ w).length = (t.batch.padLeft n ++ t.middle.padLeft k).length := by
    rw [List.length_append, List.length_append, hpb, hpw]
  have hbase : (t.padTiers n k l).base.offset (Shape.clamp (t.base.padLeft l) e) =
      t.base.offset (t.base.project e) := Shape.offset_clamp_padLeft he hl
  have hcell := entry_eq_cell t (t.base.project e) (Shape.length_project (hb ▸ hn))
    (Shape.length_project (hw ▸ hk))
  rw [shape_padTiers, Shape.clamp_append hlead, Shape.clamp_append hpb]
  refine (entry_eq_cell (t.padTiers n k l) _ (Shape.length_clamp hpb)
    (Shape.length_clamp hpw)).trans ?_
  rw [hbase]
  exact (cell_padTiers t l hn hk hb hw _).trans hcell.symm

theorem view_of_entry {batch middle base : Shape} {g : Index → Index → Nat → α}
    (hb : t.batch = batch) (hm : t.middle = middle) (hbase : t.base = base)
    (h : ∀ {b w e}, Shape.InBounds batch b → Shape.InBounds middle w → Shape.InBounds base e →
      t.entry (b ++ w ++ e) = g b w (base.offset e)) : t.View batch middle base g := by
  subst hb hm hbase
  refine ⟨rfl, rfl, rfl, fun {b w k} hb hw hk => ?_⟩
  obtain ⟨e, he, rfl⟩ := Shape.exists_offset_eq hk
  rw [← entry_eq_cell t e hb.length_eq hw.length_eq, h hb hw he]

/-! ## Operands -/

section Operands

variable {n k l : Nat}

theorem zipWith_eq_padTiers (hn : n = max s.batch.length t.batch.length)
    (hk : k = max s.middle.length t.middle.length) (hl : l = max s.base.length t.base.length) :
    zipWith f s t = (do
      let common ← Shape.broadcast (s.padTiers n k l).shape (t.padTiers n k l).shape
      (tabulate [] [] common fun idx =>
        f ((s.padTiers n k l).entry (Shape.clamp (s.padTiers n k l).shape idx))
          ((t.padTiers n k l).entry (Shape.clamp (t.padTiers n k l).shape idx))).withTiers n k) := by
  subst hn hk hl
  unfold zipWith
  dsimp only
  rw [Shape.broadcastAll_pair]

omit [Zero α] in
theorem broadcast_padTiers (hn : n = max s.batch.length t.batch.length)
    (hk : k = max s.middle.length t.middle.length) (hl : l = max s.base.length t.base.length)
    {common : Shape} :
    Shape.broadcast (s.padTiers n k l).shape (t.padTiers n k l).shape = .ok common ↔
      ∃ batch middle base, Shape.broadcast s.batch t.batch = .ok batch ∧
        Shape.broadcast s.middle t.middle = .ok middle ∧
        Shape.broadcast s.base t.base = .ok base ∧ common = batch ++ middle ++ base := by
  have hpad : ∀ a b : Shape, (a.padLeft (max a.length b.length)).length =
      (b.padLeft (max a.length b.length)).length := by
    intro a b
    rw [Shape.length_padLeft (Nat.le_max_left ..), Shape.length_padLeft (Nat.le_max_right ..)]
  subst hn hk hl
  have hb := hpad s.batch t.batch
  have hm := hpad s.middle t.middle
  have hbase := hpad s.base t.base
  rw [shape_padTiers, shape_padTiers,
    Shape.broadcast_of_length (by simp only [List.length_append, hb, hm, hbase]),
    Shape.joinSizes?_three hb hm]
  simp only [← Shape.broadcast_eq_ok]

end Operands

theorem tabulate_withTiers (batch middle base : Shape) (g : Index → α) :
    ∃ r, (tabulate [] [] (batch ++ middle ++ base) g).withTiers batch.length middle.length = .ok r ∧
      r.batch = batch ∧ r.middle = middle ∧ r.base = base ∧
      ∀ {idx}, Shape.InBounds (batch ++ middle ++ base) idx → r.entry idx = g idx := by
  have hrank : batch.length + middle.length ≤
      (tabulate [] [] (batch ++ middle ++ base) g).rank := by
    change _ ≤ (batch ++ middle ++ base).length
    rw [List.length_append, List.length_append]
    omega
  obtain ⟨r, hr, hb, hm, hbase, hentry⟩ := withTiers_entry hrank
  change r.batch = (batch ++ middle ++ base).take _ at hb
  change r.middle = ((batch ++ middle ++ base).drop _).take _ at hm
  change r.base = ((batch ++ middle ++ base).drop _).drop _ at hbase
  rw [List.append_assoc, List.take_left] at hb
  rw [List.append_assoc, List.drop_left, List.take_left] at hm
  rw [List.append_assoc, List.drop_left, List.drop_left] at hbase
  refine ⟨r, hr, hb, hm, hbase, fun {idx} hin => ?_⟩
  rw [hentry]
  exact entry_tabulate g hin

/-! ## Results -/

/-- Each tier of the third tensor is the common shape of that tier of the other two, and every
entry is combined from the entries that are read there. -/
structure Combines (f : α → α → α) (s t r : Tensor α) : Prop where
  batch : Shape.broadcast s.batch t.batch = .ok r.batch
  middle : Shape.broadcast s.middle t.middle = .ok r.middle
  base : Shape.broadcast s.base t.base = .ok r.base
  entry : ∀ {b w e}, Shape.InBounds r.batch b → Shape.InBounds r.middle w →
    Shape.InBounds r.base e → r.entry (b ++ w ++ e) = f (s.entryAt b w e) (t.entryAt b w e)

theorem Combines.unique {r' : Tensor α} (h : Combines f s t r) (h' : Combines f s t r') :
    r = r' := by
  have hb : r.batch = r'.batch := Except.ok.inj (h.batch.symm.trans h'.batch)
  have hm : r.middle = r'.middle := Except.ok.inj (h.middle.symm.trans h'.middle)
  have hbase : r.base = r'.base := Except.ok.inj (h.base.symm.trans h'.base)
  refine ext_parts hb hm hbase fun {b w e} hib hiw hie => ?_
  rw [h.entry hib hiw hie, h'.entry (hb ▸ hib) (hm ▸ hiw) (hbase ▸ hie)]

theorem exists_combines {batch middle base : Shape}
    (hbatch : Shape.broadcast s.batch t.batch = .ok batch)
    (hmiddle : Shape.broadcast s.middle t.middle = .ok middle)
    (hbase : Shape.broadcast s.base t.base = .ok base) :
    ∃ r, zipWith f s t = .ok r ∧ Combines f s t r := by
  have hn := (Shape.broadcast_expandsTo hbatch).2.2
  have hk := (Shape.broadcast_expandsTo hmiddle).2.2
  have hl := (Shape.broadcast_expandsTo hbase).2.2
  have hcommon := (broadcast_padTiers hn hk hl).2 ⟨batch, middle, base, hbatch, hmiddle, hbase, rfl⟩
  let s' := s.padTiers batch.length middle.length base.length
  let t' := t.padTiers batch.length middle.length base.length
  obtain ⟨r, hr, hrb, hrm, hrbase, hentry⟩ := tabulate_withTiers batch middle base fun idx =>
    f (s'.entry (Shape.clamp s'.shape idx)) (t'.entry (Shape.clamp t'.shape idx))
  refine ⟨r, ?_, hrb ▸ hbatch, hrm ▸ hmiddle, hrbase ▸ hbase, fun {b w e} hb hw he => ?_⟩
  · rw [zipWith_eq_padTiers hn hk hl, hcommon]
    exact hr
  · rw [hrb] at hb
    rw [hrm] at hw
    rw [hrbase] at he
    rw [hentry (Shape.inBounds_append (Shape.inBounds_append hb hw) he),
      entry_padTiers_clamp s (by omega) (by omega) (by omega) hb.length_eq hw.length_eq
        he.length_eq,
      entry_padTiers_clamp t (by omega) (by omega) (by omega) hb.length_eq hw.length_eq
        he.length_eq]

theorem zipWith_eq_ok_iff : zipWith f s t = .ok r ↔ Combines f s t r := by
  constructor
  · intro h
    have hbroadcast := h
    rw [zipWith_eq_padTiers rfl rfl rfl] at hbroadcast
    obtain ⟨common, hcommon, -⟩ := Update.except_bind_eq_ok.1 hbroadcast
    obtain ⟨batch, middle, base, hb, hm, hbase, -⟩ := (broadcast_padTiers rfl rfl rfl).1 hcommon
    obtain ⟨r', hr', hcombines⟩ := exists_combines (f := f) hb hm hbase
    rw [h] at hr'
    cases hr'
    exact hcombines
  · intro h
    obtain ⟨r', hr', hcombines⟩ := exists_combines (f := f) h.batch h.middle h.base
    rw [hr', h.unique hcombines]

/-- Over one base the leading tiers are aligned, and every entry is combined in its place. -/
theorem zipWith_eq_ok (hbase : s.base = t.base) :
    zipWith f s t = .ok r ↔ ∃ batch middle, Join [s, t] batch middle ∧
      r.View batch middle t.base fun b w k => f (s.cellAt b w k) (t.cellAt b w k) := by
  have hself : Shape.broadcast s.base t.base = .ok t.base :=
    Shape.broadcast_of_expandsTo (hbase ▸ Shape.expandsTo_refl s.base)
  have hread : ∀ {batch middle}, Join [s, t] batch middle → ∀ {b w e}, Shape.InBounds batch b →
      Shape.InBounds middle w → Shape.InBounds t.base e →
      s.entryAt b w e = s.cellAt b w (t.base.offset e) ∧
        t.entryAt b w e = t.cellAt b w (t.base.offset e) := by
    intro batch middle hjoin b w e hb hw he
    obtain ⟨hsb, hsm⟩ := hjoin.expandsTo (t := s) (by simp)
    obtain ⟨htb, htm⟩ := hjoin.expandsTo (t := t) (by simp)
    have hleft := entryAt_eq_cellAt (t := s) (hb.length_eq ▸ Shape.expandsTo_length hsb)
      (hw.length_eq ▸ Shape.expandsTo_length hsm) (hbase ▸ he)
    have hright := entryAt_eq_cellAt (hb.length_eq ▸ Shape.expandsTo_length htb)
      (hw.length_eq ▸ Shape.expandsTo_length htm) he
    rw [hbase] at hleft
    exact ⟨hleft, hright⟩
  rw [zipWith_eq_ok_iff]
  constructor
  · intro h
    have hjoin : Join [s, t] r.batch r.middle :=
      ⟨(Shape.broadcastAll_pair _ _).trans h.batch, (Shape.broadcastAll_pair _ _).trans h.middle⟩
    have hrbase : r.base = t.base := Except.ok.inj (h.base.symm.trans hself)
    refine ⟨r.batch, r.middle, hjoin, view_of_entry rfl rfl hrbase fun {b w e} hb hw he => ?_⟩
    obtain ⟨hleft, hright⟩ := hread hjoin hb hw he
    rw [h.entry hb hw (hrbase ▸ he), hleft, hright]
  · rintro ⟨batch, middle, hjoin, v⟩
    obtain ⟨rfl, rfl, hrbase, -⟩ := id v
    refine ⟨(Shape.broadcastAll_pair _ _).symm.trans hjoin.batch,
      (Shape.broadcastAll_pair _ _).symm.trans hjoin.middle, hrbase ▸ hself,
      fun {b w e} hb hw he => ?_⟩
    rw [hrbase] at he
    obtain ⟨hleft, hright⟩ := hread hjoin hb hw he
    rw [v.entry_eq hb hw he, hleft, hright]

/-! ## Sums, differences and products -/

/-- The computation returns exactly where each tier of the two tensors broadcasts on its own, and
then what combines them. -/
structure TierByTier (f : α → α → α) (s t : Tensor α) (x : Except TensorError (Tensor α)) :
    Prop where
  isOk_iff : (∃ r, x = .ok r) ↔ (∃ batch, Shape.broadcast s.batch t.batch = .ok batch) ∧
    (∃ middle, Shape.broadcast s.middle t.middle = .ok middle) ∧
    ∃ base, Shape.broadcast s.base t.base = .ok base
  combines : ∀ r, x = .ok r → Combines f s t r

theorem zipWith_tierByTier (f : α → α → α) (s t : Tensor α) :
    TierByTier f s t (zipWith f s t) := by
  refine ⟨⟨fun h => ?_, fun h => ?_⟩, fun r h => zipWith_eq_ok_iff.1 h⟩
  · obtain ⟨r, hr⟩ := h
    have hcombines := zipWith_eq_ok_iff.1 hr
    exact ⟨⟨_, hcombines.batch⟩, ⟨_, hcombines.middle⟩, _, hcombines.base⟩
  · obtain ⟨⟨batch, hb⟩, ⟨middle, hm⟩, base, hbase⟩ := h
    obtain ⟨r, hr, -⟩ := exists_combines (f := f) hb hm hbase
    exact ⟨r, hr⟩

/-- Sums, differences and products are defined where the batches, the intermediate shapes and the
bases broadcast, each on its own, and are taken entry by entry over the three common shapes. How
one tier is aligned does not depend on the sizes of another. -/
theorem arithmetic_tierByTier [Add α] [Sub α] [Mul α] (s t : Tensor α) :
    TierByTier (· + ·) s t (s.add t) ∧ TierByTier (· - ·) s t (s.sub t) ∧
      TierByTier (· * ·) s t (s.mul t) :=
  ⟨zipWith_tierByTier _ s t, zipWith_tierByTier _ s t, zipWith_tierByTier _ s t⟩

/-- Two trailing sizes that would not broadcast lie in different tiers. -/
example : (add (⟨[], [3], [], #[1, 2, 3], rfl⟩ : Tensor Nat) ⟨[], [], [2], #[10, 20], rfl⟩).map
    (·.toList) = .ok [11, 21, 12, 22, 13, 23] := rfl

end Tensor

end TieredCalculus
