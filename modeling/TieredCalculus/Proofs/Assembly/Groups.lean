import TieredCalculus.Assembly.Groups
import TieredCalculus.Proofs.Tensor.Contraction
import TieredCalculus.Proofs.Tensor.Permutation

/-! # Entries of assembled tensors

Assembly puts the intermediate dimensions of each group in front of its base dimensions and
folds both into one: the entry at intermediate and base multi-indices, group by group, stands
at the places of these multi-indices in the groups.
-/

namespace TieredCalculus

namespace Shape

theorem numel_map_numel (shapes : List Shape) :
    numel (shapes.map numel) = numel shapes.flatten := by
  induction shapes with
  | nil => rfl
  | cons s shapes ih => rw [List.map_cons, List.flatten_cons, numel_cons, numel_append, ih]

theorem offset_flatten {shapes : List Shape} {parts : List Index}
    (h : List.Forall₂ InBounds shapes parts) :
    offset shapes.flatten parts.flatten =
      offset (shapes.map numel) (List.zipWith offset shapes parts) := by
  induction h with
  | nil => rfl
  | cons hi _ ih =>
    rw [List.flatten_cons, List.flatten_cons, offset_append hi.length_eq, ih, List.map_cons,
      List.zipWith_cons_cons, offset_cons, numel_map_numel]

theorem inBounds_places {shapes : List Shape} {parts : List Index}
    (h : List.Forall₂ InBounds shapes parts) :
    InBounds (shapes.map numel) (List.zipWith offset shapes parts) := by
  induction h with
  | nil => trivial
  | cons hi _ ih => exact ⟨offset_lt hi, ih⟩

theorem forall₂_zipWith_append {as bs : List Shape} {is js : List Index}
    (hi : List.Forall₂ InBounds as is) (hj : List.Forall₂ InBounds bs js) :
    List.Forall₂ InBounds (List.zipWith (· ++ ·) as bs) (List.zipWith (· ++ ·) is js) := by
  induction hi generalizing bs js with
  | nil => exact .nil
  | cons hi _ ih =>
    cases hj with
    | nil => exact .nil
    | cons hj hrest => exact .cons (inBounds_append hi hj) (ih hrest)

theorem map_length_of_forall₂ {shapes : List Shape} {parts : List Index}
    (h : List.Forall₂ InBounds shapes parts) : parts.map (·.length) = shapes.map (·.length) := by
  induction h with
  | nil => rfl
  | cons hi _ ih => rw [List.map_cons, List.map_cons, hi.length_eq, ih]

theorem inBounds_flatten {shapes : List Shape} {parts : List Index}
    (h : List.Forall₂ InBounds shapes parts) : InBounds shapes.flatten parts.flatten := by
  induction h with
  | nil => trivial
  | cons hi _ ih => exact inBounds_append hi ih

end Shape

namespace Tensor

variable {α : Type}

/-! ## Axes of the groups -/

theorem flatten_runs (start : Nat) (sizes : List Nat) :
    (runs start sizes).flatten = (List.range (Shape.total sizes)).map (start + ·) := by
  induction sizes generalizing start with
  | nil => rfl
  | cons n sizes ih =>
    rw [runs, List.flatten_cons, ih, Shape.total_cons, List.range_add, List.map_append,
      List.map_map]
    simp [Nat.add_assoc]

theorem length_runs (start : Nat) (sizes : List Nat) :
    (runs start sizes).length = sizes.length := by
  induction sizes generalizing start with
  | nil => rfl
  | cons n sizes ih => rw [runs, List.length_cons, ih, List.length_cons]

theorem map_rearranged_runs (front rest : List Nat) (parts : List (List Nat)) :
    (runs front.length (parts.map (·.length))).map
      (rearranged · (front ++ (parts.flatten ++ rest))) = parts := by
  induction parts generalizing front with
  | nil => rfl
  | cons part parts ih =>
    have hnext := ih (front ++ part)
    rw [List.length_append, List.append_assoc, ← List.append_assoc part] at hnext
    rw [List.map_cons, runs, List.map_cons, List.flatten_cons, hnext, List.append_assoc,
      rearranged_run]

/-- The axes of assembled groups: those of the batch, then the intermediate and the base axes of
each group. -/
def groupAxes (batchRank : Nat) (middles bases : List Nat) : List Nat :=
  List.range batchRank ++ (List.zipWith (· ++ ·) (runs batchRank middles)
    (runs (batchRank + Shape.total middles) bases)).flatten

theorem perm_flatten_zipWith {as bs : List (List Nat)} (h : as.length = bs.length) :
    (List.zipWith (· ++ ·) as bs).flatten.Perm (as.flatten ++ bs.flatten) := by
  induction as generalizing bs with
  | nil =>
    rw [List.length_nil] at h
    rw [List.length_eq_zero_iff.1 h.symm]
    rfl
  | cons a as ih =>
    cases bs with
    | nil => cases h
    | cons b bs =>
      rw [List.zipWith_cons_cons, List.flatten_cons, List.flatten_cons, List.flatten_cons,
        List.append_assoc, List.append_assoc]
      refine List.Perm.append_left a (((ih (Nat.succ.inj h)).append_left b).trans ?_)
      rw [← List.append_assoc, ← List.append_assoc]
      exact List.perm_append_comm.append_right bs.flatten

theorem groupAxes_perm (batchRank : Nat) (middles bases : List Nat)
    (h : middles.length = bases.length) : (groupAxes batchRank middles bases).Perm
      (List.range (batchRank + Shape.total middles + Shape.total bases)) := by
  unfold groupAxes
  rw [List.range_add, List.range_add, List.append_assoc, ← flatten_runs, ← flatten_runs]
  exact (perm_flatten_zipWith (by rw [length_runs, length_runs, h])).append_left _

theorem total_map_length (parts : List (List Nat)) :
    Shape.total (parts.map (·.length)) = parts.flatten.length := by
  induction parts with
  | nil => rfl
  | cons part parts ih =>
    rw [List.map_cons, Shape.total_cons, ih, List.flatten_cons, List.length_append]

theorem rearranged_groupAxes (b : List Nat) (ms bs : List (List Nat)) :
    rearranged (groupAxes b.length (ms.map (·.length)) (bs.map (·.length)))
      (b ++ (ms.flatten ++ bs.flatten)) = b ++ (List.zipWith (· ++ ·) ms bs).flatten := by
  have hb := rearranged_run [] b (ms.flatten ++ bs.flatten)
  have hms := map_rearranged_runs b bs.flatten ms
  have hbs := map_rearranged_runs (b ++ ms.flatten) [] bs
  simp only [List.length_nil, Nat.zero_add, List.map_id', List.nil_append] at hb
  rw [List.append_nil, List.length_append, ← total_map_length, List.append_assoc] at hbs
  unfold groupAxes
  rw [rearranged_append, hb, rearranged_flatten, List.map_zipWith]
  simp only [rearranged_append]
  rw [← List.zipWith_map, hms, hbs]

/-! ## Assembly -/

section Assemble

variable [Zero α] {t filled : Tensor α} {middles bases : List Shape}

theorem map_numel_groups (middles bases : List Shape) :
    (List.zipWith (· ++ ·) middles bases).map Shape.numel = assembledSizes middles bases := by
  unfold assembledSizes
  rw [List.map_zipWith]
  simp only [Shape.numel_append]

/-- Folding each part of the base into one dimension moves an entry to the places of the parts
of its multi-index. -/
theorem entry_fold {s t : Tensor α} {batch : Shape} {shapes : List Shape}
    {f : Index → Index → Nat → α} (vs : s.View batch [] (shapes.map Shape.numel) f)
    (vt : t.View batch [] shapes.flatten f) {b : Index} {parts : List Index}
    (hb : Shape.InBounds batch b) (hparts : List.Forall₂ Shape.InBounds shapes parts) :
    s.entry (b ++ List.zipWith Shape.offset shapes parts) = t.entry (b ++ parts.flatten) := by
  have hs := vs.entry_eq hb (m := []) trivial (Shape.inBounds_places hparts)
  have ht := vt.entry_eq hb (m := []) trivial (Shape.inBounds_flatten hparts)
  rw [List.append_nil] at hs ht
  rw [hs, ht, Shape.offset_flatten hparts]

theorem assemble_of_filled (hne : middles ≠ []) (hlen : middles.length = bases.length)
    (hbase : t.base = bases.flatten) (hfill : t.fillGroups middles = .ok filled)
    (hm : filled.middle = middles.flatten) (hfb : filled.base = bases.flatten) :
    ∃ r, t.assemble middles bases = .ok r ∧ r.batch = filled.batch ∧ r.middle = [] ∧
      r.base = assembledSizes middles bases ∧
      ∀ {b ms bs}, Shape.InBounds filled.batch b → List.Forall₂ Shape.InBounds middles ms →
        List.Forall₂ Shape.InBounds bases bs →
        r.entry (b ++ List.zipWith Shape.offset (List.zipWith (· ++ ·) middles bases)
          (List.zipWith (· ++ ·) ms bs)) = filled.entry (b ++ (ms.flatten ++ bs.flatten)) := by
  have hrank : filled.rank = filled.batch.length + Shape.total (middles.map (·.length)) +
      Shape.total (bases.map (·.length)) := by
    rw [rank, shape, List.length_append, List.length_append, hm, hfb, total_map_length,
      total_map_length]
  have hperm := groupAxes_perm filled.batch.length (middles.map (·.length)) (bases.map (·.length))
    (by rw [List.length_map, List.length_map, hlen])
  rw [← hrank] at hperm
  obtain ⟨r, hr, hrb, hrm, hrbase, hentry⟩ :=
    permute_entry filled.batch.length 0 hperm (by omega)
  have hshape : rearranged (groupAxes filled.batch.length (middles.map (·.length))
      (bases.map (·.length))) filled.shape =
        filled.batch ++ (List.zipWith (· ++ ·) middles bases).flatten := by
    rw [shape, List.append_assoc, hm, hfb, rearranged_groupAxes]
  rw [hshape, List.take_left] at hrb
  rw [List.take_zero] at hrm
  rw [hshape, List.drop_left, List.drop_zero] at hrbase
  have vr := r.view_self
  rw [hrb, hrm, hrbase] at vr
  have hnumel : Shape.numel (assembledSizes middles bases) =
      Shape.numel (List.zipWith (· ++ ·) middles bases).flatten := by
    rw [← map_numel_groups, Shape.numel_map_numel]
  obtain ⟨s, hs, vs⟩ := vr.reshapeBase hnumel
  refine ⟨s, ?_, vs.batch_eq, vs.middle_eq, vs.base_eq,
    fun {b ms bs} hb hms hbs => ?_⟩
  · have hgroups : ¬(middles.isEmpty || decide (middles.length ≠ bases.length)) = true := by
      simp [hne, hlen]
    unfold assemble
    rw [if_neg hgroups, if_neg (not_not.2 hbase)]
    simp only [bind, Except.bind, hfill]
    unfold groupAxes at hr
    rw [total_map_length, ← hm] at hr
    rw [hr]
    exact hs
  · rw [← map_numel_groups] at vs
    have hfold := entry_fold vs vr hb (Shape.forall₂_zipWith_append hms hbs)
    have hin : Shape.InBounds filled.shape (b ++ (ms.flatten ++ bs.flatten)) := by
      rw [shape, List.append_assoc, hm, hfb]
      exact Shape.inBounds_append hb
        (Shape.inBounds_append (Shape.inBounds_flatten hms) (Shape.inBounds_flatten hbs))
    have hindex := rearranged_groupAxes b ms bs
    rw [hb.length_eq, Shape.map_length_of_forall₂ hms, Shape.map_length_of_forall₂ hbs] at hindex
    rw [hfold, ← hindex, hentry hin]

theorem exists_filled {r : Tensor α} (h : t.assemble middles bases = .ok r) :
    ∃ f, t.fillGroups middles = .ok f := by
  unfold assemble at h
  split at h
  · cases h
  · dsimp only at h
    split at h
    · cases h
    · obtain ⟨f, hf, -⟩ := Update.except_bind_eq_ok.1 h
      exact ⟨f, hf⟩

end Assemble

/-! ## Filling of groups -/

section Fill

variable [Zero α] {t : Tensor α}

theorem fillGroups_of_flat {middles : List Shape} (h : t.middle = middles.flatten) :
    t.fillGroups middles = .ok t := by
  unfold fillGroups
  rw [if_pos h]
  rfl

theorem exists_reshape_unit {I J : Shape} (hm : t.middle = I) (hone : J.numel = 1) :
    ∃ f, t.reshape t.batch (I ++ J) t.base = .ok f ∧
      f.View t.batch (I ++ J) t.base fun b w k => t.cell b (w.take I.length) k := by
  subst hm
  have hmiddle : (t.middle ++ J).numel = t.middle.numel := by
    rw [Shape.numel_append, hone, Nat.mul_one]
  have hnumel : (t.batch ++ (t.middle ++ J) ++ t.base).numel = t.shape.numel := by
    rw [shape, Shape.numel_append, Shape.numel_append, hmiddle, Shape.numel_append,
      Shape.numel_append]
  refine ⟨t.retier t.batch (t.middle ++ J) t.base hnumel, dif_pos hnumel, rfl, rfl, rfl,
    fun {b w k} _ hw _ => ?_⟩
  obtain ⟨p, q, rfl, hp, hq⟩ := Shape.exists_append_of_inBounds hw
  refine cell_retier t k hmiddle rfl rfl ?_
  have hq₀ := Shape.offset_lt hq
  rw [Shape.offset_append hp.length_eq, List.take_left' hp.length_eq]
  rw [hone] at hq₀ ⊢
  omega

/-- A tensor that does not cover both of two groups is expanded to the first of them. The second
one is added where it has one multi-index, and the result is put on the diagonal where both groups
are equal. -/
theorem fillGroups_first {I J : Shape} (hne : t.middle ≠ I ++ J)
    (h : t.middle.expandsTo I = true) :
    ∃ e : Tensor α, e.View t.batch I t.base (fun b p k => t.cell b (t.middle.project p) k) ∧
      t.fillGroups [I, J] =
        if J.numel = 1 then e.reshape t.batch (I ++ J) t.base
        else if J = I then e.diagonalize I.length
        else .error (.unsupported (.assembly t.middle [I, J])) := by
  have hflat : [I, J].flatten = I ++ J := by simp
  obtain ⟨e, he, ve⟩ := t.view_self.expandLeading (Shape.expandsTo_refl t.batch) h
  refine ⟨e, ve.congr fun hb _ _ => by rw [Shape.project_of_inBounds hb], ?_⟩
  unfold fillGroups expandMiddle
  simp only [hflat, if_neg hne, List.headD_cons, h, Bool.not_true, Bool.false_eq_true, if_false,
    he, bind, Except.bind, pure, Except.pure]
  rfl

theorem fillGroups_cases {I J : Shape} {f : Tensor α} (h : t.fillGroups [I, J] = .ok f) :
    t.middle = I ++ J ∨ t.middle.expandsTo I = true ∧ (J.numel = 1 ∨ J = I) := by
  by_cases hfull : t.middle = I ++ J
  · exact .inl hfull
  · refine .inr ?_
    by_cases hexp : t.middle.expandsTo I = true
    · obtain ⟨e, -, hfill⟩ := fillGroups_first hfull hexp
      refine ⟨hexp, ?_⟩
      by_contra hnot
      rw [not_or] at hnot
      rw [hfill, if_neg hnot.1, if_neg hnot.2] at h
      cases h
    · have hflat : [I, J].flatten = I ++ J := by simp
      unfold fillGroups at h
      simp only [hflat, if_neg hfull, List.headD_cons, hexp, Bool.not_false, if_true] at h
      cases h

theorem fillGroups_unit {I J : Shape} (hne : t.middle ≠ I ++ J)
    (h : t.middle.expandsTo I = true) (hone : J.numel = 1) :
    ∃ f, t.fillGroups [I, J] = .ok f ∧
      f.View t.batch (I ++ J) t.base fun b w k =>
        t.cell b (t.middle.project (w.take I.length)) k := by
  obtain ⟨e, ve, hfill⟩ := fillGroups_first hne h
  obtain ⟨f, hf, vf⟩ := exists_reshape_unit ve.middle_eq hone
  rw [ve.batch_eq, ve.base_eq] at hf vf
  refine ⟨f, by rw [hfill, if_pos hone, hf], vf.congr fun {b w k} hb hw hk => ?_⟩
  obtain ⟨p, q, rfl, hp, -⟩ := Shape.exists_append_of_inBounds hw
  rw [List.take_left' hp.length_eq]
  exact ve.cell_eq hb hp hk

theorem fillGroups_pair {I : Shape} (h : t.middle.expandsTo I = true) :
    ∃ f, t.fillGroups [I, I] = .ok f ∧ f.batch = t.batch ∧ f.middle = I ++ I ∧
      f.base = t.base ∧
      ∀ {b p q k}, Shape.InBounds t.batch b → Shape.InBounds I p → Shape.InBounds I q →
        k < t.base.numel →
        f.cell b (p ++ q) k = if p = q then t.cell b (t.middle.project p) k else 0 := by
  by_cases hfull : t.middle = I ++ I
  · have hflat : [I, I].flatten = I ++ I := by simp
    have hnil : I = [] := by
      have hle := Shape.expandsTo_length h
      rw [hfull, List.length_append] at hle
      exact List.length_eq_zero_iff.1 (by omega)
    subst hnil
    refine ⟨t, fillGroups_of_flat (hfull.trans hflat.symm), rfl, hfull, rfl,
      fun {b p q k} _ hp hq _ => ?_⟩
    rw [List.length_eq_zero_iff.1 hp.length_eq, List.length_eq_zero_iff.1 hq.length_eq,
      if_pos rfl, hfull]
    rfl
  · by_cases hone : I.numel = 1
    · obtain ⟨f, hf, vf⟩ := fillGroups_unit hfull h hone
      refine ⟨f, hf, vf.batch_eq, vf.middle_eq, vf.base_eq, fun {b p q k} hb hp hq hk => ?_⟩
      have hp₀ := Shape.offset_lt hp
      have hq₀ := Shape.offset_lt hq
      have hpq : p = q := Shape.offset_injective hp hq (by omega)
      rw [if_pos hpq, vf.cell_eq hb (Shape.inBounds_append hp hq) hk, List.take_left' hp.length_eq]
    · obtain ⟨e, ve, hfill⟩ := fillGroups_first hfull h
      have hmiddle : e.middle = [] ++ I := ve.middle_eq
      obtain ⟨f, hf, hfb, hfm, hfbase, hcell⟩ := diagonalize_cell hmiddle
      refine ⟨f, by rw [hfill, if_neg hone, if_pos rfl, hf], hfb.trans ve.batch_eq, hfm,
        hfbase.trans ve.base_eq, fun {b p q k} hb hp hq hk => ?_⟩
      rw [ve.batch_eq, ve.base_eq] at hcell
      have hdiag := hcell hb (o := []) trivial hp hq hk
      rw [List.nil_append, List.nil_append, ve.cell_eq hb hp hk] at hdiag
      exact hdiag

end Fill

/-! ## Matrices over groups -/

/-- A tensor of matrices whose rows are indexed by the multi-indices of `I` and `B` and whose
columns by those of `J` and `C`. -/
structure Assembled [Zero α] (t : Tensor α) (batch I B J C : Shape)
    (f : Index → Index → Index → Index → Index → α) : Prop where
  batch_eq : t.batch = batch
  middle_eq : t.middle = []
  base_eq : t.base = [I.numel * B.numel, J.numel * C.numel]
  entry_eq : ∀ {b p i q j}, Shape.InBounds batch b → Shape.InBounds I p → Shape.InBounds B i →
    Shape.InBounds J q → Shape.InBounds C j →
    t.entry (b ++ [(I ++ B).offset (p ++ i), (J ++ C).offset (q ++ j)]) = f b p i q j

section Matrices

variable {batch I B J C : Shape} {f g : Index → Index → Index → Index → Index → α}

theorem Assembled.cell_eq [Zero α] {s : Tensor α} (hs : s.Assembled batch I B J C f)
    {b p i q j : Index} (hb : Shape.InBounds batch b) (hp : Shape.InBounds I p)
    (hi : Shape.InBounds B i) (hq : Shape.InBounds J q) (hj : Shape.InBounds C j) :
    s.cell b [] ((I ++ B).offset (p ++ i) * (J.numel * C.numel) + (J ++ C).offset (q ++ j)) =
      f b p i q j := by
  have hread := s.entry_eq_cell [(I ++ B).offset (p ++ i), (J ++ C).offset (q ++ j)]
    (b := b) (m := []) (by rw [hs.batch_eq, hb.length_eq]) (by rw [hs.middle_eq])
  rw [List.append_nil, hs.entry_eq hb hp hi hq hj, hs.base_eq] at hread
  simpa using hread.symm

theorem Assembled.congr [Zero α] {s : Tensor α} (hs : s.Assembled batch I B J C f)
    (h : ∀ {b p i q j}, Shape.InBounds batch b → Shape.InBounds I p → Shape.InBounds B i →
      Shape.InBounds J q → Shape.InBounds C j → f b p i q j = g b p i q j) :
    s.Assembled batch I B J C g :=
  ⟨hs.batch_eq, hs.middle_eq, hs.base_eq, fun hb hp hi hq hj =>
    (hs.entry_eq hb hp hi hq hj).trans (h hb hp hi hq hj)⟩

theorem Assembled.unique [Zero α] {s t : Tensor α} (hs : s.Assembled batch I B J C f)
    (ht : t.Assembled batch I B J C g)
    (h : ∀ {b p i q j}, Shape.InBounds batch b → Shape.InBounds I p → Shape.InBounds B i →
      Shape.InBounds J q → Shape.InBounds C j → f b p i q j = g b p i q j) : s = t := by
  refine ext_entry (hs.batch_eq.trans ht.batch_eq.symm) (hs.middle_eq.trans ht.middle_eq.symm)
    (hs.base_eq.trans ht.base_eq.symm) fun idx hidx => ?_
  rw [shape, hs.batch_eq, hs.middle_eq, hs.base_eq, List.append_nil] at hidx
  obtain ⟨b, places, rfl, hb, hplaces⟩ := Shape.exists_append_of_inBounds hidx
  match places, hplaces with
  | [x, y], ⟨hx, hy, _⟩ =>
    rw [← Shape.numel_append] at hx hy
    obtain ⟨pi, hpi, rfl⟩ := Shape.exists_offset_eq hx
    obtain ⟨qj, hqj, rfl⟩ := Shape.exists_offset_eq hy
    obtain ⟨p, i, rfl, hp, hi⟩ := Shape.exists_append_of_inBounds hpi
    obtain ⟨q, j, rfl, hq, hj⟩ := Shape.exists_append_of_inBounds hqj
    rw [hs.entry_eq hb hp hi hq hj, ht.entry_eq hb hp hi hq hj, h hb hp hi hq hj]

theorem assemble_pair [Zero α] {t filled : Tensor α} (hbase : t.base = B ++ C)
    (hfill : t.fillGroups [I, J] = .ok filled) (hfb : filled.batch = batch)
    (hm : filled.middle = I ++ J) (hfbase : filled.base = B ++ C) :
    ∃ r, t.assemble [I, J] [B, C] = .ok r ∧
      r.Assembled batch I B J C fun b p i q j => filled.entry (b ++ (p ++ q) ++ (i ++ j)) := by
  have hflat : ∀ s s' : Shape, [s, s'].flatten = s ++ s' := fun s s' => by simp
  have hgroups : [I, J].length = [B, C].length := rfl
  obtain ⟨r, hr, hrb, hrm, hrbase, hentry⟩ := assemble_of_filled (List.cons_ne_nil I [J]) hgroups
    (by rw [hflat, hbase]) hfill (by rw [hflat, hm]) (by rw [hflat, hfbase])
  refine ⟨r, hr, hrb.trans hfb, hrm, hrbase, fun {b p i q j} hb hp hi hq hj => ?_⟩
  have hread := hentry (hfb.symm ▸ hb) (.cons hp (.cons hq .nil)) (.cons hi (.cons hj .nil))
  rw [hflat, hflat, ← List.append_assoc b] at hread
  exact hread

end Matrices

section Product

variable [CommRing α] {s t : Tensor α} {batch batch' join I B J C K D : Shape}
  {f g : Index → Index → Index → Index → Index → α}

theorem Assembled.matmul [BEq α] [LawfulBEq α] (hs : s.Assembled batch I B K D f)
    (ht : t.Assembled batch' K D J C g) (hbatch : Shape.broadcast batch batch' = .ok join) :
    ∃ r, s.matmul t = .ok r ∧ r.Assembled join I B J C fun b p i q j =>
      sumOver K fun u => sumOver D fun l =>
        f (batch.project b) p i u l * g (batch'.project b) u l q j := by
  obtain ⟨hbs, hbt, -⟩ := Shape.broadcast_expandsTo hbatch
  have vs := s.view_self
  have vt := t.view_self
  rw [hs.batch_eq, hs.middle_eq, hs.base_eq] at vs
  rw [ht.batch_eq, ht.middle_eq, ht.base_eq] at vt
  obtain ⟨r, hr, vr⟩ := vs.matmul vt hbatch (Shape.broadcast_nil_left [])
  refine ⟨r, hr, vr.batch_eq, vr.middle_eq, vr.base_eq, fun {b p i q j} hb hp hi hq hj => ?_⟩
  have hx := Shape.offset_lt (Shape.inBounds_append hp hi)
  have hy := Shape.offset_lt (Shape.inBounds_append hq hj)
  rw [Shape.numel_append] at hx hy
  have hin : Shape.InBounds [I.numel * B.numel, J.numel * C.numel]
      [(I ++ B).offset (p ++ i), (J ++ C).offset (q ++ j)] := ⟨hx, hy, trivial⟩
  have hread := vr.entry_eq hb (m := []) trivial hin
  have hplace : Shape.offset [I.numel * B.numel, J.numel * C.numel]
      [(I ++ B).offset (p ++ i), (J ++ C).offset (q ++ j)] =
        (I ++ B).offset (p ++ i) * (J.numel * C.numel) + (J ++ C).offset (q ++ j) := by simp
  have hdigits := Shape.place_div_mod (a := (I ++ B).offset (p ++ i)) hy
  rw [List.append_nil, hplace, hdigits.1, hdigits.2, ← Shape.numel_append K, sum_range_numel,
    sumOver_append] at hread
  rw [hread]
  apply sumOver_congr
  intro u hu
  apply sumOver_congr
  intro l hl
  rw [Shape.numel_append K]
  congr 1
  · exact hs.cell_eq (Shape.project_inBounds hbs hb) hp hi hu hl
  · exact ht.cell_eq (Shape.project_inBounds hbt hb) hu hl hq hj

end Product

end Tensor

end TieredCalculus
