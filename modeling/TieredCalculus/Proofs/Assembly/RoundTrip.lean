import Mathlib.Algebra.Ring.Int.Defs
import TieredCalculus.Proofs.Assembly.Groups

/-! # Assembly and its inverse

Disassembly unfolds the base of an assembled tensor into the intermediate and base dimensions
of each group and moves the intermediate ones to the front. A tensor and its assembled form
hold the same entries, each at the place that its multi-indices have in their groups, and each
of the two determines the other, so that assembly and disassembly are inverse.
-/

namespace TieredCalculus.Tensor

variable {α : Type}

/-! ## Alternating parts -/

/-- The members of two lists in turn. -/
def alternating {β : Type} (ms bs : List β) : List β := (ms.zip bs).flatMap fun g => [g.1, g.2]

def ofParity (r : Nat) (parts : List (List Nat)) : List Nat :=
  (parts.zipIdx.filter fun a => a.2 % 2 = r).flatMap (·.1)

private theorem parity_alternating (n : Nat) {ms bs : List (List Nat)}
    (h : ms.length = bs.length) :
    (((alternating ms bs).zipIdx (2 * n)).filter fun a => a.2 % 2 = 0).flatMap (·.1) =
        ms.flatten ∧
      (((alternating ms bs).zipIdx (2 * n)).filter fun a => a.2 % 2 = 1).flatMap (·.1) =
        bs.flatten := by
  induction ms generalizing n bs with
  | nil =>
    rw [List.length_eq_zero_iff.1 h.symm]
    exact ⟨rfl, rfl⟩
  | cons m ms ih =>
    cases bs with
    | nil => cases h
    | cons b bs =>
      obtain ⟨heven, hodd⟩ := ih (n + 1) (Nat.succ.inj h)
      have hsplit : alternating (m :: ms) (b :: bs) = m :: b :: alternating ms bs := rfl
      have hodd' : (2 * n + 1) % 2 = 1 := by omega
      rw [hsplit]
      simp [List.zipIdx_cons, hodd', ← heven, ← hodd, Nat.mul_add, Nat.add_assoc]

theorem ofParity_zero_alternating {ms bs : List (List Nat)} (h : ms.length = bs.length) :
    ofParity 0 (alternating ms bs) = ms.flatten := (parity_alternating 0 h).1

theorem ofParity_one_alternating {ms bs : List (List Nat)} (h : ms.length = bs.length) :
    ofParity 1 (alternating ms bs) = bs.flatten := (parity_alternating 0 h).2

theorem rearranged_ofParity (r : Nat) (parts : List (List Nat)) (idx : List Nat) :
    rearranged (ofParity r parts) idx = ofParity r (parts.map (rearranged · idx)) := by
  unfold ofParity
  rw [List.zipIdx_map, List.filter_map, List.flatMap_map, rearranged, List.map_flatMap]
  rfl

theorem ofParity_perm (parts : List (List Nat)) :
    (ofParity 0 parts ++ ofParity 1 parts).Perm parts.flatten := by
  have hodd : ∀ a : List Nat × Nat, decide (a.2 % 2 = 1) = !decide (a.2 % 2 = 0) := by
    intro a
    rw [← decide_not, decide_eq_decide]
    omega
  have hall := (List.filter_append_perm (fun a : List Nat × Nat => a.2 % 2 = 0)
    parts.zipIdx).flatMap_right (·.1)
  have hparts : parts.zipIdx.flatMap (·.1) = parts.flatten := by
    rw [List.flatMap_def, List.zipIdx_map_fst]
  rw [List.flatMap_append, hparts] at hall
  unfold ofParity
  simp only [hodd]
  exact hall

theorem flatten_alternating (ms bs : List (List Nat)) :
    (alternating ms bs).flatten = (List.zipWith (· ++ ·) ms bs).flatten := by
  induction ms generalizing bs with
  | nil => rfl
  | cons m ms ih =>
    cases bs with
    | nil => rfl
    | cons b bs =>
      have hrest := ih bs
      unfold alternating at hrest ⊢
      simp [hrest]

theorem map_alternating {β γ : Type} (f : β → γ) (ms bs : List β) :
    (alternating ms bs).map f = alternating (ms.map f) (bs.map f) := by
  unfold alternating
  rw [List.zip_map, List.flatMap_map, List.map_flatMap]
  rfl

theorem rearranged_ofParity_runs (r : Nat) (b : List Nat) (ms bs : List (List Nat)) :
    rearranged (ofParity r (runs b.length ((alternating ms bs).map (·.length))))
      (b ++ (alternating ms bs).flatten) = ofParity r (alternating ms bs) := by
  have hparts := map_rearranged_runs b [] (alternating ms bs)
  rw [List.append_nil] at hparts
  rw [rearranged_ofParity, hparts]

theorem length_ofParity_runs (batchRank : Nat) {ms bs : List (List Nat)}
    (h : ms.length = bs.length) :
    (ofParity 0 (runs batchRank ((alternating ms bs).map (·.length)))).length =
      ms.flatten.length := by
  have hparts := rearranged_ofParity_runs 0 (List.replicate batchRank 0) ms bs
  rw [ofParity_zero_alternating h, List.length_replicate] at hparts
  rw [← hparts, rearranged, List.length_map]

/-- The axes of disassembled groups: those of the batch, then the intermediate axes of all
groups and the base axes of all groups. -/
def splitAxes (batchRank : Nat) (sizes : List Nat) : List Nat :=
  List.range batchRank ++ ofParity 0 (runs batchRank sizes) ++ ofParity 1 (runs batchRank sizes)

theorem splitAxes_perm (batchRank : Nat) (sizes : List Nat) :
    (splitAxes batchRank sizes).Perm (List.range (batchRank + Shape.total sizes)) := by
  unfold splitAxes
  rw [List.range_add, ← flatten_runs, List.append_assoc]
  exact (ofParity_perm _).append_left _

theorem rearranged_splitAxes (b : List Nat) {ms bs : List (List Nat)}
    (h : ms.length = bs.length) :
    rearranged (splitAxes b.length ((alternating ms bs).map (·.length)))
      (b ++ (List.zipWith (· ++ ·) ms bs).flatten) = b ++ (ms.flatten ++ bs.flatten) := by
  have hb := rearranged_run [] b (alternating ms bs).flatten
  simp only [List.length_nil, Nat.zero_add, List.map_id', List.nil_append] at hb
  unfold splitAxes
  rw [← flatten_alternating, rearranged_append, rearranged_append, hb, rearranged_ofParity_runs,
    rearranged_ofParity_runs, ofParity_zero_alternating h, ofParity_one_alternating h,
    List.append_assoc]

/-! ## Places in the groups -/

/-- The place of each pair of an intermediate and a base multi-index in its group. -/
def groupPlaces : List Shape → List Shape → List Index → List Index → Index
  | I :: middles, B :: bases, m :: ms, b :: bs =>
    (I.offset m * B.numel + B.offset b) :: groupPlaces middles bases ms bs
  | _, _, _, _ => []

theorem groupPlaces_eq {middles bases : List Shape} {ms bs : List Index}
    (hms : List.Forall₂ Shape.InBounds middles ms) :
    groupPlaces middles bases ms bs = List.zipWith Shape.offset
      (List.zipWith (· ++ ·) middles bases) (List.zipWith (· ++ ·) ms bs) := by
  induction hms generalizing bases bs with
  | nil => rfl
  | cons hm _ ih =>
    cases bases with
    | nil => rfl
    | cons B bases =>
      cases bs with
      | nil => rfl
      | cons b bs =>
        rw [groupPlaces, ih, List.zipWith_cons_cons, List.zipWith_cons_cons,
          List.zipWith_cons_cons, Shape.offset_append hm.length_eq]

theorem exists_flatten_of_inBounds {shapes : List Shape} {idx : Index}
    (h : Shape.InBounds shapes.flatten idx) :
    ∃ parts, List.Forall₂ Shape.InBounds shapes parts ∧ idx = parts.flatten := by
  induction shapes generalizing idx with
  | nil =>
    rw [List.length_eq_zero_iff.1 h.length_eq]
    exact ⟨[], .nil, rfl⟩
  | cons s shapes ih =>
    obtain ⟨is, rest, rfl, his, hrest⟩ := Shape.exists_append_of_inBounds h
    obtain ⟨parts, hparts, rfl⟩ := ih hrest
    exact ⟨is :: parts, .cons his hparts, rfl⟩

theorem exists_groupPlaces {middles bases : List Shape} (hlen : middles.length = bases.length)
    {places : Index} (h : Shape.InBounds (assembledSizes middles bases) places) :
    ∃ ms bs, List.Forall₂ Shape.InBounds middles ms ∧ List.Forall₂ Shape.InBounds bases bs ∧
      places = groupPlaces middles bases ms bs := by
  induction middles generalizing bases places with
  | nil =>
    rw [List.length_eq_zero_iff.1 hlen.symm] at h ⊢
    rw [List.length_eq_zero_iff.1 h.length_eq]
    exact ⟨[], [], .nil, .nil, rfl⟩
  | cons I middles ih =>
    cases bases with
    | nil => cases hlen
    | cons B bases =>
      cases places with
      | nil => exact h.elim
      | cons c places =>
        obtain ⟨hc, hrest⟩ := h
        obtain ⟨ms, bs, hms, hbs, rfl⟩ := ih (Nat.succ.inj hlen) hrest
        have hcell : c < Shape.numel (I ++ B) := by
          rw [Shape.numel_append]
          exact hc
        obtain ⟨mb, hmb, rfl⟩ := Shape.exists_offset_eq hcell
        obtain ⟨m, b, rfl, hm, hb⟩ := Shape.exists_append_of_inBounds hmb
        refine ⟨m :: ms, b :: bs, .cons hm hms, .cons hb hbs, ?_⟩
        rw [groupPlaces, Shape.offset_append hm.length_eq]

/-! ## Disassembly -/

section RoundTrip

variable [Zero α] {middles bases : List Shape} {t a : Tensor α}

/-- The tensor `a` is the assembled form of `t`. -/
structure Folds (middles bases : List Shape) (t a : Tensor α) : Prop where
  middle_eq : t.middle = middles.flatten
  base_eq : t.base = bases.flatten
  folded_batch_eq : a.batch = t.batch
  folded_middle_eq : a.middle = []
  folded_base_eq : a.base = assembledSizes middles bases
  entry_eq : ∀ {b ms bs}, Shape.InBounds t.batch b → List.Forall₂ Shape.InBounds middles ms →
    List.Forall₂ Shape.InBounds bases bs →
    a.entry (b ++ groupPlaces middles bases ms bs) = t.entry (b ++ (ms.flatten ++ bs.flatten))

theorem exists_assemble (hne : middles ≠ []) (hlen : middles.length = bases.length)
    (hm : t.middle = middles.flatten) (hbase : t.base = bases.flatten) :
    ∃ a, t.assemble middles bases = .ok a ∧ Folds middles bases t a := by
  obtain ⟨a, ha, hb, hm', hbase', hentry⟩ :=
    assemble_of_filled hne hlen hbase (fillGroups_of_flat hm) hm hbase
  refine ⟨a, ha, hm, hbase, hb, hm', hbase', fun hin hms hbs => ?_⟩
  rw [groupPlaces_eq hms]
  exact hentry hin hms hbs

theorem disassemble_eq (hlen : middles.length = bases.length) (hm : a.middle = [])
    (hbase : a.base = assembledSizes middles bases) :
    a.disassemble middles bases =
      a.reshapeBase (List.zipWith (· ++ ·) middles bases).flatten >>= fun u =>
        u.permute (splitAxes u.batch.length ((alternating middles bases).map (·.length)))
          u.batch.length middles.flatten.length := by
  have hcheck : ¬(decide (a.middle.length ≠ 0) ||
      decide (a.base ≠ assembledSizes middles bases)) = true := by
    simp [hm, hbase]
  have hgroups : ((middles.zip bases).flatMap fun g => g.1 ++ g.2) =
      (List.zipWith (· ++ ·) middles bases).flatten := by
    rw [List.flatMap_def, List.map_zip_eq_zipWith]
    rfl
  have hsizes : ((middles.zip bases).flatMap fun g => [g.1.length, g.2.length]) =
      (alternating middles bases).map (·.length) := by
    rw [alternating, List.map_flatMap]
    rfl
  unfold disassemble
  simp only [if_neg hcheck, hgroups, hsizes]
  refine congrArg _ (funext fun u => ?_)
  rw [← length_ofParity_runs u.batch.length hlen]
  rfl

theorem exists_disassemble (hlen : middles.length = bases.length) (hm : a.middle = [])
    (hbase : a.base = assembledSizes middles bases) :
    ∃ t, a.disassemble middles bases = .ok t ∧ Folds middles bases t a := by
  have va := a.view_self
  rw [hm, hbase, ← map_numel_groups] at va
  obtain ⟨u, hu, vu⟩ := va.reshapeBase (Shape.numel_map_numel _).symm
  have hperm := splitAxes_perm a.batch.length ((alternating middles bases).map (·.length))
  have hrank : u.rank = a.batch.length +
      Shape.total ((alternating middles bases).map (·.length)) := by
    rw [rank, shape, vu.batch_eq, vu.middle_eq, vu.base_eq, total_map_length,
      flatten_alternating, List.append_nil, List.length_append]
  rw [← hrank] at hperm
  have hshape : rearranged (splitAxes a.batch.length
      ((alternating middles bases).map (·.length))) u.shape =
        a.batch ++ (middles.flatten ++ bases.flatten) := by
    rw [shape, vu.batch_eq, vu.middle_eq, vu.base_eq, List.append_nil,
      rearranged_splitAxes a.batch hlen]
  have hfit : a.batch.length + middles.flatten.length ≤ u.rank := by
    have hlength := congrArg List.length hshape
    rw [rearranged, List.length_map, hperm.length_eq, List.length_range, List.length_append,
      List.length_append] at hlength
    omega
  obtain ⟨t, ht, htb, htm, htbase, hentry⟩ :=
    permute_entry a.batch.length middles.flatten.length hperm hfit
  rw [hshape, List.take_left] at htb
  rw [hshape, List.drop_left, List.take_left] at htm
  rw [hshape, List.drop_left, List.drop_left] at htbase
  refine ⟨t, ?_, htm, htbase, htb.symm, hm, hbase, fun {b ms bs} hb hms hbs => ?_⟩
  · rw [disassemble_eq hlen hm hbase, Update.except_bind_eq_ok]
    refine ⟨u, hu, ?_⟩
    rw [vu.batch_eq]
    exact ht
  · have hindex := rearranged_splitAxes b
      ((List.Forall₂.length_eq hms).symm.trans (hlen.trans (List.Forall₂.length_eq hbs)))
    rw [map_alternating, Shape.map_length_of_forall₂ hms, Shape.map_length_of_forall₂ hbs,
      ← map_alternating, hb.length_eq, htb] at hindex
    rw [htb] at hb
    have hin : Shape.InBounds u.shape (b ++ (List.zipWith (· ++ ·) ms bs).flatten) := by
      rw [shape, vu.batch_eq, vu.middle_eq, vu.base_eq, List.append_nil]
      exact Shape.inBounds_append hb
        (Shape.inBounds_flatten (Shape.forall₂_zipWith_append hms hbs))
    rw [groupPlaces_eq hms, entry_fold va vu hb (Shape.forall₂_zipWith_append hms hbs), ← hindex,
      hentry hin]

theorem Folds.left_unique {t' : Tensor α} (h : Folds middles bases t a)
    (h' : Folds middles bases t' a) : t = t' := by
  have hbatch : t.batch = t'.batch := h.folded_batch_eq.symm.trans h'.folded_batch_eq
  refine ext_entry hbatch (h.middle_eq.trans h'.middle_eq.symm)
    (h.base_eq.trans h'.base_eq.symm) fun idx hidx => ?_
  rw [shape, List.append_assoc, h.middle_eq, h.base_eq] at hidx
  obtain ⟨b, rest, rfl, hb, hrest⟩ := Shape.exists_append_of_inBounds hidx
  obtain ⟨m, e, rfl, hm, he⟩ := Shape.exists_append_of_inBounds hrest
  obtain ⟨ms, hms, rfl⟩ := exists_flatten_of_inBounds hm
  obtain ⟨bs, hbs, rfl⟩ := exists_flatten_of_inBounds he
  rw [← h.entry_eq hb hms hbs, h'.entry_eq (hbatch ▸ hb) hms hbs]

theorem Folds.right_unique {a' : Tensor α} (hlen : middles.length = bases.length)
    (h : Folds middles bases t a) (h' : Folds middles bases t a') : a = a' := by
  refine ext_entry (h.folded_batch_eq.trans h'.folded_batch_eq.symm)
    (h.folded_middle_eq.trans h'.folded_middle_eq.symm)
    (h.folded_base_eq.trans h'.folded_base_eq.symm) fun idx hidx => ?_
  rw [shape, h.folded_batch_eq, h.folded_middle_eq, h.folded_base_eq, List.append_nil] at hidx
  obtain ⟨b, places, rfl, hb, hplaces⟩ := Shape.exists_append_of_inBounds hidx
  obtain ⟨ms, bs, hms, hbs, rfl⟩ := exists_groupPlaces hlen hplaces
  rw [h.entry_eq hb hms hbs, h'.entry_eq hb hms hbs]

theorem exists_assembled_back (hne : middles ≠ []) (hlen : middles.length = bases.length)
    (hm : a.middle = []) (hbase : a.base = assembledSizes middles bases) :
    ∃ t, a.disassemble middles bases = .ok t ∧ t.assemble middles bases = .ok a ∧
      t.middle = middles.flatten ∧ t.base = bases.flatten := by
  obtain ⟨t, ht, hfolds⟩ := exists_disassemble hlen hm hbase
  obtain ⟨a', ha', hfolds'⟩ := exists_assemble hne hlen hfolds.middle_eq hfolds.base_eq
  rw [← hfolds.right_unique hlen hfolds'] at ha'
  exact ⟨t, ht, ha', hfolds.middle_eq, hfolds.base_eq⟩

/-- Assembly of any number of groups puts every entry at the place of its intermediate and base
multi-index in each group, and disassembly undoes it. Every tensor of the assembled sizes is
disassembled, and assembly undoes that. -/
theorem disassemble_inverts_assemble {middles bases : List Shape} (hne : middles ≠ [])
    (hlen : middles.length = bases.length) :
    (∀ t : Tensor α, t.middle = middles.flatten → t.base = bases.flatten →
      ∃ a, t.assemble middles bases = .ok a ∧ a.batch = t.batch ∧ a.middle = [] ∧
        a.base = assembledSizes middles bases ∧
        (∀ b ms bs, Shape.InBounds t.batch b → List.Forall₂ Shape.InBounds middles ms →
          List.Forall₂ Shape.InBounds bases bs →
          a.entry (b ++ groupPlaces middles bases ms bs) =
            t.entry (b ++ ms.flatten ++ bs.flatten)) ∧
        a.disassemble middles bases = .ok t) ∧
    (∀ a : Tensor α, a.middle = [] → a.base = assembledSizes middles bases →
      ∃ t, a.disassemble middles bases = .ok t ∧ t.batch = a.batch ∧
        t.middle = middles.flatten ∧ t.base = bases.flatten ∧
        t.assemble middles bases = .ok a) := by
  refine ⟨fun t hm hbase => ?_, fun a hm hbase => ?_⟩
  · obtain ⟨a, ha, hfolds⟩ := exists_assemble hne hlen hm hbase
    obtain ⟨t', ht', hfolds'⟩ :=
      exists_disassemble hlen hfolds.folded_middle_eq hfolds.folded_base_eq
    rw [← hfolds.left_unique hfolds'] at ht'
    refine ⟨a, ha, hfolds.folded_batch_eq, hfolds.folded_middle_eq, hfolds.folded_base_eq,
      fun b ms bs hb hms hbs => ?_, ht'⟩
    rw [List.append_assoc]
    exact hfolds.entry_eq hb hms hbs
  · obtain ⟨t, ht, hfolds⟩ := exists_disassemble hlen hm hbase
    obtain ⟨a', ha', hfolds'⟩ := exists_assemble hne hlen hfolds.middle_eq hfolds.base_eq
    rw [← hfolds.right_unique hlen hfolds'] at ha'
    exact ⟨t, ht, hfolds.folded_batch_eq.symm, hfolds.middle_eq, hfolds.base_eq, ha'⟩

/-- A tensor of three groups of different ranks: rows of two, a base dimension of three and a
lone intermediate dimension. -/
def threeGroups : Tensor Int :=
  ⟨[], [2, 1], [2, 3], #[1, 2, 3, 4, 5, 6, 7, 8, 9, 10, 11, 12], rfl⟩

theorem threeGroups_assembled :
    ∃ a, threeGroups.assemble [[2], [], [1]] [[2], [3], []] = .ok a ∧ a.base = [4, 3, 1] ∧
      a.entry [3, 1, 0] = 11 ∧ a.disassemble [[2], [], [1]] [[2], [3], []] = .ok threeGroups := by
  have hne : ([[2], [], [1]] : List Shape) ≠ [] := List.cons_ne_nil _ _
  have hlen : ([[2], [], [1]] : List Shape).length = ([[2], [3], []] : List Shape).length := rfl
  obtain ⟨a, ha, -, -, hbase, hentry, hback⟩ :=
    (disassemble_inverts_assemble hne hlen).1 threeGroups rfl rfl
  refine ⟨a, ha, hbase, ?_, hback⟩
  have hplace := hentry [] [[1], [], [0]] [[1], [1], []] trivial
    (.cons (by decide) (.cons (by decide) (.cons (by decide) .nil)))
    (.cons (by decide) (.cons (by decide) (.cons (by decide) .nil)))
  exact hplace.trans (by decide)

end RoundTrip

end TieredCalculus.Tensor
