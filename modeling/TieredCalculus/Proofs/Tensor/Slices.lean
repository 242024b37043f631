import Mathlib.Algebra.Ring.Int.Defs
import TieredCalculus.Proofs.Shape.Projection
import TieredCalculus.Tensor.Arrange

/-! # Slices of a tensor along a base axis

Slices that follow one another cut a tensor along one of its base axes. Splitting returns exactly
the parts that are cut out in the given sizes, and the concatenation of parts is the one tensor
from which they are cut. So each undoes the other, wherever the axis lies behind the leading
dimensions, and also where some of the sizes are zero.
-/

namespace TieredCalculus.Tensor

variable {α : Type} {batch middle pre post : Shape} {start n : Nat}

/-- The tensor has `n` places along the base axis between the sizes `pre` and `post`. -/
structure Slab (batch middle pre : Shape) (n : Nat) (post : Shape) (t : Tensor α) : Prop where
  batch_eq : t.batch = batch
  middle_eq : t.middle = middle
  base_eq : t.base = pre ++ n :: post

theorem Slab.shape_eq {t : Tensor α} (h : Slab batch middle pre n post t) :
    t.shape = (batch ++ middle ++ pre) ++ n :: post := by
  rw [shape, h.batch_eq, h.middle_eq, h.base_eq, List.append_assoc _ pre]

theorem Slab.axis_eq {t : Tensor α} (h : Slab batch middle pre n post t) :
    t.leadingRank + pre.length = (batch ++ middle ++ pre).length := by
  rw [leadingRank, h.batch_eq, h.middle_eq]
  simp only [List.length_append]

theorem Slab.base_getElem? {t : Tensor α} (h : Slab batch middle pre n post t) :
    t.base[pre.length]? = some n := by
  rw [h.base_eq]
  simp

theorem Slab.base_getD {t : Tensor α} (h : Slab batch middle pre n post t) :
    t.base.getD pre.length 0 = n := by
  rw [List.getD_eq_getElem?_getD, h.base_getElem?, Option.getD_some]

private theorem getD_place {a c : Index} {k j : Nat} (hk : a.length = k) :
    (a ++ j :: c).getD k 0 = j := by
  subst hk
  simp

private theorem modify_place {a c : Index} {k j : Nat} (f : Nat → Nat) (hk : a.length = k) :
    (a ++ j :: c).modify k f = a ++ f j :: c := by
  subst hk
  rw [List.modify_eq_take_cons_drop (by simp)]
  simp

theorem exists_place_of_inBounds {front post : Shape} {idx : Index}
    (h : Shape.InBounds (front ++ n :: post) idx) :
    ∃ a j c, idx = a ++ j :: c ∧ Shape.InBounds front a ∧ j < n ∧ Shape.InBounds post c := by
  obtain ⟨a, rest, rfl, ha, hrest⟩ := Shape.exists_append_of_inBounds h
  cases rest with
  | nil => exact hrest.elim
  | cons j c => exact ⟨a, j, c, rfl, ha, hrest.1, hrest.2⟩

theorem exists_slab {t : Tensor α} {axis : Nat} (h : axis < t.base.length) :
    ∃ pre n post, pre.length = axis ∧ Slab t.batch t.middle pre n post t := by
  refine ⟨t.base.take axis, t.base[axis], t.base.drop (axis + 1), by simp [Nat.le_of_lt h],
    rfl, rfl, ?_⟩
  rw [← List.drop_eq_getElem_cons h, List.take_append_drop]

variable [Zero α]

/-- The slab holds the places of `t` from `start` on. -/
structure Window (t : Tensor α) (batch middle pre : Shape) (start n : Nat) (post : Shape)
    (part : Tensor α) : Prop extends Slab batch middle pre n post part where
  entry_eq : ∀ {a c : Index} {j : Nat}, Shape.InBounds (batch ++ middle ++ pre) a → j < n →
    Shape.InBounds post c → part.entry (a ++ j :: c) = t.entry (a ++ (start + j) :: c)

theorem Window.unique {t s s' : Tensor α} (h : Window t batch middle pre start n post s)
    (h' : Window t batch middle pre start n post s') : s = s' := by
  refine ext_entry (h.batch_eq.trans h'.batch_eq.symm) (h.middle_eq.trans h'.middle_eq.symm)
    (h.base_eq.trans h'.base_eq.symm) fun idx hidx => ?_
  rw [h.shape_eq] at hidx
  obtain ⟨a, j, c, rfl, ha, hj, hc⟩ := exists_place_of_inBounds hidx
  rw [h.entry_eq ha hj hc, h'.entry_eq ha hj hc]

/-! ## Slicing -/

theorem Slab.slice {t : Tensor α} {m : Nat} (h : Slab batch middle pre m post t)
    (hn : start + n ≤ m) :
    ∃ part, t.slice pre.length start (start + n) = .ok part ∧
      Window t batch middle pre start n post part := by
  have hrange : ¬(decide (start + n > m) || decide (start > start + n)) = true := by
    simp only [Bool.or_eq_true, decide_eq_true_eq]
    omega
  unfold Tensor.slice
  simp only [h.base_getElem?, if_neg hrange]
  refine ⟨_, rfl, ⟨h.batch_eq, h.middle_eq, ?_⟩, fun {a c j} ha hj hc => ?_⟩
  · change t.base.set pre.length _ = _
    rw [h.base_eq, Nat.add_sub_cancel_left]
    simp
  · have hin : Shape.InBounds (t.batch ++ t.middle ++ t.base.set pre.length (start + n - start))
        (a ++ j :: c) := by
      rw [h.batch_eq, h.middle_eq, h.base_eq, Nat.add_sub_cancel_left]
      simp only [List.set_append_right, Nat.le_refl, Nat.sub_self, List.set_cons_zero]
      rw [← List.append_assoc]
      exact Shape.inBounds_append ha ⟨hj, hc⟩
    rw [entry_tabulate _ hin, modify_place _ (ha.length_eq.trans h.axis_eq.symm), Nat.add_comm]

theorem Window.slice_eq {t part : Tensor α} {m : Nat} (ht : Slab batch middle pre m post t)
    (hn : start + n ≤ m) (h : Window t batch middle pre start n post part) :
    t.slice pre.length start (start + n) = .ok part := by
  obtain ⟨part', hpart', hwindow⟩ := ht.slice hn
  rw [hpart', hwindow.unique h]

/-! ## Splitting -/

/-- The parts are windows of `t` of the given sizes, one after another from a place on. -/
inductive Cuts (t : Tensor α) (batch middle pre post : Shape) :
    Nat → List Nat → List (Tensor α) → Prop
  | nil {start : Nat} : Cuts t batch middle pre post start [] []
  | cons {start n : Nat} {part : Tensor α} {sizes : List Nat} {parts : List (Tensor α)} :
      Window t batch middle pre start n post part →
        Cuts t batch middle pre post (start + n) sizes parts →
          Cuts t batch middle pre post start (n :: sizes) (part :: parts)

variable {t : Tensor α} {sizes : List Nat} {parts : List (Tensor α)}

theorem Cuts.slabs (h : Cuts t batch middle pre post start sizes parts) :
    List.Forall₂ (fun n part => Slab batch middle pre n post part) sizes parts := by
  induction h with
  | nil => exact .nil
  | cons hwindow _ ih => exact .cons hwindow.toSlab ih

theorem Cuts.unique {parts' : List (Tensor α)}
    (h : Cuts t batch middle pre post start sizes parts)
    (h' : Cuts t batch middle pre post start sizes parts') : parts = parts' := by
  induction h generalizing parts' with
  | nil => cases h' with | nil => rfl
  | cons hwindow _ ih =>
    cases h' with
    | cons hwindow' hrest' => rw [hwindow.unique hwindow', ih hrest']

theorem Slab.slicesFrom {m : Nat} (h : Slab batch middle pre m post t)
    (hm : start + Shape.total sizes ≤ m) :
    ∃ parts, t.slicesFrom pre.length start sizes = .ok parts ∧
      Cuts t batch middle pre post start sizes parts := by
  induction sizes generalizing start with
  | nil => exact ⟨[], rfl, .nil⟩
  | cons n sizes ih =>
    rw [Shape.total_cons, ← Nat.add_assoc] at hm
    obtain ⟨part, hpart, hwindow⟩ := h.slice (Nat.le_of_add_right_le hm)
    obtain ⟨parts, hparts, hcuts⟩ := ih hm
    refine ⟨part :: parts, ?_, .cons hwindow hcuts⟩
    rw [Tensor.slicesFrom, hpart]
    change (t.slicesFrom pre.length (start + n) sizes >>= fun rest => pure (part :: rest)) = _
    rw [hparts]
    rfl

theorem Slab.exists_split (h : Slab batch middle pre (Shape.total sizes) post t) :
    ∃ parts, t.split sizes pre.length = .ok parts ∧
      Cuts t batch middle pre post 0 sizes parts := by
  obtain ⟨parts, hparts, hcuts⟩ := h.slicesFrom (Nat.le_of_eq (Nat.zero_add _))
  exact ⟨parts, (if_pos h.base_getElem?).trans hparts, hcuts⟩

theorem Slab.split_eq_ok (h : Slab batch middle pre (Shape.total sizes) post t) :
    t.split sizes pre.length = .ok parts ↔ Cuts t batch middle pre post 0 sizes parts := by
  obtain ⟨parts', hparts', hcuts⟩ := h.exists_split
  rw [hparts', Except.ok.injEq]
  exact ⟨fun heq => heq ▸ hcuts, hcuts.unique⟩

/-! ## Concatenation -/

omit [Zero α] in
theorem sizes_of_slabs
    (h : List.Forall₂ (fun n part => Slab batch middle pre n post part) sizes parts) :
    parts.map (fun part => part.base.getD pre.length 0) = sizes := by
  induction h with
  | nil => rfl
  | cons hslab _ ih => rw [List.map_cons, ih, hslab.base_getD]

omit [Zero α] in
private theorem slab_of_mem
    (h : List.Forall₂ (fun n part => Slab batch middle pre n post part) sizes parts)
    {part : Tensor α} (hpart : part ∈ parts) : ∃ n, Slab batch middle pre n post part := by
  induction h with
  | nil => cases hpart
  | cons hslab _ ih =>
    rcases List.mem_cons.1 hpart with rfl | hpart
    · exact ⟨_, hslab⟩
    · exact ih hpart

private theorem entryAlong_cons {part : Tensor α} (h : Slab batch middle pre n post part)
    {a c : Index} (ha : Shape.InBounds (batch ++ middle ++ pre) a) (i : Nat) :
    entryAlong (batch ++ middle ++ pre).length (part :: parts) (a ++ i :: c) =
      if i < n then part.entry (a ++ i :: c)
      else entryAlong (batch ++ middle ++ pre).length parts (a ++ (i - n) :: c) := by
  have hsize : part.shape.getD (batch ++ middle ++ pre).length 0 = n := by
    rw [h.shape_eq]
    exact getD_place rfl
  rw [entryAlong]
  simp only [hsize, getD_place ha.length_eq, modify_place _ ha.length_eq]

/-- Slabs are cut out of a tensor exactly when it is read along the axis as they are. -/
theorem cuts_iff (h : List.Forall₂ (fun n part => Slab batch middle pre n post part) sizes parts) :
    Cuts t batch middle pre post start sizes parts ↔
      ∀ {a c : Index} {i : Nat}, Shape.InBounds (batch ++ middle ++ pre) a →
        i < Shape.total sizes → Shape.InBounds post c →
          t.entry (a ++ (start + i) :: c) =
            entryAlong (batch ++ middle ++ pre).length parts (a ++ i :: c) := by
  induction h generalizing start with
  | nil => exact ⟨fun _ _ _ i _ hi => absurd hi (Nat.not_lt_zero i), fun _ => .nil⟩
  | @cons n part sizes parts hslab _ ih =>
    rw [Shape.total_cons]
    constructor
    · rintro (_ | ⟨hwindow, hrest⟩) a c i ha hi hc
      rw [entryAlong_cons hslab ha]
      split
      · rename_i hin
        exact (hwindow.entry_eq ha hin hc).symm
      · rename_i hout
        have hplace : start + i = start + n + (i - n) := by omega
        rw [hplace, ih.1 hrest ha (by omega) hc]
    · intro hread
      refine .cons ⟨hslab, fun {a c j} ha hj hc => ?_⟩ (ih.2 fun {a c i} ha hi hc => ?_)
      · rw [hread ha (by omega) hc, entryAlong_cons hslab ha, if_pos hj]
      · rw [Nat.add_assoc, hread ha (by omega) hc, entryAlong_cons hslab ha, if_neg (by omega),
          Nat.add_sub_cancel_left]

theorem Cuts.ext {s : Tensor α} (hs : Slab batch middle pre (Shape.total sizes) post s)
    (ht : Slab batch middle pre (Shape.total sizes) post t)
    (hcuts : Cuts s batch middle pre post 0 sizes parts)
    (hcuts' : Cuts t batch middle pre post 0 sizes parts) : s = t := by
  refine ext_entry (hs.batch_eq.trans ht.batch_eq.symm) (hs.middle_eq.trans ht.middle_eq.symm)
    (hs.base_eq.trans ht.base_eq.symm) fun idx hidx => ?_
  rw [hs.shape_eq] at hidx
  obtain ⟨a, i, c, rfl, ha, hi, hc⟩ := exists_place_of_inBounds hidx
  have hread := (cuts_iff hcuts.slabs).1 hcuts ha hi hc
  rw [← (cuts_iff hcuts.slabs).1 hcuts' ha hi hc, Nat.zero_add] at hread
  exact hread

theorem concatenate_slabs_eq (hne : parts ≠ [])
    (h : List.Forall₂ (fun n part => Slab batch middle pre n post part) sizes parts) :
    concatenate parts pre.length =
      .ok (tabulate batch middle (pre ++ Shape.total sizes :: post)
        (entryAlong (batch ++ middle ++ pre).length parts)) := by
  have hsizes := sizes_of_slabs h
  obtain ⟨first, rest, rfl⟩ := List.exists_cons_of_ne_nil hne
  obtain ⟨m, hfirst⟩ := slab_of_mem h List.mem_cons_self
  have halike : (first :: rest).find? (fun part => !(decide (part.leading = first.leading) &&
      decide (part.batch.length = first.batch.length) &&
      decide (part.base.length = first.base.length))) = none := by
    rw [List.find?_eq_none]
    intro part hpart
    obtain ⟨n, hn⟩ := slab_of_mem h hpart
    simp [leading, hn.batch_eq, hn.middle_eq, hn.base_eq, hfirst.batch_eq, hfirst.middle_eq,
      hfirst.base_eq]
  have haxis : ¬ pre.length ≥ first.base.length := by
    rw [hfirst.base_eq]
    simp
  have hothers : ¬ ((first :: rest).any fun part =>
      decide (part.base.eraseIdx pre.length ≠ first.base.eraseIdx pre.length)) = true := by
    simp only [List.any_eq_true, decide_eq_true_eq]
    rintro ⟨part, hpart, hoff⟩
    obtain ⟨n, hn⟩ := slab_of_mem h hpart
    rw [hn.base_eq, hfirst.base_eq] at hoff
    simp [List.eraseIdx_append_of_length_le] at hoff
  have hset : first.base.set pre.length (Shape.total sizes) =
      pre ++ Shape.total sizes :: post := by
    rw [hfirst.base_eq]
    simp
  unfold concatenate
  simp only [halike, if_neg haxis, if_neg hothers, hsizes, hset, hfirst.axis_eq]
  rw [hfirst.batch_eq, hfirst.middle_eq]

theorem concatenate_eq_ok (hne : parts ≠ [])
    (h : List.Forall₂ (fun n part => Slab batch middle pre n post part) sizes parts) :
    concatenate parts pre.length = .ok t ↔
      Slab batch middle pre (Shape.total sizes) post t ∧
        Cuts t batch middle pre post 0 sizes parts := by
  rw [concatenate_slabs_eq hne h, Except.ok.injEq]
  generalize hwhole : tabulate batch middle (pre ++ Shape.total sizes :: post)
    (entryAlong (batch ++ middle ++ pre).length parts) = whole
  have hslab : Slab batch middle pre (Shape.total sizes) post whole := by
    subst hwhole
    exact ⟨rfl, rfl, rfl⟩
  have hcuts : Cuts whole batch middle pre post 0 sizes parts := by
    refine (cuts_iff h).2 fun {a c i} ha hi hc => ?_
    rw [← hwhole, Nat.zero_add, entry_tabulate]
    rw [← List.append_assoc]
    exact Shape.inBounds_append ha ⟨hi, hc⟩
  constructor
  · rintro rfl
    exact ⟨hslab, hcuts⟩
  · rintro ⟨ht, hcuts'⟩
    exact Cuts.ext hslab ht hcuts hcuts'

/-! ## Splitting and concatenating -/

/-- The tensors have the same leading dimensions and the same base, except along one axis. -/
def AlikeOff (axis : Nat) (s t : Tensor α) : Prop :=
  s.batch = t.batch ∧ s.middle = t.middle ∧ s.base.length = t.base.length ∧
    s.base.eraseIdx axis = t.base.eraseIdx axis

instance (axis : Nat) (s t : Tensor α) : Decidable (AlikeOff axis s t) :=
  inferInstanceAs (Decidable (_ ∧ _ ∧ _ ∧ _))

omit [Zero α] in
theorem AlikeOff.slab {s : Tensor α} (h : AlikeOff pre.length s t)
    (ht : Slab batch middle pre n post t) :
    Slab batch middle pre (s.base.getD pre.length 0) post s := by
  obtain ⟨hbatch, hmiddle, hrank, hsizes⟩ := h
  have hlt : pre.length < s.base.length := by
    rw [hrank, ht.base_eq]
    simp
  obtain ⟨pre', m, post', hlen, hslab⟩ := exists_slab hlt
  have hoff : pre' ++ post' = pre ++ post := by
    rw [hslab.base_eq, ht.base_eq] at hsizes
    simpa [hlen, List.eraseIdx_append_of_length_le] using hsizes
  obtain ⟨rfl, rfl⟩ := List.append_inj hoff hlen
  rw [hslab.base_getD]
  exact ⟨hbatch.trans ht.batch_eq, hmiddle.trans ht.middle_eq, hslab.base_eq⟩

/-- Along any base axis splitting and concatenating undo each other. A tensor is split into sizes
that add up to the size of the axis, and what it is split into is concatenated to the tensor.
Tensors that agree off the axis are concatenated, and the result is split into them by their own
sizes. There has to be a part, and any of them may be empty. -/
theorem split_inverts_concatenate (axis : Nat) :
    (∀ (t : Tensor α) (sizes : List Nat), sizes ≠ [] →
      t.base[axis]? = some (Shape.total sizes) →
        ∃ parts, t.split sizes axis = .ok parts ∧
          parts.map (fun part => part.base.getD axis 0) = sizes ∧
          concatenate parts axis = .ok t) ∧
    ∀ parts : List (Tensor α), parts ≠ [] →
      (∀ s ∈ parts, axis < s.base.length ∧ ∀ s' ∈ parts, AlikeOff axis s s') →
        ∃ t, concatenate parts axis = .ok t ∧
          t.split (parts.map fun part => part.base.getD axis 0) axis = .ok parts := by
  constructor
  · intro t sizes hne hsize
    obtain ⟨hlt, -⟩ := List.getElem?_eq_some_iff.1 hsize
    obtain ⟨pre, n, post, rfl, hslab⟩ := exists_slab hlt
    obtain rfl := Option.some.inj (hslab.base_getElem?.symm.trans hsize)
    obtain ⟨parts, hparts, hcuts⟩ := hslab.exists_split
    have hparts_ne : parts ≠ [] := by
      rintro rfl
      exact hne (List.forall₂_nil_right_iff.1 hcuts.slabs)
    exact ⟨parts, hparts, sizes_of_slabs hcuts.slabs,
      (concatenate_eq_ok hparts_ne hcuts.slabs).2 ⟨hslab, hcuts⟩⟩
  · intro parts hne halike
    obtain ⟨first, hfirst⟩ := List.exists_mem_of_ne_nil parts hne
    obtain ⟨pre, n, post, rfl, hslab⟩ := exists_slab (halike first hfirst).1
    have hslabs : List.Forall₂
        (fun n part => Slab first.batch first.middle pre n post part)
        (parts.map fun part => part.base.getD pre.length 0) parts :=
      List.forall₂_map_left_iff.2 (List.forall₂_same.2 fun part hpart =>
        ((halike part hpart).2 first hfirst).slab hslab)
    have hwhole := concatenate_slabs_eq hne hslabs
    obtain ⟨ht, hcuts⟩ := (concatenate_eq_ok hne hslabs).1 hwhole
    exact ⟨_, hwhole, ht.split_eq_ok.2 hcuts⟩

/-- Two batch entries of two rows, cut into columns of which the second has no place. -/
def twoRows : Tensor Int := ⟨[2], [1], [2, 3], #[3, 1, 4, 1, 5, 9, 2, 6, 5, 3, 5, 8], rfl⟩

def columns : List (Tensor Int) :=
  [⟨[2], [1], [2, 1], #[3, 1, 2, 3], rfl⟩, ⟨[2], [1], [2, 0], #[], rfl⟩,
    ⟨[2], [1], [2, 2], #[1, 4, 5, 9, 6, 5, 5, 8], rfl⟩]

theorem twoRows_columns :
    (([1, 0, 2] : List Nat) ≠ [] ∧ twoRows.base[1]? = some (Shape.total [1, 0, 2]) ∧
      ∃ parts, twoRows.split [1, 0, 2] 1 = .ok parts ∧ concatenate parts 1 = .ok twoRows) ∧
    columns ≠ [] ∧
      (∀ s ∈ columns, 1 < s.base.length ∧ ∀ s' ∈ columns, AlikeOff 1 s s') ∧
      ∃ t, concatenate columns 1 = .ok t ∧ t.split [1, 0, 2] 1 = .ok columns := by
  obtain ⟨hsplit, hconcatenate⟩ := split_inverts_concatenate (α := Int) 1
  have hsize : twoRows.base[1]? = some (Shape.total [1, 0, 2]) := rfl
  have halike : ∀ s ∈ columns, 1 < s.base.length ∧ ∀ s' ∈ columns, AlikeOff 1 s s' := by decide
  obtain ⟨parts, hparts, -, hwhole⟩ := hsplit twoRows [1, 0, 2] (by simp) hsize
  exact ⟨⟨by simp, hsize, parts, hparts, hwhole⟩, by simp [columns], halike,
    hconcatenate columns (by simp [columns]) halike⟩

end TieredCalculus.Tensor
