import TieredCalculus.Proofs.Axis.Layout
import TieredCalculus.Proofs.Tensor.Slices

/-! # Windows of a tensor along an axis

Variables that follow one another on an axis cut a tensor into windows along one of its base
axes. Splitting returns these windows, and the concatenation of tensors is the one tensor
that has them as its windows.
-/

namespace TieredCalculus.Tensor

variable {α : Type} [Zero α] {batch middle pre post : Shape} {start : Nat} {t : Tensor α}
  {vars : List VariableLayout} {parts : List (Tensor α)}

/-- Parts in the sizes of variables without gaps are cut out at the places of the variables. -/
theorem cuts_iff_windows (hvars : Axis.Consecutive start vars) :
    Cuts t batch middle pre post start (vars.map (·.storage)) parts ↔
      List.Forall₂ (fun v part => Window t batch middle pre v.start v.storage post part)
        vars parts := by
  induction vars generalizing start parts with
  | nil =>
    rw [List.map_nil, List.forall₂_nil_left_iff]
    exact ⟨fun h => by cases h with | nil => rfl, fun h => h ▸ .nil⟩
  | cons v vars ih =>
    obtain ⟨rfl, hrest⟩ := hvars
    constructor
    · rintro (_ | ⟨hwindow, hcuts⟩)
      exact .cons hwindow ((ih hrest).1 hcuts)
    · rintro (_ | ⟨hwindow, hwindows⟩)
      exact .cons hwindow ((ih hrest).2 hwindows)

theorem Slab.split (hvars : Axis.Consecutive 0 vars)
    (h : Slab batch middle pre (Shape.total (vars.map (·.storage))) post t) :
    ∃ parts, t.split (vars.map (·.storage)) pre.length = .ok parts ∧
      List.Forall₂ (fun v part => Window t batch middle pre v.start v.storage post part)
        vars parts := by
  obtain ⟨parts, hparts, hcuts⟩ := h.exists_split
  exact ⟨parts, hparts, (cuts_iff_windows hvars).1 hcuts⟩

theorem concatenate_slabs (hvars : Axis.Consecutive 0 vars) (hne : vars ≠ [])
    (h : List.Forall₂ (fun v part => Slab batch middle pre v.storage post part) vars parts) :
    ∃ t, concatenate parts pre.length = .ok t ∧
      Slab batch middle pre (Shape.total (vars.map (·.storage))) post t ∧
      List.Forall₂ (fun v part => Window t batch middle pre v.start v.storage post part)
        vars parts := by
  have hparts : parts ≠ [] := by
    rintro rfl
    exact hne (List.forall₂_nil_right_iff.1 h)
  have hslabs : List.Forall₂ (fun n part => Slab batch middle pre n post part)
      (vars.map (·.storage)) parts := List.forall₂_map_left_iff.2 h
  have hwhole := concatenate_slabs_eq hparts hslabs
  obtain ⟨hslab, hcuts⟩ := (concatenate_eq_ok hparts hslabs).1 hwhole
  exact ⟨_, hwhole, hslab, (cuts_iff_windows hvars).1 hcuts⟩

theorem Slab.ext (hvars : Axis.Consecutive 0 vars) {s : Tensor α}
    (hs : Slab batch middle pre (Shape.total (vars.map (·.storage))) post s)
    (ht : Slab batch middle pre (Shape.total (vars.map (·.storage))) post t)
    (h : ∀ v ∈ vars, ∀ {a c : Index} {j : Nat}, Shape.InBounds (batch ++ middle ++ pre) a →
      j < v.storage → Shape.InBounds post c →
      s.entry (a ++ (v.start + j) :: c) = t.entry (a ++ (v.start + j) :: c)) : s = t := by
  refine ext_entry (hs.batch_eq.trans ht.batch_eq.symm) (hs.middle_eq.trans ht.middle_eq.symm)
    (hs.base_eq.trans ht.base_eq.symm) fun idx hidx => ?_
  rw [hs.shape_eq] at hidx
  obtain ⟨a, i, c, rfl, ha, hi, hc⟩ := exists_place_of_inBounds hidx
  obtain ⟨v, ⟨hv, hle, hlt⟩, -⟩ := hvars.existsUnique (Nat.zero_le i) (by rwa [Nat.zero_add])
  have hj : i - v.start < v.storage := by
    rw [VariableLayout.stop] at hlt
    omega
  have hplace := h v hv ha hj hc
  rwa [Nat.add_sub_cancel' hle] at hplace

end TieredCalculus.Tensor
