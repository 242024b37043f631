import Mathlib.Data.List.Perm.Basic
import Mathlib.Data.List.Perm.Subperm
import TieredCalculus.Proofs.Tensor.View

/-! # Permuted dimensions

A permutation of the dimensions rearranges shape and multi-indices alike: the entry at
rearranged coordinates is the entry at the coordinates.
-/

namespace TieredCalculus.Tensor

variable {α : Type}

/-! ## Rearranged lists -/

/-- Member `k` of the result is member `perm[k]` of the list. -/
def rearranged (perm idx : List Nat) : List Nat := perm.map fun p => idx.getD p 0

theorem rearranged_append (p q idx : List Nat) :
    rearranged (p ++ q) idx = rearranged p idx ++ rearranged q idx := List.map_append

theorem rearranged_flatten (ps : List (List Nat)) (idx : List Nat) :
    rearranged ps.flatten idx = (ps.map (rearranged · idx)).flatten := List.map_flatten

theorem rearranged_run (l m r : List Nat) :
    rearranged ((List.range m.length).map (l.length + ·)) (l ++ (m ++ r)) = m := by
  unfold rearranged
  rw [List.map_map]
  apply List.ext_getElem (by simp)
  intro k h₁ h₂
  simp [List.getElem?_append_right, List.getElem?_append_left h₂, h₂]

theorem map_idxOf_rearranged {perm idx : List Nat} (h : perm.Perm (List.range idx.length)) :
    (List.range idx.length).map (fun p => (rearranged perm idx).getD (perm.idxOf p) 0) = idx := by
  apply List.ext_getElem (by simp)
  intro k h₁ h₂
  have hmem : k ∈ perm := h.mem_iff.2 (List.mem_range.2 h₂)
  have hlt := List.idxOf_lt_length_of_mem hmem
  have hget : perm[perm.idxOf k] = k := List.getElem_idxOf hlt
  simp [rearranged, hlt, hget, h₂]

theorem inBounds_getD {s : Shape} {idx : Index} (h : Shape.InBounds s idx) {p : Nat}
    (hp : p < s.length) : idx.getD p 0 < s.getD p 0 := by
  induction s generalizing idx p with
  | nil => exact absurd hp (Nat.not_lt_zero p)
  | cons d s ih =>
    cases idx with
    | nil => exact h.elim
    | cons i idx =>
      cases p with
      | zero => exact h.1
      | succ p => exact ih h.2 (Nat.lt_of_succ_lt_succ hp)

theorem inBounds_rearranged {perm : List Nat} {s : Shape} {idx : Index}
    (h : Shape.InBounds s idx) (hp : ∀ p ∈ perm, p < s.length) :
    Shape.InBounds (rearranged perm s) (rearranged perm idx) := by
  induction perm with
  | nil => trivial
  | cons p perm ih =>
    exact ⟨inBounds_getD h (hp p List.mem_cons_self),
      ih fun q hq => hp q (List.mem_cons_of_mem p hq)⟩

/-! ## Permutation -/

theorem repeatedAxis?_eq_none {seen perm : List Nat} (h : perm.Nodup)
    (hseen : ∀ p ∈ perm, p ∉ seen) : repeatedAxis? seen perm = none := by
  induction perm generalizing seen with
  | nil => rfl
  | cons p perm ih =>
    obtain ⟨hp, hrest⟩ := List.nodup_cons.1 h
    have hnew : ¬seen.contains p = true := by
      rw [List.contains_iff_mem]
      exact hseen p List.mem_cons_self
    unfold repeatedAxis?
    rw [if_neg hnew]
    refine ih hrest fun q hq hmem => ?_
    rcases List.mem_cons.1 hmem with rfl | hmem
    · exact hp hq
    · exact hseen q (List.mem_cons_of_mem p hq) hmem

theorem withTiers_entry [Zero α] {t : Tensor α} {batchRank middleRank : Nat}
    (h : batchRank + middleRank ≤ t.rank) :
    ∃ r, t.withTiers batchRank middleRank = .ok r ∧ r.batch = t.shape.take batchRank ∧
      r.middle = (t.shape.drop batchRank).take middleRank ∧
      r.base = (t.shape.drop batchRank).drop middleRank ∧ ∀ idx, r.entry idx = t.entry idx := by
  unfold withTiers
  rw [if_neg (Nat.not_lt.2 h)]
  refine ⟨_, rfl, rfl, rfl, rfl, fun idx => ?_⟩
  have hshape : t.shape.take batchRank ++ (t.shape.drop batchRank).take middleRank ++
      (t.shape.drop batchRank).drop middleRank = t.shape := by
    rw [List.append_assoc, List.take_append_drop, List.take_append_drop]
  exact congrArg (fun s => t.data[Shape.offset s idx]?.getD 0) hshape

theorem permute_entry [Zero α] {t : Tensor α} {perm : List Nat} (batchRank middleRank : Nat)
    (hperm : perm.Perm (List.range t.rank)) (hranks : batchRank + middleRank ≤ t.rank) :
    ∃ r, t.permute perm batchRank middleRank = .ok r ∧
      r.batch = (rearranged perm t.shape).take batchRank ∧
      r.middle = ((rearranged perm t.shape).drop batchRank).take middleRank ∧
      r.base = ((rearranged perm t.shape).drop batchRank).drop middleRank ∧
      ∀ {idx}, Shape.InBounds t.shape idx → r.entry (rearranged perm idx) = t.entry idx := by
  have hlen : perm.length = t.rank := by rw [hperm.length_eq, List.length_range]
  have hlt : ∀ p ∈ perm, p < t.rank := fun p hp => List.mem_range.1 (hperm.mem_iff.1 hp)
  have hcheck : ¬(decide (perm.length ≠ t.rank) || perm.any (· ≥ t.rank)) = true := by
    rw [Bool.or_eq_true, decide_eq_true_eq, List.any_eq_true]
    rintro (hne | ⟨p, hp, hge⟩)
    · exact hne hlen
    · exact absurd (hlt p hp) (Nat.not_lt.2 (of_decide_eq_true hge))
  have hnodup : repeatedAxis? [] perm = none :=
    repeatedAxis?_eq_none (hperm.nodup_iff.2 List.nodup_range) fun _ _ => List.not_mem_nil
  let f := fun idx : Index => t.entry ((List.range t.rank).map fun p => idx.getD (perm.idxOf p) 0)
  have hrank : batchRank + middleRank ≤ (tabulate [] [] (rearranged perm t.shape) f).rank := by
    have hsizes : (rearranged perm t.shape).length = t.rank := by
      rw [rearranged, List.length_map, hlen]
    exact Nat.le_trans hranks (Nat.le_of_eq hsizes.symm)
  obtain ⟨r, hr, hb, hm, hbase, hentry⟩ := withTiers_entry hrank
  refine ⟨r, ?_, hb, hm, hbase, fun {idx} hin => ?_⟩
  · unfold permute
    rw [if_neg hcheck, hnodup]
    exact hr
  · have hread : (tabulate [] [] (rearranged perm t.shape) f).entry (rearranged perm idx) =
        f (rearranged perm idx) := entry_tabulate f (inBounds_rearranged hin hlt)
    have hsame : (List.range t.rank).map (fun p => (rearranged perm idx).getD (perm.idxOf p) 0) =
        idx := by
      rw [rank, ← hin.length_eq] at hperm ⊢
      exact map_idxOf_rearranged hperm
    rw [hentry, hread]
    exact congrArg t.entry hsame

end TieredCalculus.Tensor
