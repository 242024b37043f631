import Mathlib.Data.List.Sort
import TieredCalculus.Shape

/-! # Lists of dimensions

A list of dimensions is put in ascending order and repetitions are dropped. What is left has the
members of the list, and no other ascending list has them.
-/

namespace TieredCalculus.Shape

variable {n m : Nat} {dims others : List Nat}

theorem mem_insertSorted : m ∈ insertSorted n dims ↔ m = n ∨ m ∈ dims := by
  fun_induction insertSorted n dims with
  | case1 => exact List.mem_cons
  | case2 d dims _ => exact List.mem_cons
  | case3 dims _ =>
    refine ⟨.inr, fun h => ?_⟩
    rcases h with rfl | h
    · exact List.mem_cons_self
    · exact h
  | case4 d dims _ _ ih => rw [List.mem_cons, List.mem_cons, ih, or_left_comm]

theorem pairwise_insertSorted (h : dims.Pairwise (· < ·)) :
    (insertSorted n dims).Pairwise (· < ·) := by
  fun_induction insertSorted n dims with
  | case1 => exact List.pairwise_singleton _ _
  | case2 d dims hlt =>
    refine List.pairwise_cons.2 ⟨fun x hx => ?_, h⟩
    rcases List.mem_cons.1 hx with rfl | hx
    · exact hlt
    · exact Nat.lt_trans hlt (List.rel_of_pairwise_cons h hx)
  | case3 dims _ => exact h
  | case4 d dims hge hne ih =>
    refine List.pairwise_cons.2 ⟨fun x hx => ?_, ih h.of_cons⟩
    rcases mem_insertSorted.1 hx with rfl | hx
    · omega
    · exact List.rel_of_pairwise_cons h hx

theorem mem_distinct : m ∈ distinct dims ↔ m ∈ dims := by
  induction dims with
  | nil => rfl
  | cons d dims ih =>
    change m ∈ insertSorted d (distinct dims) ↔ _
    rw [mem_insertSorted, ih, List.mem_cons]

theorem pairwise_distinct (dims : List Nat) : (distinct dims).Pairwise (· < ·) := by
  induction dims with
  | nil => exact .nil
  | cons d dims ih => exact pairwise_insertSorted ih

theorem distinct_eq_of_pairwise (hothers : others.Pairwise (· < ·))
    (h : ∀ d, d ∈ dims ↔ d ∈ others) : distinct dims = others := by
  have hasc := pairwise_distinct dims
  have hperm : (distinct dims).Perm others := by
    rw [List.perm_ext_iff_of_nodup (hasc.imp Nat.ne_of_lt) (hothers.imp Nat.ne_of_lt)]
    intro d
    rw [mem_distinct, h]
  exact hperm.eq_of_pairwise' hasc hothers

theorem distinct_congr (h : ∀ d, d ∈ dims ↔ d ∈ others) : distinct dims = distinct others :=
  distinct_eq_of_pairwise (pairwise_distinct others) fun d => (h d).trans mem_distinct.symm

end TieredCalculus.Shape
