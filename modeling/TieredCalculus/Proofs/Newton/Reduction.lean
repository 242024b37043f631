import Mathlib.Algebra.Order.BigOperators.Group.Finset
import TieredCalculus.Newton.TrustRegion
import TieredCalculus.Proofs.Linear.Lu
import TieredCalculus.Proofs.Tensor.Contraction

/-! # The predicted reduction

A step of the trust region solves either the linear system of the Jacobian or a normal
system with a nonnegative shift. In both cases the linear model predicts that the merit does
not grow, so that an accepted step does not make it grow.
-/

namespace TieredCalculus

variable {α : Type} {n : Nat}

/-! ## Sums over an index -/

section Sums

variable [Field α]

theorem Linear.sumFin_eq_sum (f : Fin n → α) : Linear.sumFin f = ∑ i, f i := by
  rw [Fin.sum_univ_def, Linear.sumFin, Tensor.foldl_add_eq_sum, zero_add]

theorem Linear.dot_map (f g : Fin n → α) :
    Linear.dot ((List.finRange n).map f) ((List.finRange n).map g) = ∑ i, f i * g i := by
  have hzip : ((List.finRange n).map f).zip ((List.finRange n).map g) =
      (List.finRange n).map fun i => (f i, g i) := by
    rw [List.zip_map']
  rw [Linear.dot, hzip, List.foldl_map, Fin.sum_univ_def, Tensor.foldl_add_eq_sum, zero_add]

omit [Field α] in
theorem Vector.toList_eq_map (v : Vector α n) : v.toList = (List.finRange n).map v.get := by
  apply List.ext_getElem
  · simp
  · intro i hi hi'
    simp [Vector.get]

theorem Linear.dot_toList (v w : Vector α n) :
    Linear.dot v.toList w.toList = ∑ i, v.get i * w.get i := by
  rw [Vector.toList_eq_map v, Vector.toList_eq_map w, Linear.dot_map]

end Sums

namespace TrustRegion

/-! ## Steps -/

section Predicted

variable [Field α]

/-- What the linear model makes of a step, row by row. -/
def change (j : Square α n) (p : Vector α n) (l : Fin n) : α := ∑ i, j l i * p.get i

theorem modelChange_eq_map (j : Square α n) (p : Vector α n) :
    modelChange j p = (List.finRange n).map (change j p) := by
  unfold modelChange
  apply List.map_congr_left
  intro l _
  exact Linear.dot_toList _ _

theorem predicted_eq (r : Vector α n) (j : Square α n) (p : Vector α n) :
    predicted r j p = -∑ l, r.get l * change j p l -
      half * ∑ l, change j p l * change j p l := by
  rw [predicted, modelChange_eq_map, Vector.toList_eq_map r, Linear.dot_map, Linear.dot_map]

theorem sum_normal (j : Square α n) (p : Vector α n) :
    ∑ i, p.get i * ∑ k, (∑ l, j l i * j l k) * p.get k =
      ∑ l, change j p l * change j p l := by
  have hterm : ∀ l, change j p l * change j p l =
      ∑ i, ∑ k, p.get i * (j l i * j l k * p.get k) := by
    intro l
    rw [change, Finset.sum_mul_sum]
    apply Finset.sum_congr rfl
    intro i _
    apply Finset.sum_congr rfl
    intro k _
    ring
  rw [Finset.sum_congr rfl fun l _ => hterm l, Finset.sum_comm]
  apply Finset.sum_congr rfl
  intro i _
  rw [Finset.sum_comm, Finset.mul_sum]
  apply Finset.sum_congr rfl
  intro k _
  rw [Finset.sum_mul, Finset.mul_sum]

theorem sum_gradient (r : Vector α n) (j : Square α n) (p : Vector α n) :
    ∑ i, p.get i * ∑ l, j l i * r.get l = ∑ l, r.get l * change j p l := by
  have hterm : ∀ l, r.get l * change j p l = ∑ i, p.get i * (j l i * r.get l) := by
    intro l
    rw [change, Finset.mul_sum]
    apply Finset.sum_congr rfl
    intro i _
    ring
  rw [Finset.sum_congr rfl fun l _ => hterm l, Finset.sum_comm]
  apply Finset.sum_congr rfl
  intro i _
  rw [Finset.mul_sum]

variable [LinearOrder α]

/-- The step of an entry with residual `r` and Jacobian `j`: the Newton step, or the solution
of the normal system with a nonnegative shift. -/
inductive IsStep (r : Vector α n) (j : Square α n) (p : Vector α n) : Prop
  | newton (h : ∀ l, ∑ i, j l i * p.get i = -r.get l)
  | constrained (shift : α) (hs : 0 ≤ shift)
      (h : ∀ i, ∑ k, (∑ l, j l i * j l k) * p.get k + shift * p.get i =
        -∑ l, j l i * r.get l)

variable [IsStrictOrderedRing α]

theorem half_pos : 0 < (half : α) := by
  unfold half
  positivity

theorem half_add_half : (half : α) + half = 1 := by
  unfold half
  rw [← add_div]
  exact div_self (by positivity)

/-- The linear model never predicts that the merit grows. -/
theorem IsStep.predicted_nonneg {r : Vector α n} {j : Square α n} {p : Vector α n}
    (h : IsStep r j p) : 0 ≤ predicted r j p := by
  have hsquares : ∀ f : Fin n → α, 0 ≤ ∑ l, f l * f l := fun f =>
    Finset.sum_nonneg fun l _ => mul_self_nonneg (f l)
  rw [predicted_eq]
  cases h with
  | newton h =>
      have hchange : ∀ l, r.get l * change j p l = -(change j p l * change j p l) := by
        intro l
        have hl : change j p l = -r.get l := h l
        rw [hl]
        ring
      rw [Finset.sum_congr rfl fun l _ => hchange l, Finset.sum_neg_distrib, neg_neg]
      have hnonneg := mul_nonneg (half_pos (α := α)).le (hsquares (change j p))
      calc 0 ≤ half * ∑ l, change j p l * change j p l := hnonneg
        _ = (half + half) * ∑ l, change j p l * change j p l -
              half * ∑ l, change j p l * change j p l := by ring
        _ = ∑ l, change j p l * change j p l -
              half * ∑ l, change j p l * change j p l := by rw [half_add_half, one_mul]
  | constrained shift hs h =>
      -- The normal system, multiplied by the step, gives the slope along the step.
      have hslope : ∑ l, change j p l * change j p l + shift * ∑ i, p.get i * p.get i =
          -∑ l, r.get l * change j p l := by
        rw [← sum_normal, ← sum_gradient, Finset.mul_sum, ← Finset.sum_add_distrib,
          ← Finset.sum_neg_distrib]
        apply Finset.sum_congr rfl
        intro i _
        rw [← mul_neg, ← h i]
        ring
      have hnonneg := mul_nonneg (half_pos (α := α)).le (hsquares (change j p))
      have hshift := mul_nonneg hs (hsquares p.get)
      calc 0 ≤ half * (∑ l, change j p l * change j p l) + shift * ∑ i, p.get i * p.get i :=
            add_nonneg hnonneg hshift
        _ = (half + half) * (∑ l, change j p l * change j p l) +
              shift * ∑ i, p.get i * p.get i -
              half * ∑ l, change j p l * change j p l := by ring
        _ = -∑ l, r.get l * change j p l -
              half * ∑ l, change j p l * change j p l := by rw [half_add_half, one_mul, hslope]

/-! ## Acceptance -/

theorem actual_nonneg_of_ratio [Scalar α] (heps : 0 < (Scalar.epsilon : α)) {accept p a : α}
    (haccept : 0 < accept) (hp : 0 ≤ p) (h : accept ≤ ratio p a) : 0 ≤ a := by
  unfold ratio at h
  by_cases hsmall : Scalar.abs p < Scalar.epsilon
  · rw [if_pos hsmall] at h
    by_cases ha : 0 ≤ a
    · exact ha
    · rw [if_neg ha] at h
      exact absurd h (not_le.2 haccept)
  · rw [if_neg hsmall] at h
    have hne : p ≠ 0 := by
      intro h0
      apply hsmall
      rw [h0, Scalar.abs, if_neg (lt_irrefl 0)]
      exact heps
    have hpos : 0 < p := lt_of_le_of_ne hp hne.symm
    have hdiv : 0 ≤ a / p := haccept.le.trans h
    rw [← div_mul_cancel₀ a hne]
    exact mul_nonneg hdiv hp

theorem actual_nonneg_iff {r r' : Vector α n} :
    0 ≤ actual r r' ↔
      Linear.dot r'.toList r'.toList ≤ Linear.dot r.toList r.toList := by
  unfold actual
  rw [sub_nonneg]
  exact mul_le_mul_iff_right₀ half_pos

end Predicted

end TrustRegion

end TieredCalculus
