import Mathlib.Algebra.QuadraticDiscriminant
import Mathlib.Algebra.Order.BigOperators.Ring.Finset
import Mathlib.LinearAlgebra.Matrix.DotProduct

/-! # Shifted normal matrices

The matrix `JᵀJ + s I` with `s ≥ 0` stretches every vector by at least as much as `J` does
twice, and the steps `p = -(JᵀJ + s I)⁻¹ g` satisfy a bound on `⟨p, (JᵀJ + s I)⁻¹ p⟩` in which
the shift does not occur. Both are inequalities of Cauchy and Schwarz. Where `J` maps only zero
to zero, the matrix is positive definite and the steps get shorter as the shift grows.
-/

namespace TieredCalculus

open Matrix

variable {α : Type} {n : Nat} [Field α]

/-- The normal matrix of `J` with a shift of its diagonal. -/
def shiftedNormal (J : Matrix (Fin n) (Fin n) α) (s : α) : Matrix (Fin n) (Fin n) α :=
  Jᵀ * J + s • 1

theorem dot_shiftedNormal (J : Matrix (Fin n) (Fin n) α) (s : α) (x y : Fin n → α) :
    x ⬝ᵥ (shiftedNormal J s *ᵥ y) = (J *ᵥ x) ⬝ᵥ (J *ᵥ y) + s * (x ⬝ᵥ y) := by
  unfold shiftedNormal
  rw [add_mulVec, dotProduct_add, ← mulVec_mulVec, dotProduct_mulVec, vecMul_transpose,
    smul_mulVec, one_mulVec, dotProduct_smul, smul_eq_mul]

variable [LinearOrder α] [IsStrictOrderedRing α]

theorem dot_self_nonneg (x : Fin n → α) : 0 ≤ x ⬝ᵥ x :=
  Finset.sum_nonneg fun i _ => mul_self_nonneg (x i)

theorem dot_sq_le (x y : Fin n → α) : (x ⬝ᵥ y) ^ 2 ≤ (x ⬝ᵥ x) * (y ⬝ᵥ y) := by
  have h := Finset.sum_mul_sq_le_sq_mul_sq Finset.univ x y
  simp only [sq (x _), sq (y _)] at h
  exact h

variable {J : Matrix (Fin n) (Fin n) α} {s : α}

theorem dot_shiftedNormal_nonneg (hs : 0 ≤ s) (x : Fin n → α) :
    0 ≤ x ⬝ᵥ (shiftedNormal J s *ᵥ x) := by
  rw [dot_shiftedNormal]
  exact add_nonneg (dot_self_nonneg _) (mul_nonneg hs (dot_self_nonneg x))

/-- The form of a shifted normal matrix is symmetric and not negative, so its products are
bounded by its squares. -/
theorem dot_shiftedNormal_sq_le (hs : 0 ≤ s) (x y : Fin n → α) :
    (x ⬝ᵥ (shiftedNormal J s *ᵥ y)) ^ 2 ≤
      (x ⬝ᵥ (shiftedNormal J s *ᵥ x)) * (y ⬝ᵥ (shiftedNormal J s *ᵥ y)) := by
  have hsymm : y ⬝ᵥ (shiftedNormal J s *ᵥ x) = x ⬝ᵥ (shiftedNormal J s *ᵥ y) := by
    rw [dot_shiftedNormal, dot_shiftedNormal, dotProduct_comm y x,
      dotProduct_comm (J *ᵥ y) (J *ᵥ x)]
  have hdiscrim : discrim (x ⬝ᵥ (shiftedNormal J s *ᵥ x))
      (2 * (x ⬝ᵥ (shiftedNormal J s *ᵥ y))) (y ⬝ᵥ (shiftedNormal J s *ᵥ y)) ≤ 0 := by
    refine discrim_le_zero fun t => ?_
    have hexpand : (t • x + y) ⬝ᵥ (shiftedNormal J s *ᵥ (t • x + y)) =
        (x ⬝ᵥ (shiftedNormal J s *ᵥ x)) * (t * t) +
          2 * (x ⬝ᵥ (shiftedNormal J s *ᵥ y)) * t + y ⬝ᵥ (shiftedNormal J s *ᵥ y) := by
      rw [mulVec_add, mulVec_smul, dotProduct_add, add_dotProduct, add_dotProduct,
        dotProduct_smul, dotProduct_smul, smul_dotProduct, smul_dotProduct, hsymm]
      simp only [smul_eq_mul]
      ring
    rw [← hexpand]
    exact dot_shiftedNormal_nonneg hs _
  unfold discrim at hdiscrim
  linarith

theorem stretch_shiftedNormal (hs : 0 ≤ s) {c : α}
    (h : ∀ x : Fin n → α, c * (x ⬝ᵥ x) ^ 2 ≤ ((J *ᵥ x) ⬝ᵥ (J *ᵥ x)) ^ 2) (x : Fin n → α) :
    c * (x ⬝ᵥ x) ≤ (shiftedNormal J s *ᵥ x) ⬝ᵥ (shiftedNormal J s *ᵥ x) := by
  rcases (dot_self_nonneg x).eq_or_lt with hzero | hpos
  · rw [← hzero, mul_zero]
    exact dot_self_nonneg _
  · have hform : (J *ᵥ x) ⬝ᵥ (J *ᵥ x) ≤ x ⬝ᵥ (shiftedNormal J s *ᵥ x) := by
      rw [dot_shiftedNormal]
      exact le_add_of_nonneg_right (mul_nonneg hs hpos.le)
    refine le_of_mul_le_mul_left ?_ hpos
    calc (x ⬝ᵥ x) * (c * (x ⬝ᵥ x)) = c * (x ⬝ᵥ x) ^ 2 := by ring
      _ ≤ ((J *ᵥ x) ⬝ᵥ (J *ᵥ x)) ^ 2 := h x
      _ ≤ (x ⬝ᵥ (shiftedNormal J s *ᵥ x)) ^ 2 := pow_le_pow_left₀ (dot_self_nonneg _) hform 2
      _ ≤ (x ⬝ᵥ x) * ((shiftedNormal J s *ᵥ x) ⬝ᵥ (shiftedNormal J s *ᵥ x)) := dot_sq_le _ _

/-- A step `p` for the gradient `g` and the solution `q` for the step: whatever the shift, the
product of the two is as large as the length of the gradient allows. -/
theorem cube_le_of_step (hs : 0 ≤ s) {p q g : Fin n → α} (hp : shiftedNormal J s *ᵥ p = -g)
    (hq : shiftedNormal J s *ᵥ q = p) :
    0 ≤ p ⬝ᵥ q ∧ (p ⬝ᵥ p) ^ 3 ≤ (g ⬝ᵥ g) * (p ⬝ᵥ q) ^ 2 := by
  have hform := dot_shiftedNormal_nonneg (J := J) hs q
  have hcauchy := dot_shiftedNormal_sq_le (J := J) hs p q
  rw [hq, dotProduct_comm q p] at hform
  rw [hq, hp, dotProduct_comm q p, dotProduct_neg] at hcauchy
  refine ⟨hform, ?_⟩
  rcases (dot_self_nonneg p).eq_or_lt with hzero | hpos
  · rw [← hzero, zero_pow three_ne_zero]
    exact mul_nonneg (dot_self_nonneg g) (sq_nonneg _)
  · refine le_of_mul_le_mul_left ?_ hpos
    calc (p ⬝ᵥ p) * (p ⬝ᵥ p) ^ 3 = ((p ⬝ᵥ p) ^ 2) ^ 2 := by ring
      _ ≤ (-(p ⬝ᵥ g) * (p ⬝ᵥ q)) ^ 2 := pow_le_pow_left₀ (sq_nonneg _) hcauchy 2
      _ = (p ⬝ᵥ g) ^ 2 * (p ⬝ᵥ q) ^ 2 := by ring
      _ ≤ (p ⬝ᵥ p) * (g ⬝ᵥ g) * (p ⬝ᵥ q) ^ 2 :=
          mul_le_mul_of_nonneg_right (dot_sq_le p g) (sq_nonneg _)
      _ = (p ⬝ᵥ p) * ((g ⬝ᵥ g) * (p ⬝ᵥ q) ^ 2) := by ring

/-! ## Positive definite matrices -/

section Definite

variable (hJ : ∀ x, J *ᵥ x = 0 → x = 0)

theorem dot_self_pos {x : Fin n → α} (hx : x ≠ 0) : 0 < x ⬝ᵥ x :=
  (dot_self_nonneg x).lt_of_ne fun h => hx (dotProduct_self_eq_zero.1 h.symm)

include hJ

theorem dot_shiftedNormal_pos (hs : 0 ≤ s) {x : Fin n → α} (hx : x ≠ 0) :
    0 < x ⬝ᵥ (shiftedNormal J s *ᵥ x) := by
  rw [dot_shiftedNormal]
  have hchange : 0 < (J *ᵥ x) ⬝ᵥ (J *ᵥ x) := dot_self_pos fun h => hx (hJ x h)
  exact add_pos_of_pos_of_nonneg hchange (mul_nonneg hs (dot_self_nonneg x))

theorem eq_zero_of_shiftedNormal (hs : 0 ≤ s) {x : Fin n → α} (h : shiftedNormal J s *ᵥ x = 0) :
    x = 0 := by
  by_contra hx
  have hpos := dot_shiftedNormal_pos hJ hs hx
  rw [h, dotProduct_zero] at hpos
  exact lt_irrefl 0 hpos

theorem eq_of_shiftedNormal_eq (hs : 0 ≤ s) {x y : Fin n → α}
    (h : shiftedNormal J s *ᵥ x = shiftedNormal J s *ᵥ y) : x = y := by
  apply sub_eq_zero.1
  apply eq_zero_of_shiftedNormal hJ hs
  rw [mulVec_sub, h, sub_self]

theorem dot_pos_of_solves (hs : 0 ≤ s) {p q : Fin n → α} (hp : p ≠ 0)
    (hq : shiftedNormal J s *ᵥ q = p) : 0 < p ⬝ᵥ q := by
  have hne : q ≠ 0 := by
    rintro rfl
    rw [mulVec_zero] at hq
    exact hp hq.symm
  have hpos := dot_shiftedNormal_pos hJ hs hne
  rwa [hq, dotProduct_comm] at hpos

theorem dot_self_lt_of_shift_lt {t : α} (ht : 0 ≤ t) (hts : t < s) {p q : Fin n → α}
    (hp : p ≠ 0) (h : shiftedNormal J s *ᵥ p = shiftedNormal J t *ᵥ q) : p ⬝ᵥ p < q ⬝ᵥ q := by
  -- The difference solves the system of the smaller shift for a multiple of the shorter one.
  have hdiff : shiftedNormal J t *ᵥ (q - p) = (s - t) • p := by
    rw [mulVec_sub, ← h]
    unfold shiftedNormal
    rw [add_mulVec, add_mulVec, smul_mulVec, smul_mulVec, one_mulVec, add_sub_add_left_eq_sub,
      sub_smul]
  have hst : 0 < s - t := sub_pos.2 hts
  have hd : q - p ≠ 0 := by
    intro hzero
    rw [hzero, mulVec_zero] at hdiff
    exact hp ((smul_eq_zero.1 hdiff.symm).resolve_left hst.ne')
  have hform := dot_shiftedNormal_pos hJ ht hd
  rw [hdiff, dotProduct_smul, smul_eq_mul] at hform
  have hcross : 0 < (q - p) ⬝ᵥ p := (mul_pos_iff_of_pos_left hst).1 hform
  have hlength := dot_self_pos hd
  have hexpand : q ⬝ᵥ q = p ⬝ᵥ p + 2 * ((q - p) ⬝ᵥ p) + (q - p) ⬝ᵥ (q - p) := by
    rw [sub_dotProduct, sub_dotProduct, dotProduct_sub, dotProduct_sub, dotProduct_comm p q]
    ring
  linarith

end Definite

end TieredCalculus
