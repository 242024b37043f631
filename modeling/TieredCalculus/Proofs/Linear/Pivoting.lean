import Mathlib.LinearAlgebra.Matrix.ToLin
import Mathlib.LinearAlgebra.Matrix.NonsingularInverse
import TieredCalculus.Proofs.Linear.Lu
import TieredCalculus.Proofs.Rational

/-! # Partial pivoting

Every column is eliminated with an entry of greatest absolute value among the rows that are
left. So a pivot is as large as the threshold asks, and no multiplier exceeds one, wherever
later exchanges take it. Together with the exactness of the factors this makes elimination a
decision: what it returns is a triangular factorization, whose substitutions give the one
solution of each linear system, and a singular matrix is always refused.
-/

namespace TieredCalculus

variable {α : Type} {n : Nat}

def Square.toMatrix (a : Square α n) : Matrix (Fin n) (Fin n) α := .of fun i j => a i j

theorem Scalar.abs_eq_abs [Ring α] [LinearOrder α] [IsStrictOrderedRing α] (x : α) :
    Scalar.abs x = |x| := by
  unfold Scalar.abs
  by_cases h : x < 0
  · rw [if_pos h, abs_of_neg h]
  · rw [if_neg h, abs_of_nonneg (not_lt.1 h)]

namespace Lu

/-! ## The triangles -/

/-- The multipliers below a diagonal of ones. -/
def lower [Zero α] [One α] (lu : Lu α n) : Matrix (Fin n) (Fin n) α :=
  .of fun i j => if j < i then lu.factors i j else if j = i then 1 else 0

def upper [Zero α] (lu : Lu α n) : Matrix (Fin n) (Fin n) α :=
  .of fun i j => if i ≤ j then lu.factors i j else 0

theorem lower_mul_upper_apply [Field α] (lu : Lu α n) (i j : Fin n) :
    (lu.lower * lu.upper) i j =
      partialProduct lu.factors n i j + if i ≤ j then lu.factors i j else 0 := by
  have hterm : ∀ k, lu.lower i k * lu.upper k j =
      (if k.val < n ∧ k < i ∧ k ≤ j then lu.factors i k * lu.factors k j else 0) +
        if k = i then if i ≤ j then lu.factors i j else 0 else 0 := by
    intro k
    unfold lower upper
    rw [Matrix.of_apply, Matrix.of_apply]
    rcases lt_trichotomy k i with h | h | h
    · rw [if_pos h, if_neg h.ne, add_zero]
      by_cases hj : k ≤ j
      · rw [if_pos hj, if_pos ⟨k.isLt, h, hj⟩]
      · rw [if_neg hj, if_neg fun hk => hj hk.2.2, mul_zero]
    · subst h
      have hnot : ¬(k.val < n ∧ k < k ∧ k ≤ j) := fun hk => lt_irrefl k hk.2.1
      rw [if_neg (lt_irrefl k), if_pos rfl, if_neg hnot, if_pos rfl, one_mul, zero_add]
    · have hnot : ¬(k.val < n ∧ k < i ∧ k ≤ j) := fun hk => lt_asymm h hk.2.1
      rw [if_neg (lt_asymm h), if_neg h.ne', if_neg hnot, if_neg h.ne', zero_mul, add_zero]
  rw [Matrix.mul_apply, Finset.sum_congr rfl fun k _ => hterm k, Finset.sum_add_distrib,
    Finset.sum_ite_eq' Finset.univ i, if_pos (Finset.mem_univ i)]
  rfl

theorem Represents.lower_mul_upper [Field α] {lu : Lu α n} {a : Square α n}
    (hr : lu.Represents a n) : lu.lower * lu.upper = a.toMatrix.submatrix lu.order.get id := by
  ext i j
  have hmin : min i.val n = i.val := Nat.min_eq_left i.isLt.le
  rw [lower_mul_upper_apply, Matrix.submatrix_apply]
  show _ = a (lu.order.get i) j
  rw [hr.row_eq, hmin]
  rfl

/-! ## The largest pivot -/

section Pivots

variable [Field α] [LinearOrder α] [IsStrictOrderedRing α]

theorem abs_le_pivotRow (a : Square α n) {col i : Fin n} (hi : col ≤ i) :
    |a i col| ≤ |a (pivotRow a col) col| := by
  have hscan : |a col col| ≤ |a (pivotRow a col) col| ∧
      ∀ i : Fin n, i.val < n → col < i → |a i col| ≤ |a (pivotRow a col) col| := by
    unfold pivotRow
    apply foldl_finRange fun k best =>
      |a col col| ≤ |a best col| ∧ ∀ i : Fin n, i.val < k → col < i → |a i col| ≤ |a best col|
    · exact ⟨le_refl _, fun i hi => by omega⟩
    · rintro row best ⟨hcol, hbefore⟩
      rw [Scalar.abs_eq_abs, Scalar.abs_eq_abs]
      by_cases h : col < row ∧ |a best col| < |a row col|
      · rw [if_pos h]
        refine ⟨hcol.trans h.2.le, fun i hi hci => ?_⟩
        rcases Nat.lt_succ_iff_lt_or_eq.1 hi with hlt | heq
        · exact (hbefore i hlt hci).trans h.2.le
        · rw [Fin.ext heq]
      · rw [if_neg h]
        refine ⟨hcol, fun i hi hci => ?_⟩
        rcases Nat.lt_succ_iff_lt_or_eq.1 hi with hlt | heq
        · exact hbefore i hlt hci
        · rw [Fin.ext heq] at hci ⊢
          exact not_lt.1 fun hlt => h ⟨hci, hlt⟩
  rcases eq_or_lt_of_le hi with rfl | hlt
  · exact hscan.1
  · exact hscan.2 i i.isLt hlt

/-- The first `c` columns have been eliminated with pivots that are large enough, by multipliers
that do not exceed one. -/
structure Pivoted (lu : Lu α n) (eps : α) (c : Nat) : Prop where
  pivot_le : ∀ k : Fin n, k.val < c → eps ≤ |lu.factors k k|
  multiplier_le : ∀ i k : Fin n, k.val < c → k < i → |lu.factors i k| ≤ 1

theorem Eliminated.multiplier_le {lu lu' : Lu α n} {col i : Fin n}
    (he : lu.Eliminated lu' col (pivotRow lu.factors col)) (hi : col < i) :
    |lu'.factors i col| ≤ 1 := by
  have hmax := abs_le_pivotRow lu.factors (le_exchange he.col_le hi.le)
  rw [he.entry, if_neg (not_le.2 hi), if_neg (lt_irrefl col), if_pos rfl, abs_div]
  exact div_le_one_of_le₀ hmax (abs_nonneg _)

theorem Pivoted.eliminate {eps : α} {lu lu' : Lu α n} {col : Fin n} (hp : lu.Pivoted eps col)
    (h : lu.eliminate eps col = some lu') : lu'.Pivoted eps (col.val + 1) := by
  obtain ⟨he, hpivot⟩ := eliminate_eq_some h
  constructor
  · intro k hk
    rcases Nat.lt_succ_iff_lt_or_eq.1 hk with hlt | heq
    · rw [he.entry_above hlt]
      exact hp.pivot_le k hlt
    · rw [Fin.ext heq, he.entry_pivot, ← Scalar.abs_eq_abs]
      exact hpivot
  · intro i k hk hki
    rcases Nat.lt_succ_iff_lt_or_eq.1 hk with hlt | heq
    · -- The exchange brings a row from below the multipliers of the columns before.
      rw [he.entry_before i hlt]
      refine hp.multiplier_le _ k hlt ?_
      by_cases hi : i < col
      · rw [exchange_of_lt he.col_le hi]
        exact hki
      · exact lt_of_lt_of_le hlt (le_exchange he.col_le (not_lt.1 hi))
    · rw [Fin.ext heq] at hki ⊢
      exact he.multiplier_le hki

theorem pivoted_of_factor {eps : α} {a : Square α n} {lu : Lu α n}
    (h : factor? eps a = some lu) : lu.Pivoted eps n := by
  refine foldlM_finRange (fun c lu => Pivoted lu eps c) ⟨fun k hk => ?_, fun i k hk => ?_⟩
    (fun _ _ _ hp he => hp.eliminate he) h
  · omega
  · omega

/-! ## The solution -/

omit [IsStrictOrderedRing α] in
theorem isUnit_of_factor {eps : α} (heps : 0 < eps) {a : Square α n} {lu : Lu α n}
    (h : factor? eps a = some lu) : IsUnit a.toMatrix := by
  refine Matrix.mulVec_surjective_iff_isUnit.1 fun b => ⟨(lu.solve (.ofFn b)).get, ?_⟩
  funext i
  have hrow := solve_of_factor heps h (.ofFn b) i
  rw [get_ofFn] at hrow
  exact hrow

omit [IsStrictOrderedRing α] in
theorem mulVec_eq_iff_of_factor {eps : α} (heps : 0 < eps) {a : Square α n} {lu : Lu α n}
    (h : factor? eps a = some lu) (b x : Vector α n) :
    a.toMatrix.mulVec x.get = b.get ↔ x = lu.solve b := by
  have hsolve : a.toMatrix.mulVec (lu.solve b).get = b.get :=
    funext fun i => solve_of_factor heps h b i
  constructor
  · intro hx
    have hget := Matrix.mulVec_injective_iff_isUnit.2 (isUnit_of_factor heps h)
      (hx.trans hsolve.symm)
    exact Vector.ext fun i hi => congrFun hget ⟨i, hi⟩
  · rintro rfl
    exact hsolve

/-- What elimination returns for a matrix is a triangular factorization of it up to an order of
the rows, with large enough pivots and multipliers that do not exceed one, and its substitutions
give the one solution of every linear system. A singular matrix is refused. -/
theorem factor_exact {eps : α} (heps : 0 < eps) (a : Square α n) :
    (∀ lu, factor? eps a = some lu →
      lu.lower * lu.upper = a.toMatrix.submatrix lu.order.get id ∧
        Function.Bijective lu.order.get ∧
        (∀ i, eps ≤ |lu.upper i i|) ∧
        (∀ i k, k < i → |lu.factors i k| ≤ 1) ∧
        ∀ b x : Vector α n, a.toMatrix.mulVec x.get = b.get ↔ x = lu.solve b) ∧
    (a.toMatrix.det = 0 → factor? eps a = none) := by
  constructor
  · intro lu h
    have hr := represents_of_factor heps h
    have hp := pivoted_of_factor h
    refine ⟨hr.lower_mul_upper, Finite.injective_iff_bijective.1 hr.order_injective, fun i => ?_,
      fun i k hki => hp.multiplier_le i k k.isLt hki, mulVec_eq_iff_of_factor heps h⟩
    have hdiag : lu.upper i i = lu.factors i i := if_pos (le_refl i)
    rw [hdiag]
    exact hp.pivot_le i i.isLt
  · intro hdet
    cases h : factor? eps a with
    | none => rfl
    | some lu =>
        have hunit := (Matrix.isUnit_iff_isUnit_det _).1 (isUnit_of_factor heps h)
        rw [hdet] at hunit
        exact absurd hunit not_isUnit_zero

end Pivots

/-- Both columns to eliminate have their largest entry below the diagonal. -/
def tilted : Square ℚ 3 := .ofFn fun i j => !![1, 2, 0; 2, 4, 2; 4, 0, 8] i j

theorem tilted_exact :
    let eps : ℚ := 1 / 10
    0 < eps ∧ ∃ lu, factor? eps tilted = some lu ∧ lu.order.toList = [2, 1, 0] ∧
      lu.lower * lu.upper = tilted.toMatrix.submatrix lu.order.get id ∧
      ∀ b x : Vector ℚ 3, tilted.toMatrix.mulVec x.get = b.get ↔ x = lu.solve b := by
  intro eps
  have heps : 0 < eps := by decide +kernel
  have horder : (factor? eps tilted).map (·.order.toList) = some [2, 1, 0] := by decide +kernel
  obtain ⟨lu, hlu, hlist⟩ := Option.map_eq_some_iff.1 horder
  obtain ⟨hproduct, -, -, -, hsolve⟩ := (factor_exact heps tilted).1 lu hlu
  exact ⟨heps, lu, hlu, hlist, hproduct, hsolve⟩

end Lu

end TieredCalculus
