import TieredCalculus.Proofs.Linear.Pivoting

/-! # Matrices that are not refused

Elimination refuses a matrix at a column whose entries from the diagonal down are all below
the threshold. A vector that ends with a one in this column and is orthogonal to the rows above
is taken by the matrix to just these entries. So a matrix is accepted when it shortens no vector
that much.
-/

namespace TieredCalculus

namespace Lu

open Matrix

variable {α : Type} {n : Nat} [Field α] {lu : Lu α n} {col : Fin n}

/-- A vector that the rows above a column take to zero, with a one in the column and zeros
behind it. -/
structure Cancels (lu : Lu α n) (col : Fin n) (x : Vector α n) : Prop where
  at_col : x.get col = 1
  behind : ∀ j, col < j → x.get j = 0
  above : ∀ k, k < col → ∑ j, (if k ≤ j then lu.factors k j * x.get j else 0) = 0

def unitFrom (lu : Lu α n) (col : Fin n) : Lu α n :=
  ⟨.ofFn fun k j => if k < col then lu.factors k j else if k = j then 1 else 0, lu.order⟩

theorem unitFrom_above {k : Fin n} (hk : k < col) (j : Fin n) :
    (lu.unitFrom col).factors k j = lu.factors k j :=
  (Square.ofFn_apply _ k j).trans (if_pos hk)

theorem unitFrom_below {k : Fin n} (hk : ¬k < col) (j : Fin n) :
    (lu.unitFrom col).factors k j = if k = j then 1 else 0 :=
  (Square.ofFn_apply _ k j).trans (if_neg hk)

theorem exists_cancels (hpivot : ∀ k, k < col → lu.factors k k ≠ 0) :
    ∃ x, lu.Cancels col x := by
  have hne : ∀ k, (lu.unitFrom col).factors k k ≠ 0 := by
    intro k
    by_cases hk : k < col
    · rw [unitFrom_above hk]
      exact hpivot k hk
    · rw [unitFrom_below hk, if_pos rfl]
      exact one_ne_zero
  obtain ⟨x, hrows⟩ : ∃ x : Vector α n, ∀ k, ∑ j, (if k ≤ j then
      (lu.unitFrom col).factors k j * x.get j else 0) = if k = col then 1 else 0 :=
    ⟨_, fun k => (backward_eq _ (.ofFn fun i => if i = col then 1 else 0) hne k).trans
      (get_ofFn _ k)⟩
  have hunit : ∀ k, ¬k < col → x.get k = if k = col then 1 else 0 := by
    intro k hk
    rw [← hrows k, ← Fintype.sum_ite_eq k fun j => x.get j]
    apply Finset.sum_congr rfl
    intro j _
    rw [unitFrom_below hk]
    by_cases hj : k = j
    · simp [hj]
    · simp [hj]
  refine ⟨x, ?_, fun j hj => ?_, fun k hk => ?_⟩
  · rw [hunit col (lt_irrefl col), if_pos rfl]
  · rw [hunit j (lt_asymm hj), if_neg hj.ne']
  · have hzero := hrows k
    rw [if_neg hk.ne] at hzero
    refine (Finset.sum_congr rfl fun j _ => ?_).trans hzero
    rw [unitFrom_above hk]

theorem Cancels.row_sum {a : Square α n} {x : Vector α n} (hx : lu.Cancels col x)
    (hr : lu.Represents a col) (i : Fin n) :
    ∑ j, a (lu.order.get i) j * x.get j = if i < col then 0 else lu.factors i col := by
  rw [hr.row_sum]
  have heliminated : (∑ k, if k.val < col.val ∧ k < i then
      lu.factors i k * ∑ j, (if k ≤ j then lu.factors k j * x.get j else 0) else 0) = 0 := by
    apply Finset.sum_eq_zero
    intro k _
    by_cases hk : k.val < col.val ∧ k < i
    · rw [if_pos hk, hx.above k hk.1, mul_zero]
    · rw [if_neg hk]
  rw [heliminated, zero_add]
  by_cases hi : i < col
  · have hmin : min i.val col.val = i.val := Nat.min_eq_left (Nat.le_of_lt hi)
    rw [if_pos hi, hmin]
    exact hx.above i hi
  · have hmin : min i.val col.val = col.val := Nat.min_eq_right (Nat.le_of_not_lt hi)
    rw [if_neg hi, hmin, ← Fintype.sum_ite_eq' col fun j => lu.factors i j]
    apply Finset.sum_congr rfl
    intro j _
    rcases lt_trichotomy j col with hj | hj | hj
    · rw [if_neg (show ¬col.val ≤ j.val from not_le.2 hj), if_neg hj.ne]
    · rw [hj, if_pos le_rfl, if_pos rfl, hx.at_col, mul_one]
    · rw [if_pos (show col.val ≤ j.val from hj.le), if_neg hj.ne', hx.behind j hj, mul_zero]

variable [LinearOrder α] [IsStrictOrderedRing α] {eps : α}

omit [IsStrictOrderedRing α] in
theorem eliminate_eq_none (h : lu.eliminate eps col = none) :
    Scalar.abs (lu.factors (pivotRow lu.factors col) col) < eps := by
  unfold eliminate at h
  by_cases heps : eps ≤ Scalar.abs (lu.factors (pivotRow lu.factors col) col)
  · simp only [if_pos heps] at h
    cases h
  · exact not_le.1 heps

/-- A matrix that is refused at a column shortens some vector to less than the threshold allows
for all entries together. -/
theorem Represents.exists_short (heps : 0 < eps) {a : Square α n} (hr : lu.Represents a col)
    (h : lu.eliminate eps col = none) : ∃ x : Fin n → α, 1 ≤ x ⬝ᵥ x ∧
      (a.toMatrix *ᵥ x) ⬝ᵥ (a.toMatrix *ᵥ x) < n * eps ^ 2 := by
  obtain ⟨x, hx⟩ := exists_cancels fun k hk => hr.pivot_ne_zero k hk
  refine ⟨x.get, ?_, ?_⟩
  · have hcol : x.get col * x.get col = 1 := by rw [hx.at_col, one_mul]
    rw [← hcol]
    exact Finset.single_le_sum (fun j _ => mul_self_nonneg (x.get j)) (Finset.mem_univ col)
  · -- The rows of the matrix are summed in the order of use.
    have hbijective := Finite.injective_iff_bijective.1 hr.order_injective
    have hsmall : ∀ i, ((a.toMatrix *ᵥ x.get) (lu.order.get i)) ^ 2 < eps ^ 2 := by
      intro i
      have hrow : (a.toMatrix *ᵥ x.get) (lu.order.get i) = _ := hx.row_sum hr i
      rw [hrow, sq_lt_sq, abs_of_pos heps]
      by_cases hi : i < col
      · rw [if_pos hi, abs_zero]
        exact heps
      · rw [if_neg hi]
        refine (abs_le_pivotRow lu.factors (not_lt.1 hi)).trans_lt ?_
        rw [← Scalar.abs_eq_abs]
        exact eliminate_eq_none h
    have hnonempty : (Finset.univ : Finset (Fin n)).Nonempty := ⟨col, Finset.mem_univ col⟩
    calc (a.toMatrix *ᵥ x.get) ⬝ᵥ (a.toMatrix *ᵥ x.get)
        = ∑ i, ((a.toMatrix *ᵥ x.get) (lu.order.get i)) ^ 2 := by
          rw [hbijective.sum_comp fun i => ((a.toMatrix *ᵥ x.get) i) ^ 2]
          exact Finset.sum_congr rfl fun i _ => (sq _).symm
      _ < ∑ _i : Fin n, eps ^ 2 := Finset.sum_lt_sum_of_nonempty hnonempty fun i _ => hsmall i
      _ = n * eps ^ 2 := by simp

/-- A matrix that does not shorten any vector too much has factors. -/
theorem exists_factor_of_stretch (heps : 0 < eps) {a : Square α n}
    (h : ∀ x : Fin n → α, n * eps ^ 2 * (x ⬝ᵥ x) ≤ (a.toMatrix *ᵥ x) ⬝ᵥ (a.toMatrix *ᵥ x)) :
    ∃ lu, factor? eps a = some lu := by
  cases hf : factor? eps a with
  | some lu => exact ⟨lu, rfl⟩
  | none =>
      obtain ⟨col, lu, hr, hnone⟩ := exists_of_foldlM_finRange_eq_none
        (fun c lu => Represents lu a c) (represents_start a)
        (fun _ _ _ hr he => hr.eliminate heps he) hf
      obtain ⟨x, hlong, hshort⟩ := hr.exists_short heps hnone
      have hscale : n * eps ^ 2 ≤ n * eps ^ 2 * (x ⬝ᵥ x) :=
        le_mul_of_one_le_right (by positivity) hlong
      exact absurd hshort (not_lt.2 (hscale.trans (h x)))

end Lu

end TieredCalculus
