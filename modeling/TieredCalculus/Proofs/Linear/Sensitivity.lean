import TieredCalculus.Proofs.Linear.Batched

/-! # The batched sensitivities

The dense solver finds the sensitivities of every batch entry one column after the other, with
the same triangular factors: column `c` is minus what it solves for column `c` of the right
side, and exactly, over a field, the matrix `X` with `J X = -B`.
-/

namespace TieredCalculus

namespace Tensor

variable {α : Type} [Zero α]

/-- Run number `k` of `n * m` consecutive entries, read as a matrix of `n` rows. -/
def matrixRun (t : Tensor α) (n m k : Nat) (i : Fin n) (c : Fin m) : α :=
  t.data[(k * n + i) * m + c]?.getD 0

def column (t : Tensor α) (n c : Nat) : Tensor α :=
  tabulate t.batch [] [n] fun idx => t.entry (idx ++ [c])

theorem packed_column (t : Tensor α) (n c : Nat) : (t.column n c).Packed n := ⟨rfl, rfl⟩

theorem runAt_column (t : Tensor α) {n c : Nat} {batch : Shape} {k : Index}
    (h : t.batch.expandsTo batch = true) (hk : Shape.InBounds batch k) (i : Fin n) :
    ((t.column n c).runAt n k).get i = t.entry (t.batch.project k ++ [i.val, c]) := by
  have hmiddle : Shape.InBounds [] [] := trivial
  have hbase : Shape.InBounds [n] [i.val] := ⟨i.isLt, trivial⟩
  have hcell := cell_tabulate (fun idx => t.entry (idx ++ [c])) (Shape.project_inBounds h hk)
    hmiddle hbase
  have hplace : Shape.offset [n] [i.val] = i.val := by simp
  rw [List.append_nil, List.append_assoc, hplace] at hcell
  rw [(t.packed_column n c).runAt_get]
  exact hcell

end Tensor

namespace LinearSolver

variable {α : Type}

theorem checkRight_matrix_eq_ok {b : Tensor α} {n m : Nat} :
    checkRight b [n, m] = .ok () ↔ b.middle = [] ∧ b.base = [n, m] := by
  unfold checkRight
  by_cases hm : b.middle = []
  · by_cases hb : b.base = [n, m]
    · simp [hm, hb]
    · simp [hm, hb]
  · simp [hm]

section Entries

variable [Zero α] [Neg α] [Sub α] [Mul α] [Div α]

/-- The block of a batch entry, row after row: minus the solutions for the columns of a right
side. -/
def columnBlock {n m : Nat} (lu : Lu α n) (right : Fin n → Fin m → α) : Vector α (n * m) :=
  Vector.flatten <| .ofFn fun i => .ofFn fun c : Fin m =>
    -(lu.solve (.ofFn fun i => right i c)).get i

theorem columnBlock_get {n m : Nat} (lu : Lu α n) (right : Fin n → Fin m → α) (i : Fin n)
    (c : Fin m) (h : i * m + c < n * m) :
    (columnBlock lu right).get ⟨i * m + c, h⟩ = -(lu.solve (.ofFn fun i => right i c)).get i := by
  obtain ⟨hdiv, hmod⟩ := Shape.place_div_mod (a := i) c.isLt
  change (columnBlock lu right)[i * m + c] = _
  unfold columnBlock
  rw [Vector.getElem_flatten]
  simp only [Vector.getElem_ofFn, hdiv, hmod]

theorem toArray_columnBlock {n m : Nat} (lu : Lu α n) (right : Fin n → Fin m → α) :
    (columnBlock lu right).toArray =
      (Vector.ofFn fun i => (Vector.ofFn fun c : Fin m =>
        -((Vector.ofFn fun c => lu.solve (.ofFn fun i => right i c)).get c).get i).toArray
        ).toArray.flatten := by
  unfold columnBlock Vector.flatten
  simp only [Vector.toArray_ofFn, Array.map_ofFn, get_ofFn]
  rfl

variable [LT α] [DecidableLT α] [LE α] [DecidableLE α] {eps : α}

theorem sensitivityDense_eq_ok {j b x : Tensor α} (h : sensitivityDense eps j b = .ok x) :
    ∃ n m batch, j.PackedSquare n ∧ b.middle = [] ∧ b.base = [n, m] ∧
      Shape.broadcast j.batch b.batch = .ok batch ∧ x.batch = batch ∧ x.middle = [] ∧
      x.base = [n, m] ∧ ∀ {k : Index}, Shape.InBounds batch k → ∀ c < m,
        ∃ lu, Lu.factor? eps (j.squareAt n k) = some lu ∧
          (x.column n c).runAt n k = (lu.solve ((b.column n c).runAt n k)).map Neg.neg := by
  obtain ⟨n, hn, h₁⟩ := Update.except_bind_eq_ok.1 h
  obtain ⟨_, hright, h₂⟩ := Update.except_bind_eq_ok.1 h₁
  obtain ⟨batch, hbatch, h₃⟩ := Update.except_bind_eq_ok.1 h₂
  have hj := squareSize_eq_ok.1 hn
  obtain ⟨hbm, hbb⟩ := checkRight_matrix_eq_ok.1 hright
  have hbatch' := SolveError.ofTensor_eq_ok.1 hbatch
  obtain ⟨hje, hbe, -⟩ := Shape.broadcast_expandsTo hbatch'
  generalize b.base.getD 1 0 = m at h₃ hbb
  refine ⟨n, m, batch, hj, hbm, hbb, hbatch', ?_⟩
  by_cases h0 : (decide (n = 0) || decide (m = 0)) = true
  · rw [if_pos h0] at h₃
    cases h₃
    rw [Bool.or_eq_true, decide_eq_true_eq, decide_eq_true_eq] at h0
    refine ⟨rfl, rfl, rfl, fun _ c hc => ?_⟩
    obtain rfl : n = 0 := by omega
    exact ⟨_, rfl, Vector.ext fun i hi => absurd hi (Nat.not_lt_zero i)⟩
  · rw [if_neg h0] at h₃
    obtain ⟨factors, hf, h₄⟩ := Update.except_bind_eq_ok.1 h₃
    obtain ⟨b', hb', h₅⟩ := Update.except_bind_eq_ok.1 h₄
    obtain ⟨-, hall⟩ := factorEntries_eq_ok hj hf
    have hx : Tensor.ofValues batch [] [n, m] ((factors.zipIdx.map fun p =>
        (columnBlock p.1 (b'.matrixRun n m p.2)).toArray).foldl (· ++ ·) #[]) = .ok x := by
      simp only [toArray_columnBlock]
      exact SolveError.ofTensor_eq_ok.1 h₅
    rw [Tensor.foldl_rows factors.zipIdx fun p => columnBlock p.1 (b'.matrixRun n m p.2)] at hx
    obtain ⟨hxb, hxm, hxs, hrun⟩ := Tensor.ofValues_runs hx
    have hb'' := SolveError.ofTensor_eq_ok.1 hb'
    obtain ⟨-, hbview⟩ := Tensor.expandBatch_view hb''
    refine ⟨hxb, hxm, hxs, fun {k} hk c hc => ?_⟩
    obtain ⟨lu, hpair, hlu⟩ := hall hk
    refine ⟨lu, hlu, ?_⟩
    have hblock : x.vectorRun (n * m) (batch.offset k) =
        columnBlock lu (b'.matrixRun n m (batch.offset k)) :=
      hrun _ _ (by rw [List.getElem?_map, hpair]; rfl)
    have hright : (b.column n c).runAt n k =
        .ofFn fun i => b'.matrixRun n m (batch.offset k) i ⟨c, hc⟩ := by
      apply Vector.ext
      intro i hi
      refine (b.runAt_column hbe hk ⟨i, hi⟩).trans ?_
      rw [Vector.getElem_ofFn,
        ← Tensor.entry_of_expandBatch hb'' hbm hk (by rw [hbb]; exact ⟨hi, hc, trivial⟩),
        Tensor.entry_matrix (hbview.middle_eq.trans hbm) (hbview.base_eq.trans hbb)
          (by rw [hbview.batch_eq]; exact hk.length_eq), hbview.batch_eq]
      rfl
    rw [hright]
    apply Vector.ext
    intro i hi
    have hplace : i * m + c < n * m := Nat.lt_of_lt_of_le
      (Nat.add_lt_add_left hc _) (by rw [← Nat.succ_mul]; exact Nat.mul_le_mul_right m hi)
    have hentry := columnBlock_get lu (b'.matrixRun n m (batch.offset k)) ⟨i, hi⟩ ⟨c, hc⟩ hplace
    rw [← hblock, Tensor.vectorRun, get_ofFn] at hentry
    refine (x.runAt_column (hxb ▸ Shape.expandsTo_refl batch) hk ⟨i, hi⟩).trans ?_
    rw [hxb, Shape.project_of_inBounds hk, Tensor.entry_matrix hxm hxs
      (by rw [hxb]; exact hk.length_eq), hxb, Vector.getElem_map, Nat.add_mul, Nat.mul_assoc,
      Nat.add_assoc]
    exact hentry

theorem sensitivityDense_eq_error_iff {j b : Tensor α} {n m : Nat} {batch : Shape}
    {e : SolveError α} (hj : j.PackedSquare n) (hm : 0 < m) (hbm : b.middle = [])
    (hbb : b.base = [n, m]) (hbatch : Shape.broadcast j.batch b.batch = .ok batch) :
    sensitivityDense eps j b = .error e ↔ FirstRefused eps j n batch e := by
  obtain ⟨hje, hbe, -⟩ := Shape.broadcast_expandsTo hbatch
  have hlift : (liftM (Shape.broadcast j.batch b.batch) : Except (SolveError α) Shape) =
      .ok batch := SolveError.ofTensor_eq_ok.2 hbatch
  have hcolumns : b.base.getD 1 0 = m := by rw [hbb]; rfl
  unfold sensitivityDense
  rw [squareSize_eq_ok.2 hj, hcolumns]
  change (checkRight b [n, m] >>= _) = _ ↔ _
  rw [checkRight_matrix_eq_ok.2 ⟨hbm, hbb⟩, hlift]
  change (if (decide (n = 0) || decide (m = 0)) = true then _
    else (factorEntries eps j batch n >>= _)) = _ ↔ _
  by_cases h0 : n = 0
  · subst h0
    rw [if_pos (by simp)]
    constructor
    · intro h
      cases h
    · rintro ⟨k, -, hnone, -⟩
      cases hnone
  rw [if_neg (by simp; omega), Update.except_bind_eq_error, factorEntries_eq_error hj hje]
  refine or_iff_left ?_
  rintro ⟨factors, hf, h⟩
  obtain ⟨b', hb'⟩ := Tensor.expandBatch_isOk hbe
  have hlift' : (liftM (b.expandBatch batch) : Except (SolveError α) (Tensor α)) = .ok b' :=
    SolveError.ofTensor_eq_ok.2 hb'
  rw [hlift'] at h
  obtain ⟨hlen, -⟩ := factorEntries_eq_ok hj hf
  have hblocks : (factors.zipIdx.map fun p => columnBlock p.1 (b'.matrixRun n m p.2)).length =
      batch.numel := by rw [List.length_map, List.length_zipIdx, hlen]
  have hbase : Shape.numel [n, m] = n * m := by simp
  obtain ⟨x, hx⟩ := Tensor.ofValues_runs_isOk hbase hblocks
  rw [← Tensor.foldl_rows] at hx
  simp only [toArray_columnBlock] at hx
  cases h.symm.trans (SolveError.ofTensor_eq_ok.2 hx)

end Entries

variable [Field α]

/-- Every batch entry of `x` is the solution of `J X = -B` for that entry of `j` and `b`. -/
structure SolvesColumns (j b x : Tensor α) (n m : Nat) (batch : Shape) : Prop where
  matrix : j.PackedSquare n
  right_middle : b.middle = []
  right_base : b.base = [n, m]
  broadcast : Shape.broadcast j.batch b.batch = .ok batch
  batch_eq : x.batch = batch
  middle_eq : x.middle = []
  base_eq : x.base = [n, m]
  row_eq : ∀ {k : Index}, Shape.InBounds batch k → ∀ i < n, ∀ c < m,
    ∑ l ∈ Finset.range n, j.entry (j.batch.project k ++ [i, l]) * x.entry (k ++ [l, c]) =
      -b.entry (b.batch.project k ++ [i, c])

variable [LinearOrder α]

theorem sensitivityDense_solves {eps : α} (heps : 0 < eps) {j b x : Tensor α}
    (h : sensitivityDense eps j b = .ok x) : ∃ n m batch, SolvesColumns j b x n m batch := by
  obtain ⟨n, m, batch, hj, hbm, hbb, hbatch, hxb, hxm, hxs, hcolumns⟩ := sensitivityDense_eq_ok h
  obtain ⟨hje, hbe, -⟩ := Shape.broadcast_expandsTo hbatch
  refine ⟨n, m, batch, hj, hbm, hbb, hbatch, hxb, hxm, hxs, fun {k} hk i hi c hc => ?_⟩
  obtain ⟨lu, hlu, hcolumn⟩ := hcolumns hk c hc
  have hsolve := Lu.solve_of_factor heps hlu ((b.column n c).runAt n k) ⟨i, hi⟩
  have hrank : j.batch.length ≤ k.length := by
    rw [hk.length_eq]
    exact Shape.expandsTo_length hje
  have hentry : ∀ l : Fin n, x.entry (k ++ [l.val, c]) =
      -(lu.solve ((b.column n c).runAt n k)).get l := by
    intro l
    have hread := x.runAt_column (hxb ▸ Shape.expandsTo_refl batch) hk (c := c) l
    rw [hxb, Shape.project_of_inBounds hk, hcolumn] at hread
    rw [← hread]
    exact Vector.getElem_map _ l.isLt
  rw [b.runAt_column hbe hk] at hsolve
  rw [Finset.sum_range, ← hsolve, ← Finset.sum_neg_distrib]
  exact Finset.sum_congr rfl fun l _ => by
    rw [← hj.squareAt_eq_entry hrank ⟨i, hi⟩ l, hentry, mul_neg]

theorem dense_solvesColumns [IsStrictOrderedRing α] {j b x : Tensor α}
    (h : (dense : LinearSolver α).sensitivity j b = .ok x) :
    ∃ n m batch, SolvesColumns j b x n m batch :=
  sensitivityDense_solves threshold_pos h

end LinearSolver

end TieredCalculus
