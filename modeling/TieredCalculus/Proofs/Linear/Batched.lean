import Mathlib.Tactic.NormNum
import TieredCalculus.Proofs.Linear.Lu
import TieredCalculus.Proofs.Tensor.Runs

/-! # The batched solve

The dense solver treats every batch entry on its own: it solves by the factors of the entry's
matrix, exactly over a field, and fails where an entry's matrix is refused.
-/

namespace TieredCalculus

namespace LinearSolver

variable {α : Type}

theorem squareSize_eq_ok {j : Tensor α} {n : Nat} :
    squareSize j = .ok n ↔ j.PackedSquare n := by
  unfold squareSize Tensor.PackedSquare
  split
  · next r c hbase =>
    rw [hbase]
    by_cases h : r = c ∧ j.middle.length = 0
    · obtain ⟨rfl, hm⟩ := h
      rw [if_pos (by simp [hm]), List.length_eq_zero_iff.1 hm]
      simp
    · rw [if_neg (by simpa using h)]
      constructor
      · intro he
        cases he
      · rintro ⟨hm, hb⟩
        cases hb
        exact absurd ⟨rfl, by rw [hm]; rfl⟩ h
  · next hbase =>
    constructor
    · intro he
      cases he
    · rintro ⟨-, hb⟩
      exact absurd hb (hbase n n)

theorem checkRight_eq_ok {b : Tensor α} {n : Nat} : checkRight b [n] = .ok () ↔ b.Packed n := by
  unfold checkRight Tensor.Packed
  by_cases hm : b.middle = []
  · by_cases hb : b.base = [n]
    · simp [hm, hb]
    · simp [hm, hb]
  · simp [hm]

/-! ## Entry by entry -/

private theorem factored_eq_error {n k : Nat} {lu : Option (Lu α n)} {e : SolveError α} :
    (match lu with
      | some lu => .ok lu
      | none => .error (.singularMatrix k) : Except (SolveError α) (Lu α n)) = .error e ↔
      lu = none ∧ e = .singularMatrix k := by
  cases lu <;> simp [eq_comm]

private theorem factored_eq_ok {n k : Nat} {lu : Option (Lu α n)} {lu' : Lu α n} :
    (match lu with
      | some lu => .ok lu
      | none => .error (.singularMatrix k) : Except (SolveError α) (Lu α n)) = .ok lu' ↔
      lu = some lu' := by
  cases lu <;> simp

section Entries

variable [Zero α] [Neg α] [Sub α] [Mul α] [Div α] [LT α] [DecidableLT α] [LE α] [DecidableLE α]
  {eps : α}

theorem factorEntries_eq_ok {j : Tensor α} {batch : Shape} {n : Nat} (hj : j.PackedSquare n)
    {factors : List (Lu α n)} (h : factorEntries eps j batch n = .ok factors) :
    factors.length = batch.numel ∧ ∀ {k : Index}, Shape.InBounds batch k →
      ∃ lu, factors.zipIdx[batch.offset k]? = some (lu, batch.offset k) ∧
        Lu.factor? eps (j.squareAt n k) = some lu := by
  obtain ⟨w, hw, hrest⟩ := Update.except_bind_eq_ok.1 h
  obtain ⟨-, hwb, -, hrun⟩ := hj.expandBatch (SolveError.ofTensor_eq_ok.1 hw)
  obtain ⟨hlen, hall⟩ := Update.except_mapM_eq_ok hrest
  rw [List.length_range] at hlen
  refine ⟨hlen, fun {k} hk => ?_⟩
  obtain ⟨lu, hget, hlu⟩ := hall _ _ (List.getElem?_range (Shape.offset_lt hk))
  refine ⟨lu, by rw [List.getElem?_zipIdx, hget]; simp, ?_⟩
  rw [← hrun (Shape.expandsTo_refl batch) hk, Tensor.squareAt_of_inBounds w n (hwb ▸ hk), hwb]
  exact factored_eq_ok.1 hlu

/-- The error names the first entry of the batch, in row-major order, whose matrix is refused. -/
def FirstRefused (eps : α) (j : Tensor α) (n : Nat) (batch : Shape) (e : SolveError α) : Prop :=
  ∃ k, Shape.InBounds batch k ∧ Lu.factor? eps (j.squareAt n k) = none ∧
    e = .singularMatrix (batch.offset k) ∧
      ∀ k', Shape.InBounds batch k' → batch.offset k' < batch.offset k →
        ∃ lu, Lu.factor? eps (j.squareAt n k') = some lu

theorem factorEntries_eq_error {j : Tensor α} {n : Nat} {batch : Shape} {e : SolveError α}
    (hj : j.PackedSquare n) (hexp : j.batch.expandsTo batch = true) :
    factorEntries eps j batch n = .error e ↔ FirstRefused eps j n batch e := by
  obtain ⟨w, hw⟩ := Tensor.expandBatch_isOk hexp
  obtain ⟨-, hwb, -, hrun⟩ := hj.expandBatch hw
  have hlift : (liftM (j.expandBatch batch) : Except (SolveError α) (Tensor α)) = .ok w :=
    SolveError.ofTensor_eq_ok.2 hw
  have hsquare : ∀ {k}, Shape.InBounds batch k →
      w.squareRun n (batch.offset k) = j.squareAt n k := by
    intro k hk
    rw [← hrun (Shape.expandsTo_refl batch) hk, Tensor.squareAt_of_inBounds w n (hwb ▸ hk), hwb]
  unfold factorEntries
  rw [hlift]
  refine Update.except_mapM_eq_error_iff.trans ?_
  constructor
  · rintro ⟨p, _, hp, he, hbefore⟩
    obtain ⟨hlt, rfl⟩ := List.getElem?_eq_some_iff.1 hp
    rw [List.length_range] at hlt
    rw [List.getElem_range] at he
    obtain ⟨k, hk, rfl⟩ := Shape.exists_offset_eq hlt
    obtain ⟨hnone, he⟩ := factored_eq_error.1 he
    refine ⟨k, hk, by rw [← hsquare hk, hnone], he, fun k' hk' hlt' => ?_⟩
    obtain ⟨lu, hlu⟩ := hbefore _ hlt' _ (List.getElem?_range (Shape.offset_lt hk'))
    exact ⟨lu, by rw [← hsquare hk', factored_eq_ok.1 hlu]⟩
  · rintro ⟨k, hk, hnone, he, hbefore⟩
    refine ⟨batch.offset k, _, List.getElem?_range (Shape.offset_lt hk), ?_, fun p hp y hy => ?_⟩
    · rw [← hsquare hk] at hnone
      exact factored_eq_error.2 ⟨hnone, he⟩
    · obtain ⟨hlt, rfl⟩ := List.getElem?_eq_some_iff.1 hy
      rw [List.length_range] at hlt
      obtain ⟨k', hk', rfl⟩ := Shape.exists_offset_eq hlt
      obtain ⟨lu, hlu⟩ := hbefore k' hk' hp
      rw [← hsquare hk'] at hlu
      rw [List.getElem_range]
      exact ⟨lu, factored_eq_ok.2 hlu⟩

theorem solveDense_eq_ok {j b x : Tensor α} (h : solveDense eps j b = .ok x) :
    ∃ n batch, j.PackedSquare n ∧ b.Packed n ∧ Shape.broadcast j.batch b.batch = .ok batch ∧
      x.batch = batch ∧ x.Packed n ∧ ∀ {k : Index}, Shape.InBounds batch k →
        ∃ lu, Lu.factor? eps (j.squareAt n k) = some lu ∧
          x.runAt n k = lu.solve (b.runAt n k) := by
  obtain ⟨n, hn, h₁⟩ := Update.except_bind_eq_ok.1 h
  obtain ⟨_, hright, h₂⟩ := Update.except_bind_eq_ok.1 h₁
  obtain ⟨batch, hbatch, h₃⟩ := Update.except_bind_eq_ok.1 h₂
  have hj := squareSize_eq_ok.1 hn
  have hb := checkRight_eq_ok.1 hright
  refine ⟨n, batch, hj, hb, SolveError.ofTensor_eq_ok.1 hbatch, ?_⟩
  by_cases h0 : n = 0
  · rw [if_pos h0] at h₃
    cases h₃
    subst h0
    exact ⟨rfl, ⟨rfl, rfl⟩, fun _ => ⟨_, rfl, Vector.ext fun i hi => absurd hi (Nat.not_lt_zero i)⟩⟩
  · rw [if_neg h0] at h₃
    obtain ⟨factors, hf, h₄⟩ := Update.except_bind_eq_ok.1 h₃
    obtain ⟨b', hb', h₅⟩ := Update.except_bind_eq_ok.1 h₄
    obtain ⟨-, hall⟩ := factorEntries_eq_ok hj hf
    have hx := SolveError.ofTensor_eq_ok.1 h₅
    rw [Tensor.foldl_rows factors.zipIdx fun p => p.1.solve (b'.vectorRun n p.2)] at hx
    obtain ⟨hxb, hxp, hrun⟩ := Tensor.ofValues_rows hx
    obtain ⟨-, hbb, -, hbrun⟩ := hb.expandBatch (SolveError.ofTensor_eq_ok.1 hb')
    refine ⟨hxb, hxp, fun {k} hk => ?_⟩
    obtain ⟨lu, hpair, hlu⟩ := hall hk
    have hsolve := hrun (batch.offset k) (lu.solve (b'.vectorRun n (batch.offset k)))
      (by rw [List.getElem?_map, hpair]; rfl)
    refine ⟨lu, hlu, ?_⟩
    rw [Tensor.runAt_of_inBounds x n (hxb ▸ hk), hxb, hsolve,
      ← hbrun (Shape.expandsTo_refl batch) hk, Tensor.runAt_of_inBounds b' n (hbb ▸ hk), hbb]

theorem solveDense_eq_error_iff {j b : Tensor α} {n : Nat} {batch : Shape} {e : SolveError α}
    (hj : j.PackedSquare n) (hb : b.Packed n)
    (hbatch : Shape.broadcast j.batch b.batch = .ok batch) :
    solveDense eps j b = .error e ↔ FirstRefused eps j n batch e := by
  obtain ⟨hje, hbe, -⟩ := Shape.broadcast_expandsTo hbatch
  have hlift : (liftM (Shape.broadcast j.batch b.batch) : Except (SolveError α) Shape) =
      .ok batch := SolveError.ofTensor_eq_ok.2 hbatch
  unfold solveDense
  rw [squareSize_eq_ok.2 hj]
  change (checkRight b [n] >>= _) = _ ↔ _
  rw [checkRight_eq_ok.2 hb, hlift]
  change (if n = 0 then _ else (factorEntries eps j batch n >>= _)) = _ ↔ _
  by_cases h0 : n = 0
  · subst h0
    rw [if_pos rfl]
    constructor
    · intro h
      cases h
    · rintro ⟨k, -, hnone, -⟩
      cases hnone
  rw [if_neg h0, Update.except_bind_eq_error, factorEntries_eq_error hj hje]
  refine or_iff_left ?_
  rintro ⟨factors, hf, h⟩
  obtain ⟨b', hb'⟩ := Tensor.expandBatch_isOk hbe
  have hlift' : (liftM (b.expandBatch batch) : Except (SolveError α) (Tensor α)) = .ok b' :=
    SolveError.ofTensor_eq_ok.2 hb'
  rw [hlift'] at h
  obtain ⟨hlen, -⟩ := factorEntries_eq_ok hj hf
  have hrows : (factors.zipIdx.map fun p => p.1.solve (b'.vectorRun n p.2)).length =
      batch.numel := by rw [List.length_map, List.length_zipIdx, hlen]
  obtain ⟨x, hx⟩ := Tensor.ofValues_rows_isOk hrows
  rw [← Tensor.foldl_rows] at hx
  cases h.symm.trans (SolveError.ofTensor_eq_ok.2 hx)

/-- The dense solver refuses a system only for a matrix that the factorization refuses, and
names the entry. -/
theorem solveDense_eq_error {j b : Tensor α} {n : Nat} {batch : Shape} {e : SolveError α}
    (hj : j.PackedSquare n) (hb : b.Packed n)
    (hbatch : Shape.broadcast j.batch b.batch = .ok batch) (h : solveDense eps j b = .error e) :
    ∃ k, Shape.InBounds batch k ∧ Lu.factor? eps (j.squareAt n k) = none ∧
      e = .singularMatrix (batch.offset k) := by
  obtain ⟨k, hk, hnone, he, -⟩ := (solveDense_eq_error_iff hj hb hbatch).1 h
  exact ⟨k, hk, hnone, he⟩

theorem solveDense_isOk {j b : Tensor α} {n : Nat} {batch : Shape}
    (hj : j.PackedSquare n) (hb : b.Packed n)
    (hbatch : Shape.broadcast j.batch b.batch = .ok batch)
    (hf : ∀ {k : Index}, Shape.InBounds batch k →
      ∃ lu, Lu.factor? eps (j.squareAt n k) = some lu) : ∃ x, solveDense eps j b = .ok x := by
  cases h : solveDense eps j b with
  | ok x => exact ⟨x, rfl⟩
  | error e =>
      obtain ⟨k, hk, hnone, -⟩ := solveDense_eq_error hj hb hbatch h
      obtain ⟨lu, hlu⟩ := hf hk
      rw [hnone] at hlu
      cases hlu

end Entries

/-! ## Exactness -/

variable [Field α]

/-- Every batch entry of `x` solves the linear system of that entry of `j` and `b`. -/
structure Solves (j b x : Tensor α) (n : Nat) (batch : Shape) : Prop where
  matrix : j.PackedSquare n
  right : b.Packed n
  broadcast : Shape.broadcast j.batch b.batch = .ok batch
  batch_eq : x.batch = batch
  packed : x.Packed n
  row_eq : ∀ {k : Index}, Shape.InBounds batch k → ∀ i : Fin n,
    ∑ l, j.squareAt n k i l * (x.runAt n k).get l = (b.runAt n k).get i

/-- The solver returns solutions only. -/
def Exact (linear : LinearSolver α) : Prop :=
  ∀ {j b x : Tensor α}, linear.solve j b = .ok x → ∃ n batch, Solves j b x n batch

variable [LinearOrder α]

theorem solveDense_solves {eps : α} (heps : 0 < eps) {j b x : Tensor α}
    (h : solveDense eps j b = .ok x) : ∃ n batch, Solves j b x n batch := by
  obtain ⟨n, batch, hj, hb, hbatch, hxb, hxp, hrun⟩ := solveDense_eq_ok h
  refine ⟨n, batch, hj, hb, hbatch, hxb, hxp, fun hk i => ?_⟩
  obtain ⟨lu, hlu, hx⟩ := hrun hk
  rw [hx]
  exact Lu.solve_of_factor heps hlu _ i

theorem threshold_pos [IsStrictOrderedRing α] : 0 < (Lu.threshold : α) := by
  unfold Lu.threshold
  norm_num

theorem dense_exact [IsStrictOrderedRing α] : Exact (dense : LinearSolver α) :=
  fun h => solveDense_solves threshold_pos h

end LinearSolver

end TieredCalculus
