import TieredCalculus.Proofs.Linear.Sensitivity
import TieredCalculus.Proofs.Rational

/-! # Linear systems entry by entry

What the dense solver returns for a batch entry is a function of the matrix and the right side
of this entry alone. It fails where one of the matrices is refused, with the first of them, and
the sensitivities fail with the same one. All of this holds of any scalars, rounded ones too.
-/

namespace TieredCalculus

namespace Tensor

variable {α : Type} [Zero α]

theorem Packed.entry_append {t : Tensor α} {n : Nat} (h : t.Packed n) {k : Index}
    (hk : Shape.InBounds t.batch k) (i : Fin n) : t.entry (k ++ [i.val]) = (t.runAt n k).get i := by
  have hmiddle : ([] : Index).length = t.middle.length := by rw [h.1]
  have hentry := entry_eq_cell t [i.val] hk.length_eq hmiddle
  rw [List.append_nil] at hentry
  rw [hentry, h.runAt_get, Shape.project_of_inBounds hk, h.2]
  simp

theorem Packed.ext_runAt {s t : Tensor α} {n : Nat} (hs : s.Packed n) (ht : t.Packed n)
    (hb : s.batch = t.batch)
    (h : ∀ k, Shape.InBounds s.batch k → s.runAt n k = t.runAt n k) : s = t := by
  refine ext_entry hb (hs.1.trans ht.1.symm) (hs.2.trans ht.2.symm) fun idx hidx => ?_
  rw [shape, hs.1, hs.2, List.append_nil] at hidx
  obtain ⟨k, place, rfl, hk, hplace⟩ := Shape.exists_append_of_inBounds hidx
  obtain ⟨i, rfl⟩ := List.length_eq_one_iff.1 hplace.length_eq
  have hi : i < n := hplace.1
  rw [hs.entry_append hk ⟨i, hi⟩, ht.entry_append (hb ▸ hk) ⟨i, hi⟩, h k hk]

end Tensor

namespace LinearSolver

variable {α : Type} [Zero α] [Neg α] [Sub α] [Mul α] [Div α] [LT α] [DecidableLT α] [LE α]
  [DecidableLE α]

/-! ## Results on given shapes -/

section Shapes

variable {eps : α} {j b x : Tensor α} {n m : Nat} {batch : Shape}

theorem solveDense_entries (hj : j.PackedSquare n)
    (hbatch : Shape.broadcast j.batch b.batch = .ok batch) (h : solveDense eps j b = .ok x) :
    x.batch = batch ∧ x.Packed n ∧ ∀ k, Shape.InBounds batch k →
      ∃ lu, Lu.factor? eps (j.squareAt n k) = some lu ∧ x.runAt n k = lu.solve (b.runAt n k) := by
  obtain ⟨n', batch', hj', -, hbatch', hxb, hxp, hall⟩ := solveDense_eq_ok h
  obtain rfl : n = n' := (List.cons.inj (hj.2.symm.trans hj'.2)).1
  cases hbatch.symm.trans hbatch'
  exact ⟨hxb, hxp, fun k hk => hall hk⟩

theorem sensitivityDense_columns (hbb : b.base = [n, m])
    (hbatch : Shape.broadcast j.batch b.batch = .ok batch)
    (h : sensitivityDense eps j b = .ok x) :
    x.batch = batch ∧ x.middle = [] ∧ x.base = [n, m] ∧ ∀ k, Shape.InBounds batch k → ∀ c < m,
      ∃ lu, Lu.factor? eps (j.squareAt n k) = some lu ∧
        (x.column n c).runAt n k = (lu.solve ((b.column n c).runAt n k)).map Neg.neg := by
  obtain ⟨n', m', batch', -, -, hbb', hbatch', hxb, hxm, hxs, hall⟩ := sensitivityDense_eq_ok h
  obtain ⟨rfl, hm⟩ := List.cons.inj (hbb.symm.trans hbb')
  obtain ⟨rfl, -⟩ := List.cons.inj hm
  cases hbatch.symm.trans hbatch'
  exact ⟨hxb, hxm, hxs, fun k hk => hall hk⟩

theorem solveDense_isOk_iff (hj : j.PackedSquare n) (hb : b.Packed n)
    (hbatch : Shape.broadcast j.batch b.batch = .ok batch) :
    (∃ x, solveDense eps j b = .ok x) ↔
      ∀ k, Shape.InBounds batch k → ∃ lu, Lu.factor? eps (j.squareAt n k) = some lu := by
  constructor
  · rintro ⟨x, hx⟩ k hk
    obtain ⟨-, -, hall⟩ := solveDense_entries hj hbatch hx
    obtain ⟨lu, hlu, -⟩ := hall k hk
    exact ⟨lu, hlu⟩
  · exact fun hall => solveDense_isOk hj hb hbatch fun {k} hk => hall k hk

/-- A column of the sensitivities is minus what the solver returns for that column. -/
theorem solveDense_column (hj : j.PackedSquare n) (hbb : b.base = [n, m])
    (hbatch : Shape.broadcast j.batch b.batch = .ok batch) (h : sensitivityDense eps j b = .ok x)
    {c : Nat} (hc : c < m) :
    ∃ y, solveDense eps j (b.column n c) = .ok y ∧ x.column n c = y.map Neg.neg := by
  obtain ⟨hxb, -, -, hcolumns⟩ := sensitivityDense_columns hbb hbatch h
  have hbatch' : Shape.broadcast j.batch (b.column n c).batch = .ok batch := hbatch
  obtain ⟨y, hy⟩ : ∃ y, solveDense eps j (b.column n c) = .ok y := by
    refine (solveDense_isOk_iff hj (b.packed_column n c) hbatch').2 fun k hk => ?_
    obtain ⟨lu, hlu, -⟩ := hcolumns k hk c hc
    exact ⟨lu, hlu⟩
  obtain ⟨hyb, hyp, hentries⟩ := solveDense_entries hj hbatch' hy
  refine ⟨y, hy, (x.packed_column n c).ext_runAt hyp (hxb.trans hyb.symm) fun k hk => ?_⟩
  replace hk : Shape.InBounds batch k := hxb ▸ hk
  obtain ⟨lu, hlu, hcolumn⟩ := hcolumns k hk c hc
  obtain ⟨lu', hlu', hentry⟩ := hentries k hk
  cases hlu.symm.trans hlu'
  rw [hcolumn, hyp.map_run Neg.neg (hyb ▸ Shape.expandsTo_refl batch) hk, hentry]

end Shapes

/-- The dense solver returns a solution exactly when the matrix of every batch entry has
factors, and the run of an entry is then what these give for the run of the right side there.
Otherwise it names the first entry in row-major order whose matrix has none. The sensitivities
of a right side with columns fail in the same way, and their columns are minus the solutions for
its columns. -/
theorem dense_entryByEntry [OfScientific α] {j : Tensor α} {n : Nat} (hj : j.PackedSquare n) :
    (∀ {b : Tensor α} {batch : Shape}, b.Packed n →
      Shape.broadcast j.batch b.batch = .ok batch →
        ((∃ x, dense.solve j b = .ok x) ↔ ∀ k, Shape.InBounds batch k →
          ∃ lu, Lu.factor? Lu.threshold (j.squareAt n k) = some lu) ∧
        (∀ x, dense.solve j b = .ok x → x.batch = batch ∧ x.Packed n ∧
          ∀ k, Shape.InBounds batch k →
            ∃ lu, Lu.factor? Lu.threshold (j.squareAt n k) = some lu ∧
              x.runAt n k = lu.solve (b.runAt n k)) ∧
        ∀ e, dense.solve j b = .error e ↔ FirstRefused Lu.threshold j n batch e) ∧
    ∀ {b : Tensor α} {batch : Shape} {m : Nat}, 0 < m → b.middle = [] → b.base = [n, m] →
      Shape.broadcast j.batch b.batch = .ok batch →
        (∀ e, dense.sensitivity j b = .error e ↔ FirstRefused Lu.threshold j n batch e) ∧
        ∀ x, dense.sensitivity j b = .ok x →
          x.batch = batch ∧ x.middle = [] ∧ x.base = [n, m] ∧
            ∀ c < m, ∃ y, dense.solve j (b.column n c) = .ok y ∧
              x.column n c = y.map Neg.neg := by
  constructor
  · intro b batch hb hbatch
    exact ⟨solveDense_isOk_iff hj hb hbatch, fun x hx => solveDense_entries hj hbatch hx,
      fun e => solveDense_eq_error_iff hj hb hbatch⟩
  · intro b batch m hm hbm hbb hbatch
    refine ⟨fun e => sensitivityDense_eq_error_iff hj hm hbm hbb hbatch, fun x hx => ?_⟩
    obtain ⟨hxb, hxm, hxs, -⟩ := sensitivityDense_columns hbb hbatch hx
    exact ⟨hxb, hxm, hxs, fun c hc => solveDense_column hj hbb hbatch hx hc⟩

/-- Three matrices of one row, the last two of them zero. -/
def lastTwoZero : Tensor ℚ := ⟨[3], [], [1, 1], #[2, 0, 0], rfl⟩

theorem lastTwoZero_firstRefused :
    FirstRefused Lu.threshold lastTwoZero 1 [3] (.singularMatrix 1) := by
  refine ⟨[1], ⟨by decide, trivial⟩, by decide +kernel, rfl, fun k hk hlt => ?_⟩
  obtain ⟨i, rfl⟩ := List.length_eq_one_iff.1 hk.length_eq
  obtain rfl : i = 0 := by
    simp at hlt
    omega
  exact Option.isSome_iff_exists.1 (by decide +kernel)

theorem lastTwoZero_fails : lastTwoZero.PackedSquare 1 ∧
    dense.solve lastTwoZero ⟨[], [], [1], #[4], rfl⟩ = .error (.singularMatrix 1) ∧
    dense.sensitivity lastTwoZero ⟨[], [], [1, 2], #[4, 6], rfl⟩ = .error (.singularMatrix 1) := by
  have hj : lastTwoZero.PackedSquare 1 := ⟨rfl, rfl⟩
  obtain ⟨hsolve, hsensitivity⟩ := dense_entryByEntry hj
  refine ⟨hj, ?_, ?_⟩
  · obtain ⟨-, -, hfails⟩ := hsolve (b := ⟨[], [], [1], #[4], rfl⟩) ⟨rfl, rfl⟩ rfl
    exact (hfails _).2 lastTwoZero_firstRefused
  · obtain ⟨hfails, -⟩ := hsensitivity (b := ⟨[], [], [1, 2], #[4, 6], rfl⟩) (by decide) rfl rfl rfl
    exact (hfails _).2 lastTwoZero_firstRefused

end LinearSolver

end TieredCalculus
