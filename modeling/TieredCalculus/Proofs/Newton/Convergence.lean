import TieredCalculus.Newton.Solver
import TieredCalculus.Proofs.Linear.Batched
import TieredCalculus.Proofs.Newton.Memoryless
import TieredCalculus.Proofs.Rational

/-! # What success says of the batch entries

A solve succeeds when the norms at the iterate pass against those at the guess, place by
place. While the batch keeps its entries this tests every entry against the one it came
from. Where the batch has grown, the entries past the initial ones are not tested at all.
-/

namespace TieredCalculus

variable {σ τ α : Type}

/-! ## Norms of batch entries -/

section Norms

variable [Zero α] [Add α] [Mul α] [Scalar α]

/-- The norm of the run at a place of the batch, zero for an empty one. -/
def Tensor.placeNorm (t : Tensor α) (n p : Nat) : α :=
  if n = 0 then 0 else Linear.norm (t.vectorRun n p).toList

/-- The norm of the batch entry that is read at index `k` of a larger batch. -/
def Tensor.entryNorm (t : Tensor α) (n : Nat) (k : Index) : α :=
  t.placeNorm n (t.batch.offset (t.batch.project k))

theorem Tensor.Packed.rowNorms_eq {t : Tensor α} {n : Nat} (h : t.Packed n) :
    t.rowNorms = (List.range t.batch.numel).map (t.placeNorm n) := by
  unfold Tensor.rowNorms
  rw [h.baseNumel_eq]
  by_cases h0 : n = 0
  · rw [if_pos h0]
    have hplace : t.placeNorm n = fun _ => (0 : α) := by
      funext p
      exact if_pos h0
    have hleading : t.leading = t.batch := by
      unfold Tensor.leading
      rw [h.1, List.append_nil]
    rw [hplace, hleading]
    simp
  · rw [if_neg h0, h.chunks_eq, if_neg h0, List.map_map]
    apply List.map_congr_left
    intro p _
    exact (if_neg h0).symm

namespace Tolerances

variable [LT α] [Div α]

/-- A norm passes against an initial one. -/
def Passes (t : Tolerances α) (norm initial : α) : Prop :=
  norm < t.absolute ∨ norm / initial < t.relative

/-- Every batch entry of a residual passes against the initial entry that broadcasts to it. -/
def EveryEntry (t : Tolerances α) (n : Nat) (r initial : Tensor α) : Prop :=
  ∀ {k : Index}, Shape.InBounds r.batch k → t.Passes (r.entryNorm n k) (initial.entryNorm n k)

/-- The test compares places, up to the shorter of both batches. -/
theorem met_rowNorms_iff [DecidableLT α] {t : Tolerances α} {r initial : Tensor α} {n : Nat}
    (hr : r.Packed n) (hi : initial.Packed n) :
    t.met r.rowNorms initial.rowNorms = true ↔
      ∀ p, p < r.batch.numel → p < initial.batch.numel →
        t.Passes (r.placeNorm n p) (initial.placeNorm n p) := by
  have hzip : r.rowNorms.zip initial.rowNorms =
      (List.range (min r.batch.numel initial.batch.numel)).map fun p =>
        (r.placeNorm n p, initial.placeNorm n p) := by
    rw [hr.rowNorms_eq, hi.rowNorms_eq]
    apply List.ext_getElem
    · simp
    · intro p hp hp'
      simp
  unfold met
  rw [hzip, List.all_map, List.all_eq_true]
  constructor
  · intro h p hp hp'
    have hmin := h p (List.mem_range.2 (by omega))
    simpa [Passes] using hmin
  · intro h p hp
    have hmin := List.mem_range.1 hp
    have hpass := h p (by omega) (by omega)
    simpa [Passes] using hpass

theorem everyEntry_of_met [DecidableLT α] {t : Tolerances α} {r initial : Tensor α} {n : Nat}
    (hr : r.Packed n) (hi : initial.Packed n)
    (hexp : initial.batch.expandsTo r.batch = true)
    (hn : r.batch.numel = 0 ∨ initial.batch.numel = r.batch.numel)
    (hm : t.met r.rowNorms initial.rowNorms = true) : t.EveryEntry n r initial := by
  intro k hk
  have hlt := Shape.offset_lt hk
  have heq : initial.batch.numel = r.batch.numel := by omega
  unfold Tensor.entryNorm
  rw [Shape.project_of_inBounds hk, Shape.offset_project_of_numel_eq hexp heq hk]
  exact (met_rowNorms_iff hr hi).1 hm _ hlt (by omega)

end Tolerances

end Norms

/-! ## Success -/

section Success

variable [Zero α] [One α] [Add α] [Neg α] [Mul α] [Div α] [LT α] [DecidableLT α] [Scalar α]

omit [Div α] [LT α] [DecidableLT α] [Scalar α] in
theorem Iteration.finish_iterations {it : Iteration σ τ α} {sys : NonlinearSystem σ α}
    {u r : Tensor α} {i : Nat} {s s' : σ} {sol : Solution α}
    (h : it.finish sys u r i s = .ok sol s') : sol.iterations = i := by
  rcases Iteration.finish_eq_ok.1 h with ⟨-, rfl, -⟩ | ⟨-, _, _, _, _, -, -, -, -, rfl⟩
  · rfl
  · rfl

theorem Iteration.met_of_converged {it : Iteration σ τ α} {sys : NonlinearSystem σ α}
    {guess : Tensor α} {s s' : σ} {sol : Solution α}
    (hmax : it.validate = .ok () → 0 < it.tolerances.maxIterations)
    (h : (it.solve sys guess).outcome s = (.ok sol, s')) (hc : sol.outcome = .converged) :
    ∃ first last, it.headAt sys guess s 0 = .ok first ∧
      it.headAt sys guess s sol.iterations = .ok last ∧
      it.tolerances.met last.residual.rowNorms first.residual.rowNorms = true := by
  have hrun := Update.outcome_eq_ok.1 h
  obtain ⟨_, s₁, hv, -⟩ := Update.bind_eq_ok.1 hrun
  have hvalid := (Update.lift_eq_ok.1 hv).1
  obtain ⟨k, initial, hinit, -, hend⟩ := solve_endsAt sys guess s hvalid (hmax hvalid)
  rw [h] at hend
  generalize hx : (Except.ok sol, s') = x at hend
  cases hend with
  | @converged i last hi hl hm =>
      have hfin := finish_iterations (Update.outcome_eq_ok.1 hx.symm)
      obtain ⟨first, hfirst⟩ := exists_headAt_of_le (Nat.zero_le k) hl
      rw [hinit first hfirst] at hm
      rw [hfin]
      exact ⟨first, last, hfirst, hl, hm⟩
  | limit hi hl =>
      cases hx
      cases hc
  | failed hi hl => cases hx
  | unprepared hl hm hd => cases hx

private theorem residuals_met [LE α] [DecidableLE α] {it : Iteration σ τ α}
    {sys : NonlinearSystem σ α} {guess : Tensor α} {st st' : σ} {sol : Solution α}
    (hv : it.validate = .ok () → it.tolerances.validate = .ok ())
    (h : (it.solve sys guess).outcome st = (.ok sol, st')) (hc : sol.outcome = .converged) :
    ∃ r₀ r, (it.headAt sys guess st 0).map (·.residual) = .ok r₀ ∧
      (it.headAt sys guess st sol.iterations).map (·.residual) = .ok r ∧
      it.tolerances.met r.rowNorms r₀.rowNorms = true := by
  obtain ⟨first, last, hfirst, hlast, hm⟩ := Iteration.met_of_converged
    (fun hit => (Tolerances.validate_eq_ok.1 (hv hit)).2.2) h hc
  refine ⟨first.residual, last.residual, ?_, ?_, hm⟩
  · rw [hfirst]
    rfl
  · rw [hlast]
    rfl

end Success

namespace Solver

variable [Zero α] [One α] [Neg α] [Add α] [Sub α] [Mul α] [Div α] [BEq α] [LT α] [DecidableLT α]
  [LE α] [DecidableLE α] [Scalar α] [OfScientific α]

def tolerances : Solver α → Tolerances α
  | newton s => s.tolerances
  | lineSearch s => s.tolerances
  | trustRegion s => s.tolerances

/-- The residual at iterate `i` of a solve, or the first error on the way to it. -/
def residualAt (s : Solver α) (sys : NonlinearSystem σ α) (guess : Tensor α) (st : σ) (i : Nat) :
    Except (SolveError α) (Tensor α) :=
  match s with
  | newton s => (s.iteration.headAt sys guess st i).map (·.residual)
  | lineSearch s => (s.iteration.headAt sys guess st i).map (·.residual)
  | trustRegion s => (s.iteration.headAt sys guess st i).map (·.residual)

theorem met_of_converged {s : Solver α} {sys : NonlinearSystem σ α} {guess : Tensor α}
    {st st' : σ} {sol : Solution α} (h : (s.solve sys guess).outcome st = (.ok sol, st'))
    (hc : sol.outcome = .converged) :
    ∃ r₀ r, s.residualAt sys guess st 0 = .ok r₀ ∧
      s.residualAt sys guess st sol.iterations = .ok r ∧
      s.tolerances.met r.rowNorms r₀.rowNorms = true := by
  cases s with
  | newton s =>
      apply residuals_met _ h hc
      exact fun hv => hv
  | lineSearch s =>
      apply residuals_met _ h hc
      exact fun hv => (LineSearch.validate_eq_ok.1 hv).1
  | trustRegion s =>
      apply residuals_met _ h hc
      intro hv
      obtain ⟨_, ht, -⟩ := Update.except_bind_eq_ok.1 hv
      exact ht

end Solver

/-! ## Batches that grow -/

section Growth

variable [Field α] [LinearOrder α] [IsStrictOrderedRing α] [Scalar α]

/-- A residual of ones where the batch of the solution is the initial one. Elsewhere it has
the final batch and vanishes at as many places as the initial batch has. -/
def outgrownResidual (initial final : Shape) (u : Tensor α) : Tensor α :=
  if u.batch = initial then .ones initial [] [1]
  else .tabulate final [] [1] fun k =>
    if (final ++ [1]).offset k < initial.numel then 0 else 1

def outgrown (initial final : Shape) : NonlinearSystem (Option (Tensor α)) α :=
  .ofFunctions (fun u => .ok (outgrownResidual initial final u)) fun _ =>
    .ok (.ones final [] [1, 1])

def oneUpdate : Newton α := ⟨⟨1, 0, 2⟩, .dense⟩

variable {initial final : Shape}

omit [LinearOrder α] [IsStrictOrderedRing α] in
private theorem placeNorm_of_get {t : Tensor α} {p : Nat} {x : α}
    (h : (t.vectorRun 1 p).get 0 = x) : t.placeNorm 1 p = Scalar.sqrt (x * x) := by
  have hlist : (t.vectorRun 1 p).toList = [x] := by
    rw [← h]
    rfl
  unfold Tensor.placeNorm
  rw [if_neg Nat.one_ne_zero, hlist]
  simp [Linear.norm]

omit [LinearOrder α] [IsStrictOrderedRing α] in
private theorem placeNorm_ones (h1 : Scalar.sqrt (1 : α) = 1) {batch : Shape} {p : Nat}
    (hp : p < batch.numel) : (Tensor.ones batch [] [1] : Tensor α).placeNorm 1 p = 1 := by
  have hget : ((Tensor.ones batch [] [1] : Tensor α).vectorRun 1 p).get 0 = 1 := by
    unfold Tensor.vectorRun Tensor.ones Tensor.full
    rw [get_ofFn]
    simp [hp]
  rw [placeNorm_of_get hget, mul_one, h1]

omit [LinearOrder α] [IsStrictOrderedRing α] in
private theorem placeNorm_outgrown (h0 : Scalar.sqrt (0 : α) = 0) (h1 : Scalar.sqrt (1 : α) = 1)
    {u : Tensor α} (hu : u.batch ≠ initial) {b : Index} (hb : Shape.InBounds final b) :
    (outgrownResidual initial final u).placeNorm 1 (final.offset b) =
      if final.offset b < initial.numel then 0 else 1 := by
  unfold outgrownResidual
  rw [if_neg hu]
  generalize hg : (fun k => if (final ++ [1]).offset k < initial.numel then (0 : α) else 1) = g
  have hin : Shape.InBounds [1] [0] := by simp [Shape.InBounds]
  have hcell := Tensor.cell_tabulate g hb (show Shape.InBounds [] [] from trivial) hin
  have hget : ((Tensor.tabulate final [] [1] g).vectorRun 1 (final.offset b)).get 0 =
      g (b ++ [0]) := by
    have hp : (Tensor.tabulate final [] [1] g).Packed 1 := ⟨rfl, rfl⟩
    have hrun := hp.runAt_get b 0
    rw [Tensor.runAt_of_inBounds _ 1 hb] at hrun
    rw [List.append_nil] at hcell
    rw [← hcell]
    refine hrun.trans ?_
    show Tensor.cell _ (final.project b) [] 0 = _
    rw [Shape.project_of_inBounds hb]
    rfl
  have hoff : (final ++ [1]).offset (b ++ [0]) = final.offset b := by
    rw [Shape.offset_append hb.length_eq]
    simp
  rw [placeNorm_of_get hget, ← hg]
  dsimp only
  rw [hoff]
  by_cases h : final.offset b < initial.numel
  · rw [if_pos h, mul_zero, h0]
  · rw [if_neg h, mul_one, h1]

omit [Scalar α] in
private theorem not_passes_one : ¬(oneUpdate : Newton α).tolerances.Passes 1 1 := by
  rintro (h | h)
  · exact lt_irrefl _ h
  · rw [div_one] at h
    exact absurd h (not_lt.2 zero_le_one)

omit [Scalar α] [IsStrictOrderedRing α] in
private theorem factor_one {eps : α} {a : Square α 1} (h : eps ≤ Scalar.abs (a 0 0)) :
    ∃ lu, Lu.factor? eps a = some lu := by
  have hpivot : Lu.pivotRow a 0 = 0 := by
    unfold Lu.pivotRow
    simp [List.finRange_succ]
  have hstep : ∃ lu, Lu.eliminate eps ⟨a, .ofFn id⟩ 0 = some lu := by
    unfold Lu.eliminate
    dsimp only
    rw [hpivot, if_pos h]
    exact ⟨_, rfl⟩
  obtain ⟨lu, hlu⟩ := hstep
  refine ⟨lu, ?_⟩
  unfold Lu.factor?
  simp [List.finRange_succ, hlu]

omit [Scalar α] in
private theorem outgrown_step (hexp : initial.expandsTo final = true) :
    ∃ x, LinearSolver.dense.newtonStep (Tensor.ones initial [] [1] : Tensor α)
      (.ones final [] [1, 1]) = .ok x ∧ x.batch = final ∧ x.Packed 1 := by
  have hj : (Tensor.ones final [] [1, 1] : Tensor α).PackedSquare 1 := ⟨rfl, rfl⟩
  have hr : (Tensor.ones initial [] [1] : Tensor α).neg.Packed 1 := ⟨rfl, rfl⟩
  have hbatch := Shape.broadcast_comm (Shape.broadcast_of_expandsTo hexp)
  have hone : (Lu.threshold : α) ≤ Scalar.abs 1 := by
    unfold Lu.threshold Scalar.abs
    rw [if_neg (not_lt.2 zero_le_one)]
    norm_num
  have hsolve : ∃ x, LinearSolver.dense.solve (Tensor.ones final [] [1, 1] : Tensor α)
      (Tensor.ones initial [] [1]).neg = .ok x := by
    apply LinearSolver.solveDense_isOk hj hr hbatch
    intro k hk
    have hlt := Shape.offset_lt hk
    have hentry : (Tensor.ones final [] [1, 1] : Tensor α).squareAt 1 k 0 0 = 1 := by
      rw [Tensor.squareAt_of_inBounds _ 1 hk]
      unfold Tensor.squareRun Tensor.ones Tensor.full
      rw [Square.ofFn_apply]
      simp [hlt]
    apply factor_one
    rw [hentry]
    exact hone
  obtain ⟨x, hx⟩ := hsolve
  obtain ⟨n, b, hs⟩ := LinearSolver.dense_exact hx
  have hn : [1] = [n] := hr.2.symm.trans hs.right.2
  cases hn
  have hb := hs.broadcast
  have hb' : Except.ok b = Except.ok final := hb.symm.trans hbatch
  cases hb'
  exact ⟨x, hx, hs.batch_eq, hs.packed⟩

omit [LinearOrder α] [IsStrictOrderedRing α] [Scalar α] in
private theorem outgrown_start (initial final : Shape) :
    ∃ u, Iteration.start (outgrown initial final) (Tensor.zeros initial [] [1] : Tensor α) none =
      .ok (u, .ones initial [] [1]) (some (.zeros initial [] [1])) ∧
        u.batch = initial ∧ u.Packed 1 := by
  have hself := Shape.expandsTo_refl initial
  have hguess : (Tensor.zeros initial [] [1] : Tensor α).Packed 1 := ⟨rfl, rfl⟩
  obtain ⟨u, hu⟩ := Tensor.expandBatch_isOk (t := (Tensor.zeros initial [] [1] : Tensor α)) hself
  obtain ⟨-, hub, hup, -⟩ := hguess.expandBatch hu
  have hres : outgrownResidual initial final (Tensor.zeros initial [] [1] : Tensor α) =
      .ones initial [] [1] := if_pos rfl
  refine ⟨u, Iteration.start_eq_ok.2 ⟨some (.zeros initial [] [1]), initial, rfl, ?_,
    Shape.broadcast_of_expandsTo hself, hu⟩, hub, hup⟩
  rw [← hres]
  rfl

omit [Scalar α] in
private theorem outgrown_pass (hexp : initial.expandsTo final = true) {u : Tensor α}
    (hu : u.Packed 1) (hub : u.batch = initial) (w : Option (Tensor α)) (hw : w.isSome) :
    ∃ u', (oneUpdate.iteration : Iteration _ Unit α).pass (outgrown initial final) u
        (.ones initial [] [1]) (w, ()) =
      .ok (u', outgrownResidual initial final u') (some u', ()) ∧ u'.batch = final := by
  obtain ⟨x, hx, hxb, hxp⟩ := outgrown_step (α := α) hexp
  have hbatch : Shape.broadcast u.batch x.batch = .ok final := by
    rw [hub, hxb]
    exact Shape.broadcast_of_expandsTo hexp
  obtain ⟨u', hu'⟩ := (hu.zipWith (· + ·) hxp).2 hbatch
  have hu'b : u'.batch = final := by
    have h := ((hu.zipWith (· + ·) hxp).1 hu').1
    rw [hbatch] at h
    cases h
    rfl
  obtain ⟨v, rfl⟩ := Option.isSome_iff_exists.1 hw
  refine ⟨u', Iteration.pass_eq_ok.2 ⟨.ones final [] [1, 1], some v, some v, some u', rfl, ?_, rfl,
    rfl⟩, hu'b⟩
  refine Update.bind_eq_ok.2 ⟨x, (some v, ()), Update.lift_eq_ok.2 ⟨hx, rfl⟩, ?_⟩
  exact SolveError.lift_eq_ok.2 ⟨hu', rfl⟩

omit [Scalar α] in
private theorem outgrown_heads (hexp : initial.expandsTo final = true) :
    ∃ u u', (oneUpdate.iteration : Iteration _ Unit α).headAt (outgrown initial final)
        (Tensor.zeros initial [] [1] : Tensor α) none 0 =
          .ok ⟨some (.zeros initial [] [1]), .ok (), u, .ones initial [] [1]⟩ ∧
      (oneUpdate.iteration : Iteration _ Unit α).headAt (outgrown initial final)
        (Tensor.zeros initial [] [1] : Tensor α) none 1 =
          .ok ⟨some u', .ok (), u', outgrownResidual initial final u'⟩ ∧
      u'.batch = final := by
  obtain ⟨u, hs, hub, hup⟩ := outgrown_start (α := α) initial final
  obtain ⟨u', hp, hb⟩ := outgrown_pass hexp hup hub (some (.zeros initial [] [1])) rfl
  have hhead : (oneUpdate.iteration : Iteration _ Unit α).headAt (outgrown initial final)
      (Tensor.zeros initial [] [1] : Tensor α) none 0 =
        .ok ⟨some (.zeros initial [] [1]), .ok (), u, .ones initial [] [1]⟩ := by
    unfold Iteration.headAt
    rw [hs]
    rfl
  exact ⟨u, u', hhead, (Iteration.headAt_succ_of_ok hhead).trans
    (Iteration.headNext_of_pass_ok rfl hp), hb⟩

private theorem ones_not_met (h1 : Scalar.sqrt (1 : α) = 1) (hpos : 0 < initial.numel) :
    (oneUpdate : Newton α).tolerances.met (Tensor.ones initial [] [1] : Tensor α).rowNorms
      (Tensor.ones initial [] [1] : Tensor α).rowNorms = false := by
  have hr : (Tensor.ones initial [] [1] : Tensor α).Packed 1 := ⟨rfl, rfl⟩
  apply Bool.eq_false_iff.2
  intro hm
  have hpass := (Tolerances.met_rowNorms_iff hr hr).1 hm 0 hpos hpos
  rw [placeNorm_ones h1 hpos] at hpass
  exact not_passes_one hpass

omit [LinearOrder α] [IsStrictOrderedRing α] [Scalar α] in
private theorem outgrownResidual_final {u : Tensor α} (hu : u.batch = final)
    (hne : initial ≠ final) :
    (outgrownResidual initial final u).Packed 1 ∧
      (outgrownResidual initial final u).batch = final := by
  unfold outgrownResidual
  rw [if_neg fun h => hne (h.symm.trans hu)]
  exact ⟨⟨rfl, rfl⟩, rfl⟩

/-- The test at the final batch sees only places at which the residual vanishes. -/
private theorem outgrown_met (h0 : Scalar.sqrt (0 : α) = 0) (h1 : Scalar.sqrt (1 : α) = 1)
    {u : Tensor α} (hu : u.batch = final) (hne : initial ≠ final) :
    (oneUpdate : Newton α).tolerances.met (outgrownResidual initial final u).rowNorms
      (Tensor.ones initial [] [1] : Tensor α).rowNorms = true := by
  obtain ⟨hr, hrb⟩ := outgrownResidual_final hu hne
  apply (Tolerances.met_rowNorms_iff hr ⟨rfl, rfl⟩).2
  intro p hp hp'
  rw [hrb] at hp
  obtain ⟨b, hb, rfl⟩ := Shape.exists_offset_eq hp
  have hlow : final.offset b < initial.numel := hp'
  rw [placeNorm_outgrown h0 h1 (fun h => hne (h.symm.trans hu)) hb, if_pos hlow]
  exact .inl zero_lt_one

private theorem outgrown_not_everyEntry (h0 : Scalar.sqrt (0 : α) = 0)
    (h1 : Scalar.sqrt (1 : α) = 1) (hexp : initial.expandsTo final = true) {u : Tensor α}
    (hu : u.batch = final) (hlt : initial.numel < final.numel) :
    ¬(oneUpdate : Newton α).tolerances.EveryEntry 1 (outgrownResidual initial final u)
      (.ones initial [] [1]) := by
  have hne : initial ≠ final := fun h => Nat.ne_of_lt hlt (congrArg Shape.numel h)
  obtain ⟨-, hrb⟩ := outgrownResidual_final (α := α) hu hne
  intro hevery
  obtain ⟨k, hk, hoff⟩ := Shape.exists_offset_eq hlt
  have hpass := hevery (hrb ▸ hk)
  unfold Tensor.entryNorm at hpass
  rw [hrb, Shape.project_of_inBounds hk,
    placeNorm_outgrown h0 h1 (fun h => hne (h.symm.trans hu)) hk, hoff,
    if_neg (lt_irrefl _)] at hpass
  have hin := Shape.offset_lt (Shape.project_inBounds hexp hk)
  have hone : (Tensor.ones initial [] [1] : Tensor α).placeNorm 1
      (initial.offset (initial.project k)) = 1 := placeNorm_ones h1 hin
  exact not_passes_one (hone ▸ hpass)

private theorem outgrown_converges (h0 : Scalar.sqrt (0 : α) = 0) (h1 : Scalar.sqrt (1 : α) = 1)
    (hexp : initial.expandsTo final = true) (hpos : 0 < final.numel)
    (hne : initial.numel ≠ final.numel) :
    ∃ sol st' r₀ r,
      ((Solver.newton oneUpdate).solve (outgrown initial final)
        (Tensor.zeros initial [] [1] : Tensor α)).outcome none = (.ok sol, st') ∧
      sol.outcome = .converged ∧
      (Solver.newton oneUpdate).residualAt (outgrown initial final) (Tensor.zeros initial [] [1])
        none 0 = .ok r₀ ∧
      (Solver.newton oneUpdate).residualAt (outgrown initial final) (Tensor.zeros initial [] [1])
        none sol.iterations = .ok r ∧
      r₀.Packed 1 ∧ r.Packed 1 ∧ r₀.batch = initial ∧ r.batch = final ∧
      ¬(oneUpdate : Newton α).tolerances.EveryEntry 1 r r₀ := by
  have hlt : initial.numel < final.numel :=
    lt_of_le_of_ne (Shape.numel_le_of_expandsTo hexp hpos) hne
  have hbatch : initial ≠ final := fun h => hne (congrArg Shape.numel h)
  obtain ⟨u, u', hhead, hhead', hu'⟩ := outgrown_heads (α := α) hexp
  obtain ⟨hr, hrb⟩ := outgrownResidual_final (α := α) hu' hbatch
  have hv : (oneUpdate.iteration : Iteration (Option (Tensor α)) Unit α).validate = .ok () :=
    Tolerances.validate_eq_ok.2 ⟨zero_le_one, le_refl _, Nat.two_pos⟩
  have hfirst : (oneUpdate.iteration : Iteration _ Unit α).Passed (outgrown initial final)
      (.zeros initial [] [1]) none (Tensor.ones initial [] [1] : Tensor α).rowNorms 0 :=
    ⟨_, (), hhead, rfl, ones_not_met h1 (Shape.numel_pos_of_expandsTo hexp hpos)⟩
  have hsolve := Iteration.solve_of_first_met hv (show 1 < 2 by decide) hhead
    (fun m hm => Nat.lt_one_iff.1 hm ▸ hfirst) hhead' (outgrown_met h0 h1 hu' hbatch)
  refine ⟨⟨.converged, u', 1⟩, some u', .ones initial [] [1], outgrownResidual initial final u',
    hsolve, rfl, ?_, ?_, ⟨rfl, rfl⟩, hr, rfl, hrb, outgrown_not_everyEntry h0 h1 hexp hu' hlt⟩
  · unfold Solver.residualAt
    dsimp only
    rw [hhead]
    rfl
  · unfold Solver.residualAt
    dsimp only
    rw [hhead']
    rfl

/-- Success covers every entry of the residual's batch exactly as long as the batch has no
more entries than at the start. There every solver of the family that succeeds has brought
each entry below a tolerance, measured against the initial entry that broadcasts to it. For
any larger batch that the initial one expands to, Newton's method with the dense solver
succeeds on some system while an entry has not converged. -/
theorem converged_covers_entries [BEq α] (h0 : Scalar.sqrt (0 : α) = 0)
    (h1 : Scalar.sqrt (1 : α) = 1) (hexp : initial.expandsTo final = true) :
    (final.numel = 0 ∨ initial.numel = final.numel →
      ∀ {σ : Type} {s : Solver α} {sys : NonlinearSystem σ α} {guess : Tensor α} {st st' : σ}
        {sol : Solution α},
        (s.solve sys guess).outcome st = (.ok sol, st') → sol.outcome = .converged →
          ∃ r₀ r, s.residualAt sys guess st 0 = .ok r₀ ∧
            s.residualAt sys guess st sol.iterations = .ok r ∧
            ∀ {n : Nat}, r₀.Packed n → r.Packed n → r₀.batch = initial → r.batch = final →
              s.tolerances.EveryEntry n r r₀) ∧
    (¬(final.numel = 0 ∨ initial.numel = final.numel) →
      ∃ (s : Newton α) (sys : NonlinearSystem (Option (Tensor α)) α) (guess : Tensor α)
        (sol : Solution α) (st' : Option (Tensor α)) (r₀ r : Tensor α), s.linear = .dense ∧
        ((Solver.newton s).solve sys guess).outcome none = (.ok sol, st') ∧
        sol.outcome = .converged ∧ (Solver.newton s).residualAt sys guess none 0 = .ok r₀ ∧
        (Solver.newton s).residualAt sys guess none sol.iterations = .ok r ∧
        r₀.Packed 1 ∧ r.Packed 1 ∧ r₀.batch = initial ∧ r.batch = final ∧
        ¬s.tolerances.EveryEntry 1 r r₀) := by
  constructor
  · intro hnumel σ s sys guess st st' sol hsolve hc
    obtain ⟨r₀, r, h₀, hr, hm⟩ := Solver.met_of_converged hsolve hc
    refine ⟨r₀, r, h₀, hr, fun {n} hp₀ hp hb₀ hb => ?_⟩
    subst hb₀ hb
    exact Tolerances.everyEntry_of_met hp hp₀ hexp hnumel hm
  · intro hgrown
    have hne : initial.numel ≠ final.numel := fun h => hgrown (.inr h)
    have hpos : 0 < final.numel := Nat.pos_of_ne_zero fun h => hgrown (.inl h)
    obtain ⟨sol, st', r₀, r, hsolve⟩ := outgrown_converges h0 h1 hexp hpos hne
    exact ⟨oneUpdate, outgrown initial final, .zeros initial [] [1], sol, st', r₀, r, rfl, hsolve⟩

end Growth

theorem grown_pair_converges :
    Scalar.sqrt (0 : ℚ) = 0 ∧ Scalar.sqrt (1 : ℚ) = 1 ∧ Shape.expandsTo [] [2] = true ∧
      ∃ (s : Newton ℚ) (sys : NonlinearSystem (Option (Tensor ℚ)) ℚ) (guess : Tensor ℚ)
        (sol : Solution ℚ) (st' : Option (Tensor ℚ)) (r₀ r : Tensor ℚ),
        ((Solver.newton s).solve sys guess).outcome none = (.ok sol, st') ∧
        sol.outcome = .converged ∧ r₀.batch = [] ∧ r.batch = [2] ∧
        ¬s.tolerances.EveryEntry 1 r r₀ := by
  have h0 : Scalar.sqrt (0 : ℚ) = 0 := by decide +kernel
  have h1 : Scalar.sqrt (1 : ℚ) = 1 := by decide +kernel
  have hexp : Shape.expandsTo [] [2] = true := by decide
  obtain ⟨s, sys, guess, sol, st', r₀, r, -, hsolve, hc, -, -, -, -, hb₀, hb, hnot⟩ :=
    (converged_covers_entries h0 h1 hexp).2 (by decide)
  exact ⟨h0, h1, hexp, s, sys, guess, sol, st', r₀, r, hsolve, hc, hb₀, hb, hnot⟩

/-- Two entries of `u - 1 = 0`, the second with a Jacobian four times too small. -/
def pairFromOne : NonlinearSystem (Option (Tensor ℚ)) ℚ :=
  .entrywise (· - 1) ⟨[2], [], [1, 1], #[1, 1 / 4], rfl⟩

/-- From a guess without batch Newton's method succeeds on them after one iteration, at
residuals `0` and `3`. -/
theorem pairFromOne_succeeds_early :
    let s : Solver ℚ := .newton ⟨.standard, .dense⟩
    let guess : Tensor ℚ := ⟨[], [], [1], #[0], rfl⟩
    ((s.solve pairFromOne guess).outcome none).1.toOption.map
        (fun x => (x.outcome, x.iterations, x.value.toList)) = some (.converged, 1, [1, 4]) ∧
      ∃ r₀ r, s.residualAt pairFromOne guess none 0 = .ok r₀ ∧
        s.residualAt pairFromOne guess none 1 = .ok r ∧ r.batch = [2] ∧
        ¬s.tolerances.EveryEntry 1 r r₀ := by
  intro s guess
  refine ⟨by decide +kernel, ?_⟩
  have hfirst : (s.residualAt pairFromOne guess none 0).toOption.map
      (fun r => r.entryNorm 1 [1]) = some 1 := by decide +kernel
  have hsecond : (s.residualAt pairFromOne guess none 1).toOption.map
      (fun r => (r.batch, r.entryNorm 1 [1])) = some ([2], 3) := by decide +kernel
  cases h₀ : s.residualAt pairFromOne guess none 0 with
  | error e =>
      rw [h₀] at hfirst
      cases hfirst
  | ok r₀ =>
      cases hr : s.residualAt pairFromOne guess none 1 with
      | error e =>
          rw [hr] at hsecond
          cases hsecond
      | ok r =>
          rw [h₀] at hfirst
          rw [hr] at hsecond
          have hnorm₀ : r₀.entryNorm 1 [1] = 1 := Option.some.inj hfirst
          obtain ⟨hb, hnorm⟩ := Prod.mk.inj (Option.some.inj hsecond)
          refine ⟨r₀, r, rfl, rfl, hb, fun hevery => ?_⟩
          have hin : Shape.InBounds r.batch [1] := by
            rw [hb]
            simp [Shape.InBounds]
          have hpass := hevery hin
          rw [hnorm, hnorm₀] at hpass
          have hnot : ¬((3 : ℚ) < s.tolerances.absolute ∨ (3 : ℚ) / 1 < s.tolerances.relative) := by
            decide +kernel
          exact hnot hpass

end TieredCalculus
