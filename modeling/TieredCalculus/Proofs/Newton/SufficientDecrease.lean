import TieredCalculus.Proofs.Newton.Direction
import TieredCalculus.Proofs.Newton.StepLengths

/-! # Sufficient decrease

A trial that meets the strong criterion makes the squared residual norm of its entry no larger
than it was, or than the square of the absolute tolerance. The backtracking criterion says so
where the slope along the direction is not positive. The slope along a Newton step `d` is
`-⟨d, J d⟩`. Where the Jacobian is negative along the step, the bound of the criterion grows
with the step length, and a trial with a larger residual can meet it.
-/

namespace TieredCalculus

variable {σ α : Type} [Field α] {n : Nat}

/-- The quadratic form `⟨p, J p⟩`. -/
def Square.form (j : Square α n) (p : Vector α n) : α := ∑ l, p.get l * ∑ i, j l i * p.get i

namespace LineSearch

/-- Along a Newton step the slope of half the squared norm is the negated form of the
Jacobian. -/
theorem EntryStart.slope_of_newton {u r d : Vector α n} {j : Square α n}
    (hrows : ∀ l, ∑ i, j l i * d.get i = -r.get l) : (EntryStart.of u r d).slope = -j.form d := by
  unfold EntryStart.of Square.form
  dsimp only
  rw [Linear.dot_toList, ← Finset.sum_neg_distrib]
  apply Finset.sum_congr rfl
  intro l _
  rw [hrows l]
  ring

variable [LinearOrder α] {s : LineSearch α} {f : Vector α n → Vector α n}

section Bound

variable {a squared slope trial : α}

theorem le_max_of_accepts (h : s.accepts a squared slope trial = true) :
    trial ≤ max (s.bound a squared slope) (s.tolerances.absolute * s.tolerances.absolute) := by
  unfold accepts at h
  simpa using h

variable [IsStrictOrderedRing α]

theorem stepLength_pos (hcut : 0 < s.cutback) (k : Nat) : 0 < s.stepLength k := by
  induction k with
  | zero => exact one_pos
  | succ k ih => exact div_pos ih hcut

/-- The bound of the criterion is below the squared norm at the start, unless the criterion is
the backtracking one and the slope is positive. -/
theorem bound_le (hc : 0 < s.decrease) (ha : 0 < a) (hsquared : 0 ≤ squared)
    (hslope : s.criterion = .strongWolfe ∨ slope ≤ 0) : s.bound a squared slope ≤ squared := by
  have hca : 0 < s.decrease * a := mul_pos hc ha
  unfold bound
  cases hcriterion : s.criterion with
  | backtracking =>
      have hdown : slope ≤ 0 := hslope.resolve_left (by simp [hcriterion])
      have hle : (1 + 1) * s.decrease * a * slope ≤ 0 :=
        mul_nonpos_of_nonneg_of_nonpos (by positivity) hdown
      linarith
  | strongWolfe =>
      have hle : 0 ≤ s.decrease * a * squared := mul_nonneg hca.le hsquared
      linarith

theorem squared_le_of_meets {u r d : Vector α n} {j : Square α n} (hc : 0 < s.decrease)
    (hcut : 0 < s.cutback) (hrows : ∀ l, ∑ i, j l i * d.get i = -r.get l)
    (hform : s.criterion = .strongWolfe ∨ 0 ≤ j.form d) {k : Nat}
    (h : s.meets f (.of u r d) k = true) :
    Linear.dot (f (EntryStart.trial (.of u r d) (s.stepLength k))).toList
        (f (EntryStart.trial (.of u r d) (s.stepLength k))).toList ≤
      max (Linear.dot r.toList r.toList) (s.tolerances.absolute * s.tolerances.absolute) := by
  have hsquared : 0 ≤ (EntryStart.of u r d).squared := by
    unfold EntryStart.of
    dsimp only
    rw [Linear.dot_toList]
    exact Finset.sum_nonneg fun l _ => mul_self_nonneg (r.get l)
  have hslope : s.criterion = .strongWolfe ∨ (EntryStart.of u r d).slope ≤ 0 := by
    rw [EntryStart.slope_of_newton hrows]
    simpa using hform
  have hbound := bound_le hc (stepLength_pos hcut k) hsquared hslope
  exact (le_max_of_accepts h).trans (max_le_max_right _ hbound)

end Bound

variable [IsStrictOrderedRing α] {sys : NonlinearSystem σ α} {linear : LinearSolver α}

/-- Along a Newton step a sufficient trial does not make the squared residual norm of its entry
grow beyond the absolute tolerance, under the backtracking criterion where the Jacobian is not
negative along the step. The trials of a search are the ones after so many cuts, and what it
returns is one of them. -/
theorem sufficient_trial_le (law : sys.EntryLaw n) (hlin : linear.Exact) (hmax : 0 < s.maxTrials)
    (hn : 0 < n) (hc : 0 < s.decrease) (hcut : 1 < s.cutback) {u r j d : Tensor α}
    {batch : Shape} (hu : u.Packed n) (hr : r.Packed n) (hd : linear.newtonStep r j = .ok d)
    (hbatch : Shape.broadcastAll [u.batch, r.batch, d.batch] = .ok batch) {b : Index}
    (hb : Shape.InBounds batch b)
    (hform : s.criterion = .strongWolfe ∨ 0 ≤ (j.squareAt n b).form (d.runAt n b)) :
    ∃ x : EntryStart α n, x = .of (u.runAt n b) (r.runAt n b) (d.runAt n b) ∧
      (∀ k, s.meets (law.law batch b) x k = true →
        Linear.dot (law.law batch b (x.trial (s.stepLength k))).toList
            (law.law batch b (x.trial (s.stepLength k))).toList ≤
          max (Linear.dot (r.runAt n b).toList (r.runAt n b).toList)
            (s.tolerances.absolute * s.tolerances.absolute)) ∧
      ∀ {trial : Tensor α} {lengths : List α} {st st' : σ},
        s.search sys u r d st = .ok (trial, lengths) st' →
          ∃ k, s.StopsAfter (law.law batch b) x k ∧
            lengths[batch.offset b]? = some (s.stepLength k) ∧
            trial.runAt n b = x.trial (s.stepLength k) := by
  obtain ⟨n', hr', -, hdp, hrows⟩ := TrustRegion.newtonStep_rows hlin hd
  cases hr.2.symm.trans hr'.2
  have hexpands : d.batch.expandsTo batch = true :=
    Shape.broadcastAll_expandsTo hbatch _ (by simp)
  refine ⟨_, rfl, fun k hmeets => ?_, fun hsearch => ?_⟩
  · exact squared_le_of_meets hc (one_pos.trans hcut) (hrows hexpands hb) hform hmeets
  · obtain ⟨batch', hbatch', -, -, -, -, hstops⟩ := search_stops law hmax hn hu hr hdp hsearch
    cases hbatch.symm.trans hbatch'
    exact hstops hb

/-- One entry of `u = 0` at one with a Jacobian four times too small. Two cuts make the trial
sufficient, at zero. -/
theorem sufficient_trial_overshoot :
    let s : LineSearch ℚ := .standard .dense
    let j : Tensor ℚ := ⟨[], [], [1, 1], #[1 / 4], rfl⟩
    let sys := NonlinearSystem.entrywise id j
    let u : Tensor ℚ := ⟨[], [], [1], #[1], rfl⟩
    let d : Tensor ℚ := ⟨[], [], [1], #[-4], rfl⟩
    let x : EntryStart ℚ 1 := .of (u.runAt 1 []) (u.runAt 1 []) (d.runAt 1 [])
    (LinearSolver.dense : LinearSolver ℚ).Exact ∧ 0 < s.maxTrials ∧ 0 < s.decrease ∧
      1 < s.cutback ∧ u.Packed 1 ∧ LinearSolver.dense.newtonStep u j = .ok d ∧
      Shape.broadcastAll [u.batch, u.batch, d.batch] = .ok [] ∧
      0 ≤ (j.squareAt 1 []).form (d.runAt 1 []) ∧
      s.meets (fun v => v.map id) x 2 = true ∧
      Linear.dot ((x.trial (s.stepLength 2)).map id).toList
          ((x.trial (s.stepLength 2)).map id).toList ≤
        max (Linear.dot (u.runAt 1 []).toList (u.runAt 1 []).toList)
          (s.tolerances.absolute * s.tolerances.absolute) ∧
      ∃ trial st', s.search sys u u d none = .ok (trial, [1 / 4]) st' ∧
        trial.runAt 1 [] = x.trial (s.stepLength 2) := by
  intro s j sys u d x
  have hmax : 0 < s.maxTrials := by decide
  have hc : 0 < s.decrease := by decide +kernel
  have hcut : 1 < s.cutback := by decide +kernel
  have hu : u.Packed 1 := ⟨rfl, rfl⟩
  have hin : Shape.InBounds [] [] := trivial
  have hform : 0 ≤ (j.squareAt 1 []).form (d.runAt 1 []) := by decide +kernel
  have hmeets : s.meets (fun v => v.map id) x 2 = true := by decide +kernel
  have hstep : (((LinearSolver.dense : LinearSolver ℚ).newtonStep u j).map fun d =>
      (d.batch, d.middle, d.base, d.data)).toOption = some ([], [], [1], #[-4]) := by
    decide +kernel
  obtain ⟨⟨_, _, _, _, _⟩, hd, heq⟩ := Update.exists_of_toOption_map hstep
  cases heq
  have hlengths : (((s.search sys u u d).outcome none).1.map (·.2)).toOption = some [1 / 4] := by
    decide +kernel
  obtain ⟨⟨trial, _⟩, hsearch, rfl⟩ := Update.exists_of_toOption_map hlengths
  have h := Update.outcome_eq_ok.1 (Prod.ext hsearch rfl)
  obtain ⟨x', rfl, hle, hreturns⟩ := sufficient_trial_le (TrustRegion.entrywiseLaw id j 1)
    LinearSolver.dense_exact hmax Nat.one_pos hc hcut hu hu hd rfl hin (.inr hform)
  obtain ⟨k, -, hlength, hrun⟩ := hreturns h
  have hk : s.stepLength k = s.stepLength 2 := by
    have hquarter : s.stepLength 2 = 1 / 4 := by decide +kernel
    exact (Option.some.inj hlength).symm.trans hquarter.symm
  rw [hk] at hrun
  exact ⟨LinearSolver.dense_exact, hmax, hc, hcut, hu, hd, rfl, hform, hmeets, hle 2 hmeets,
    trial, _, h, hrun⟩

/-- The Newton step of `1 - u + 5u²/4 = 0` from zero goes towards larger residuals: the
Jacobian is negative there. The full step meets the backtracking criterion with a squared norm
that has grown from `1` to `25/16`. -/
theorem ascent_meets_backtracking :
    let s : LineSearch ℚ := { standard .dense with decrease := 1 / 2 }
    let f : ℚ → ℚ := fun x => 1 - x + 5 / 4 * x * x
    let j : Tensor ℚ := ⟨[], [], [1, 1], #[-1], rfl⟩
    let sys := NonlinearSystem.entrywise f j
    let u : Tensor ℚ := ⟨[], [], [1], #[0], rfl⟩
    let r : Tensor ℚ := ⟨[], [], [1], #[1], rfl⟩
    let d : Tensor ℚ := ⟨[], [], [1], #[1], rfl⟩
    let x : EntryStart ℚ 1 := .of (u.runAt 1 []) (r.runAt 1 []) (d.runAt 1 [])
    s.criterion = .backtracking ∧ 0 < s.decrease ∧ s.decrease < 1 ∧ 1 < s.cutback ∧
      (u.map f).toList = r.toList ∧ LinearSolver.dense.newtonStep r j = .ok d ∧
      (∃ trial st', s.search sys u r d none = .ok (trial, [1]) st' ∧
        trial.runAt 1 [] = x.trial 1) ∧
      s.meets (fun v => v.map f) x 0 = true ∧
      max (Linear.dot (r.runAt 1 []).toList (r.runAt 1 []).toList)
          (s.tolerances.absolute * s.tolerances.absolute) <
        Linear.dot ((x.trial 1).map f).toList ((x.trial 1).map f).toList := by
  intro s f j sys u r d x
  have hstep : (((LinearSolver.dense : LinearSolver ℚ).newtonStep r j).map fun d =>
      (d.batch, d.middle, d.base, d.data)).toOption = some ([], [], [1], #[1]) := by
    decide +kernel
  obtain ⟨⟨_, _, _, _, _⟩, hd, heq⟩ := Update.exists_of_toOption_map hstep
  cases heq
  have hlengths : (((s.search sys u r d).outcome none).1.map fun q =>
      (q.2, q.1.runAt 1 [])).toOption = some ([1], x.trial 1) := by
    decide +kernel
  obtain ⟨⟨trial, _⟩, hsearch, heq⟩ := Update.exists_of_toOption_map hlengths
  obtain ⟨rfl, hrun⟩ := Prod.mk.inj heq
  have h := Update.outcome_eq_ok.1 (Prod.ext hsearch rfl)
  exact ⟨rfl, by decide +kernel, by decide +kernel, by decide +kernel, by decide +kernel, hd,
    ⟨trial, _, h, hrun⟩, by decide +kernel, by decide +kernel⟩

end LineSearch

end TieredCalculus
