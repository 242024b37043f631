import TieredCalculus.Proofs.Newton.Held

/-! # The updates that a solve makes

A number beside the state of a system counts the updates of a solve and changes nothing else.
Every pass of the loop makes one update, so at head `i` the number is `i`. A solve that has
converged reports the head it has ended at, hence the updates made. One that has run out of
iterations reports the limit, but the limit counts the head of the guess as well: the last
update allowed is never made.
-/

namespace TieredCalculus

variable {σ ρ τ α : Type}

open Update

theorem Update.InStep.of_ok {ε β : Type} {R : σ → ρ → Prop} {x : Update ε σ β}
    {y : Update ε ρ β} (h : InStep R x y) {s : σ} {w w' : ρ} {b : β} (hr : R s w)
    (hy : y w = .ok b w') : ∃ s', x s = .ok b s' ∧ R s' w' := by
  obtain ⟨hok, herr⟩ := h s w hr
  cases hx : x s with
  | ok b' s' =>
      obtain ⟨w'', hw, hr'⟩ := hok b' s' hx
      cases hy.symm.trans hw
      exact ⟨s', rfl, hr'⟩
  | error e s' =>
      obtain ⟨w'', hw⟩ := herr e s' hx
      cases hy.symm.trans hw

/-! ## Counted updates -/

/-- The system with a number beside its state, which it leaves as it is. -/
def NonlinearSystem.numbered (sys : NonlinearSystem σ α) : NonlinearSystem (σ × Nat) α where
  unknownAxis := sys.unknownAxis
  residualAxis := sys.residualAxis
  setSolution := fun u => (sys.setSolution u).onFirst
  solution := fun st => sys.solution st.1
  residual := sys.residual.onFirst
  jacobian := sys.jacobian.onFirst
  residualAndJacobian := sys.residualAndJacobian.onFirst
  requiresGradient := fun st => sys.requiresGradient st.1

/-- The member of the family that counts its updates in the number. -/
def Iteration.counted (it : Iteration (σ × Nat) τ α) : Iteration (σ × Nat) τ α where
  tolerances := it.tolerances
  linear := it.linear
  validate := it.validate
  prepare := it.prepare
  update := fun sys u r j => do
    modify fun st => ((st.1.1, st.1.2 + 1), st.2)
    it.update sys u r j

theorem Update.inStep_numbered {ε β : Type} (x : Update ε σ β) (n : Nat) :
    InStep (fun s w => w = (s, n)) x x.onFirst := by
  rintro s _ rfl
  exact ⟨fun b s' h => ⟨(s', n), onFirst_eq_ok.2 ⟨h, rfl⟩, rfl⟩,
    fun e s' h => ⟨(s', n), onFirst_eq_error.2 ⟨h, rfl⟩⟩⟩

theorem NonlinearSystem.numbered_triedAlike (sys : NonlinearSystem σ α) (n : Nat) :
    TriedAlike (fun s w => w = (s, n)) sys sys.numbered :=
  ⟨fun u => inStep_numbered (sys.setSolution u) n, inStep_numbered sys.residual n⟩

theorem NonlinearSystem.numbered_solvedAlike (sys : NonlinearSystem σ α) :
    SolvedAlike (fun s w => w.1 = s) sys sys.numbered where
  setSolution := fun u => inStep_recorded (sys.setSolution u)
  residual := inStep_recorded sys.residual
  jacobian := inStep_recorded sys.jacobian
  requiresGradient := by
    rintro _ ⟨s, n⟩ rfl
    rfl

namespace Iteration

/-- Beside a number the update is the same and leaves the number as it is. -/
def Unnumbered (sys : NonlinearSystem σ α) (it : Iteration σ τ α)
    (it' : Iteration (σ × Nat) τ α) : Prop :=
  ∀ n u r j, InStep (withEqual fun s w => w = (s, n)) (it.update sys u r j)
    (it'.update sys.numbered u r j)

variable {sys : NonlinearSystem σ α} {it : Iteration σ τ α} {it' : Iteration (σ × Nat) τ α}

theorem counted_update_apply (sys : NonlinearSystem (σ × Nat) α) (u r j : Tensor α) (s : σ)
    (n : Nat) (t : τ) :
    it'.counted.update sys u r j ((s, n), t) = it'.update sys u r j ((s, n + 1), t) := rfl

theorem Unnumbered.inStep_counted (h : Unnumbered sys it it') (u r j : Tensor α) :
    InStep (withEqual fun s w => w.1 = s) (it.update sys u r j)
      (it'.counted.update sys.numbered u r j) := by
  rintro ⟨s, t⟩ ⟨⟨s', n⟩, t'⟩ ⟨hs, ht⟩
  obtain rfl : s' = s := hs
  obtain rfl : t = t' := ht
  rw [counted_update_apply]
  obtain ⟨hok, herr⟩ := h (n + 1) u r j (s', t) ((s', n + 1), t) ⟨rfl, rfl⟩
  refine ⟨fun v st hv => ?_, herr⟩
  obtain ⟨w, hw, hstate, hdata⟩ := hok v st hv
  exact ⟨w, hw, by rw [hstate], hdata⟩

theorem Unnumbered.count_of_pass (h : Unnumbered sys it it') {u r u' r' : Tensor α} {s s' : σ}
    {n n' : Nat} {t t' : τ}
    (hp : it'.counted.pass sys.numbered u r ((s, n), t) = .ok (u', r') ((s', n'), t')) :
    n' = n + 1 := by
  obtain ⟨j, ⟨s₁, n₁⟩, ⟨s₂, n₂⟩, ⟨s₃, n₃⟩, hj, hu, hset, hr⟩ := pass_eq_ok.1 hp
  obtain ⟨-, rfl⟩ := onFirst_eq_ok.1 hj
  obtain ⟨-, rfl⟩ := onFirst_eq_ok.1 hset
  obtain ⟨-, rfl⟩ := onFirst_eq_ok.1 hr
  rw [counted_update_apply] at hu
  obtain ⟨_, -, hstate, -⟩ := (h (n₁ + 1) u r j).of_ok (s := (s₁, t)) ⟨rfl, rfl⟩ hu
  cases hstate
  rfl

variable [Zero α] {guess : Tensor α} {st : σ} {n : Nat}

/-- At head `i` the solve has made `i` updates. -/
theorem Unnumbered.count_of_headAt (h : Unnumbered sys it it') {i : Nat}
    {head : Head (σ × Nat) τ α}
    (hh : it'.counted.headAt sys.numbered guess (st, n) i = .ok head) :
    head.state.2 = n + i := by
  induction i generalizing head with
  | zero =>
      obtain ⟨⟨s₁, n₁⟩, -, hset, hr, -⟩ := start_eq_ok.1 (headAt_zero_eq_ok hh).1
      obtain ⟨-, rfl⟩ := onFirst_eq_ok.1 hset
      exact (onFirst_eq_ok.1 hr).2
  | succ i ih =>
      obtain ⟨before, hbefore, hnext⟩ := Update.except_bind_eq_ok.1 hh
      obtain ⟨t, t', -, -, hpass⟩ := headNext_eq_ok hnext
      rw [h.count_of_pass hpass, ih hbefore, Nat.add_assoc]

variable [One α] [Add α] [Neg α] [Mul α] [Div α] [LT α] [DecidableLT α] [Scalar α]

omit [Div α] [LT α] [DecidableLT α] [Scalar α] in
theorem count_of_finish {u r : Tensor α} {i n' : Nat} {s s' : σ} {sol : Solution α}
    (h : it'.finish sys.numbered u r i (s, n) = .ok sol (s', n')) :
    n' = n ∧ sol.outcome = .converged ∧ sol.iterations = i := by
  rcases finish_eq_ok.1 h with ⟨-, rfl, hstay⟩ | ⟨-, j, ⟨s₁, n₁⟩, _, u', hj, -, -, hset, rfl⟩
  · cases hstay
    exact ⟨rfl, rfl, rfl⟩
  · obtain ⟨-, rfl⟩ := onFirst_eq_ok.1 hj
    exact ⟨(onFirst_eq_ok.1 hset).2, rfl, rfl⟩

theorem Unnumbered.count_of_solve (hun : Unnumbered sys it it')
    (hmax : it'.validate = .ok () → 0 < it'.tolerances.maxIterations) {sol : Solution α} {st' : σ}
    (h : it'.counted.solve sys.numbered guess (st, 0) = .ok sol (st', n)) :
    (sol.outcome = .converged → n = sol.iterations) ∧
      (sol.outcome = .iterationLimit → sol.iterations = it'.tolerances.maxIterations ∧
        n + 1 = sol.iterations) := by
  obtain ⟨_, s₁, hv, -⟩ := bind_eq_ok.1 h
  have hvalid := (lift_eq_ok.1 hv).1
  obtain ⟨k, initial, -, -, hend⟩ :=
    solve_endsAt sys.numbered guess (st, 0) hvalid (hmax hvalid)
  rw [outcome_eq_ok.2 h] at hend
  generalize hx : (Except.ok sol, (st', n)) = x at hend
  cases hend with
  | @converged _ head hk hh hm =>
      obtain ⟨hn, hc, hi⟩ := count_of_finish (outcome_eq_ok.1 hx.symm)
      rw [hn, hun.count_of_headAt hh, hc, hi]
      simp
  | @limit i head hi hh =>
      obtain ⟨hsol, hstate⟩ := Prod.mk.inj hx
      cases hsol
      have hcount := hun.count_of_headAt hh
      rw [← hstate, Nat.zero_add] at hcount
      obtain rfl : n = i := hcount
      exact ⟨fun hc => (by cases hc), fun _ => ⟨rfl, hi⟩⟩
  | failed hi hh => cases hx
  | unprepared hh hm hd => cases hx

theorem Unnumbered.solve_counted (hun : Unnumbered sys it it') (hit : it.tolerances = it'.tolerances)
    (hlinear : it.linear = it'.linear) (hvalidate : it.validate = it'.validate)
    (hprepare : ∀ s w u, w.1 = s → it.prepare sys s u = it'.prepare sys.numbered w u)
    (hmax : it'.validate = .ok () → 0 < it'.tolerances.maxIterations)
    {sol : Solution α} {st' : σ} (h : it.solve sys guess st = .ok sol st') :
    ∃ n, it'.counted.solve sys.numbered guess (st, 0) = .ok sol (st', n) ∧
      (sol.outcome = .converged → n = sol.iterations) ∧
      (sol.outcome = .iterationLimit → sol.iterations = it'.tolerances.maxIterations ∧
        n + 1 = sol.iterations) := by
  have halike : IteratedAlike (fun s (w : σ × Nat) => w.1 = s) sys sys.numbered it it'.counted :=
    ⟨hit, hlinear, hvalidate, hprepare, hun.inStep_counted⟩
  obtain ⟨⟨_, n⟩, hcounted, rfl⟩ :=
    (inStep_solve sys.numbered_solvedAlike halike guess st (st, 0) rfl).1 sol st' h
  exact ⟨n, hcounted, hun.count_of_solve hmax hcounted⟩

end Iteration

/-! ## The family -/

namespace Solver

variable [Zero α] [One α] [Neg α] [Add α] [Sub α] [Mul α] [Div α] [BEq α] [LT α] [DecidableLT α]
  [LE α] [DecidableLE α] [Scalar α] [OfScientific α]

/-- The solve with its updates counted in a number beside the state. -/
def countedSolve (s : Solver α) (sys : NonlinearSystem σ α) (guess : Tensor α) :
    Update (SolveError α) (σ × Nat) (Solution α) :=
  match s with
  | .newton s => s.iteration.counted.solve sys.numbered guess
  | .lineSearch s => s.iteration.counted.solve sys.numbered guess
  | .trustRegion s => s.iteration.counted.solve sys.numbered guess

variable {sys : NonlinearSystem σ α} {guess : Tensor α} {st st' : σ} {sol : Solution α}

/-- A solve that has converged reports the number of updates that it has made. One that has run
out of iterations reports the limit and has made one update less. -/
theorem updates_made {s : Solver α} (h : s.solve sys guess st = .ok sol st') :
    ∃ n, s.countedSolve sys guess (st, 0) = .ok sol (st', n) ∧
      (sol.outcome = .converged → n = sol.iterations) ∧
      (sol.outcome = .iterationLimit → sol.iterations = s.tolerances.maxIterations ∧
        n + 1 = sol.iterations) := by
  cases s with
  | newton s =>
      refine Iteration.Unnumbered.solve_counted (fun n => ?_) rfl rfl rfl (fun _ _ _ _ => rfl)
        (fun hv => ?_) h
      · exact s.inStep_update
      · exact (Tolerances.validate_eq_ok.1 hv).2.2
  | lineSearch s =>
      refine Iteration.Unnumbered.solve_counted (fun n => ?_) rfl rfl rfl (fun _ _ _ _ => rfl)
        (fun hv => ?_) h
      · exact s.inStep_update (sys.numbered_triedAlike n)
      · exact (Tolerances.validate_eq_ok.1 (LineSearch.validate_eq_ok.1 hv).1).2.2
  | trustRegion s =>
      refine Iteration.Unnumbered.solve_counted (fun n => ?_) rfl rfl rfl (fun _ _ _ _ => rfl)
        (fun hv => ?_) h
      · exact s.inStep_update (sys.numbered_triedAlike n)
      · obtain ⟨_, ht, -⟩ := Update.except_bind_eq_ok.1 hv
        exact (Tolerances.validate_eq_ok.1 ht).2.2

end Solver

/-- The equation `x² = c` in every batch entry. -/
def squareIs (c : ℚ) : NonlinearSystem (Option (Tensor ℚ)) ℚ :=
  .ofFunctions (fun u => .ok (u.map fun x => x * x - c))
    fun u => SolveError.ofTensor (Tensor.ofValues u.batch [] [1, 1] (u.data.map (2 * ·)))

theorem squareIs_updates_made :
    let s : Solver ℚ := .newton ⟨{ Tolerances.standard with maxIterations := 2 }, .dense⟩
    let guess : Tensor ℚ := ⟨[], [], [1], #[1], rfl⟩
    ∃ sol st' n, s.solve (squareIs 2) guess none = .ok sol st' ∧
      (sol.outcome, sol.iterations, sol.value.toList) = (.iterationLimit, 2, [3 / 2]) ∧
      s.countedSolve (squareIs 2) guess (none, 0) = .ok sol (st', n) ∧ n + 1 = sol.iterations := by
  intro s guess
  have hrun : ((s.solve (squareIs 2) guess).outcome none).1.toOption.map
      (fun x => (x.outcome, x.iterations, x.value.toList)) =
        some (.iterationLimit, 2, [3 / 2]) := by decide +kernel
  cases h : s.solve (squareIs 2) guess none with
  | error e st' =>
      unfold outcome at hrun
      rw [h] at hrun
      cases hrun
  | ok sol st' =>
      unfold outcome at hrun
      rw [h] at hrun
      have hsol := Option.some.inj hrun
      obtain ⟨n, hcounted, -, hlimit⟩ := Solver.updates_made h
      exact ⟨sol, st', n, rfl, hsol, hcounted, (hlimit (congrArg (·.1) hsol)).2⟩

/-- A limit of two lets Newton's method make one update, and it reports two iterations. -/
theorem squareIs_limit :
    let s : Solver ℚ := .newton ⟨{ Tolerances.standard with maxIterations := 2 }, .dense⟩
    let run := (s.countedSolve (squareIs 2) ⟨[], [], [1], #[1], rfl⟩).outcome (none, 0)
    run.1.toOption.map (fun x => (x.outcome, x.iterations)) = some (.iterationLimit, 2) ∧
      run.2.2 = 1 := by
  decide +kernel

end TieredCalculus
