import TieredCalculus.Proofs.Newton.Convergence
import TieredCalculus.Proofs.Newton.Trials
import TieredCalculus.Proofs.Tensor.View

/-! # The tensor held on return

A solve sets the system to the guess, to trial points, to every iterate and, for an outer
differentiation, to one point more. A record beside the state keeps the tensor last set and
changes nothing else, so what a solve leaves there is what the system holds on return. That is
the solution once the system has been set to an iterate. Before, it is the guess, which the
solution expands to the batch of the residual.
-/

namespace TieredCalculus

variable {σ ρ τ α : Type}

open Update

/-! ## Records -/

/-- The system with a record of the tensor that it was last set to, also in vain. -/
def NonlinearSystem.recorded (sys : NonlinearSystem σ α) :
    NonlinearSystem (σ × Option (Tensor α)) α where
  unknownAxis := sys.unknownAxis
  residualAxis := sys.residualAxis
  setSolution := fun u => do
    modify fun st => (st.1, some u)
    (sys.setSolution u).onFirst
  solution := fun st => sys.solution st.1
  residual := sys.residual.onFirst
  jacobian := sys.jacobian.onFirst
  residualAndJacobian := sys.residualAndJacobian.onFirst
  requiresGradient := fun st => sys.requiresGradient st.1

theorem NonlinearSystem.recorded_setSolution_eq_ok {sys : NonlinearSystem σ α} {u : Tensor α}
    {s s' : σ} {w w' : Option (Tensor α)} :
    sys.recorded.setSolution u (s, w) = .ok () (s', w') ↔
      sys.setSolution u s = .ok () s' ∧ w' = some u :=
  onFirst_eq_ok (t := some u)

/-! ## Solves of systems in step -/

structure SolvedAlike (R : σ → ρ → Prop) (sys : NonlinearSystem σ α) (sys' : NonlinearSystem ρ α) :
    Prop extends TriedAlike R sys sys' where
  jacobian : InStep R sys.jacobian sys'.jacobian
  requiresGradient : ∀ s w, R s w → sys.requiresGradient s = sys'.requiresGradient w

theorem Update.inStep_recorded {ε β : Type} (x : Update ε σ β) :
    InStep (fun s (w : σ × τ) => w.1 = s) x x.onFirst := by
  rintro _ ⟨s, t⟩ rfl
  exact ⟨fun b s' h => ⟨(s', t), onFirst_eq_ok.2 ⟨h, rfl⟩, rfl⟩,
    fun e s' h => ⟨(s', t), onFirst_eq_error.2 ⟨h, rfl⟩⟩⟩

theorem NonlinearSystem.recorded_solvedAlike (sys : NonlinearSystem σ α) :
    SolvedAlike (fun s w => w.1 = s) sys sys.recorded where
  setSolution := fun u => by
    rintro _ ⟨s, w⟩ rfl
    exact inStep_recorded (sys.setSolution u) s (s, some u) rfl
  residual := inStep_recorded sys.residual
  jacobian := inStep_recorded sys.jacobian
  requiresGradient := by
    rintro _ ⟨s, w⟩ rfl
    rfl

/-- Two members of the family with the same configuration, which start alike on two systems and
whose updates are in step there. -/
structure IteratedAlike (R : σ → ρ → Prop) (sys : NonlinearSystem σ α) (sys' : NonlinearSystem ρ α)
    (it : Iteration σ τ α) (it' : Iteration ρ τ α) : Prop where
  tolerances : it.tolerances = it'.tolerances
  linear : it.linear = it'.linear
  validate : it.validate = it'.validate
  prepare : ∀ s w u, R s w → it.prepare sys s u = it'.prepare sys' w u
  update : ∀ u r j, InStep (withEqual R) (it.update sys u r j) (it'.update sys' u r j)

namespace Iteration

variable [Zero α] [One α] [Add α] [Neg α] [Mul α] [Div α] [LT α] [DecidableLT α] [Scalar α]
  {R : σ → ρ → Prop} {sys : NonlinearSystem σ α} {sys' : NonlinearSystem ρ α}
  {it : Iteration σ τ α} {it' : Iteration ρ τ α}

omit [One α] [Add α] [Neg α] [Mul α] [Div α] [LT α] [DecidableLT α] [Scalar α] in
theorem inStep_start (hsys : TriedAlike R sys sys') (guess : Tensor α) :
    InStep R (start sys guess) (start sys' guess) := by
  unfold start
  refine inStep_bind (hsys.setSolution guess) fun _ => ?_
  refine inStep_bind hsys.residual fun r => ?_
  refine inStep_bind (inStep_ofExcept _) fun batch => ?_
  refine inStep_bind (inStep_ofExcept _) fun u => ?_
  exact inStep_pure _

omit [Div α] [LT α] [DecidableLT α] [Scalar α] in
theorem inStep_finish (hsys : SolvedAlike R sys sys') (hit : IteratedAlike R sys sys' it it')
    (u r : Tensor α) (i : Nat) :
    InStep R (it.finish sys u r i) (it'.finish sys' u r i) := by
  unfold finish
  refine inStep_get fun s w hr => ?_
  rw [hsys.requiresGradient s w hr, hit.linear]
  split
  · refine inStep_bind hsys.jacobian fun j => ?_
    refine inStep_bind (inStep_ofExcept _) fun step => ?_
    refine inStep_bind (inStep_ofExcept _) fun u => ?_
    refine inStep_bind (hsys.setSolution u) fun _ => ?_
    exact inStep_pure _
  · exact inStep_pure _

omit [Zero α] [One α] [Add α] [Neg α] [Mul α] [Div α] [LT α] [DecidableLT α] [Scalar α] in
theorem inStep_pass (hsys : SolvedAlike R sys sys') (hit : IteratedAlike R sys sys' it it')
    (u r : Tensor α) : InStep (withEqual R) (it.pass sys u r) (it'.pass sys' u r) := by
  unfold pass
  refine inStep_bind (inStep_onFirst hsys.jacobian) fun j => ?_
  refine inStep_bind (hit.update u r j) fun u => ?_
  refine inStep_bind (inStep_onFirst (hsys.setSolution u)) fun _ => ?_
  refine inStep_bind (inStep_onFirst hsys.residual) fun r => ?_
  exact inStep_pure _

theorem inStep_loop (hsys : SolvedAlike R sys sys') (hit : IteratedAlike R sys sys' it it')
    (initial : List α) (n i : Nat) (u r : Tensor α) :
    InStep (withEqual R) (it.loop sys initial n i u r) (it'.loop sys' initial n i u r) := by
  induction n generalizing i u r with
  | zero =>
      unfold loop
      rw [hit.tolerances]
      exact inStep_pure _
  | succ n ih =>
      rw [loop_succ, loop_succ, hit.tolerances]
      refine inStep_bind (inStep_pass hsys hit u r) ?_
      rintro ⟨u, r⟩
      dsimp only
      split
      · exact inStep_onFirst (inStep_finish hsys hit u r i)
      · exact ih (i + 1) u r

theorem inStep_solve (hsys : SolvedAlike R sys sys') (hit : IteratedAlike R sys sys' it it')
    (guess : Tensor α) : InStep R (it.solve sys guess) (it'.solve sys' guess) := by
  rw [solve_eq, solve_eq, hit.validate, hit.tolerances]
  refine inStep_bind (inStep_ofExcept _) fun _ => ?_
  refine inStep_bind (inStep_start hsys.toTriedAlike guess) ?_
  rintro ⟨u, r⟩
  dsimp only
  split
  · exact inStep_finish hsys hit u r 0
  · refine inStep_get fun s w hr => ?_
    rw [hit.prepare s w u hr]
    refine inStep_bind (inStep_ofExcept _) fun t => ?_
    exact inStep_beside (inStep_loop hsys hit _ _ _ u r) t

end Iteration

theorem Solver.inStep_solve [Zero α] [One α] [Neg α] [Add α] [Sub α] [Mul α] [Div α] [BEq α]
    [LT α] [DecidableLT α] [LE α] [DecidableLE α] [Scalar α] [OfScientific α] {R : σ → ρ → Prop}
    {sys : NonlinearSystem σ α} {sys' : NonlinearSystem ρ α} (hsys : SolvedAlike R sys sys')
    (s : Solver α) (guess : Tensor α) : InStep R (s.solve sys guess) (s.solve sys' guess) := by
  cases s with
  | newton s =>
      exact Iteration.inStep_solve hsys ⟨rfl, rfl, rfl, fun _ _ _ _ => rfl, s.inStep_update⟩ guess
  | lineSearch s =>
      refine Iteration.inStep_solve hsys ⟨rfl, rfl, rfl, fun _ _ _ _ => rfl, ?_⟩ guess
      exact s.inStep_update hsys.toTriedAlike
  | trustRegion s =>
      refine Iteration.inStep_solve hsys ⟨rfl, rfl, rfl, fun _ _ _ _ => rfl, ?_⟩ guess
      exact s.inStep_update hsys.toTriedAlike

/-! ## What the record holds -/

/-- The solve has returned its first iterate: it succeeded at the start with no further update,
or was not allowed any. -/
def Solution.IsFirst (sol : Solution α) (gradient : Bool) : Prop :=
  match sol.outcome with
  | .converged => sol.iterations = 0 ∧ gradient = false
  | .iterationLimit => sol.iterations = 1

namespace Iteration

section Heads

variable [Zero α] {sys : NonlinearSystem σ α} {it : Iteration (σ × Option (Tensor α)) τ α}
  {guess : Tensor α} {st : σ × Option (Tensor α)}

theorem record_of_start {u r : Tensor α} {st' : σ × Option (Tensor α)}
    (h : start sys.recorded guess st = .ok (u, r) st') : st'.2 = some guess := by
  obtain ⟨⟨s₁, w₁⟩, -, hset, hr, -⟩ := start_eq_ok.1 h
  obtain ⟨-, rfl⟩ := NonlinearSystem.recorded_setSolution_eq_ok.1 hset
  exact (onFirst_eq_ok.1 hr).2

omit [Zero α] in
theorem record_of_pass {u r u' r' : Tensor α} {t t' : τ} {st' : σ × Option (Tensor α)}
    (h : it.pass sys.recorded u r (st, t) = .ok (u', r') (st', t')) : st'.2 = some u' := by
  obtain ⟨_, _, _, ⟨s₃, w₃⟩, -, -, hset, hr⟩ := pass_eq_ok.1 h
  obtain ⟨-, rfl⟩ := NonlinearSystem.recorded_setSolution_eq_ok.1 hset
  exact (onFirst_eq_ok.1 hr).2

theorem record_of_headAt {i : Nat} {h : Head (σ × Option (Tensor α)) τ α}
    (hh : it.headAt sys.recorded guess st i = .ok h) :
    h.state.2 = some (if i = 0 then guess else h.value) := by
  cases i with
  | zero => exact record_of_start (headAt_zero_eq_ok hh).1
  | succ i =>
      obtain ⟨before, -, hnext⟩ := Update.except_bind_eq_ok.1 hh
      obtain ⟨t, t', -, -, hpass⟩ := headNext_eq_ok hnext
      exact record_of_pass hpass

end Heads

variable [Zero α] [One α] [Add α] [Neg α] [Mul α] [Div α] [LT α] [DecidableLT α] [Scalar α]
  {sys : NonlinearSystem σ α} {it : Iteration (σ × Option (Tensor α)) τ α} {guess : Tensor α}
  {st st' : σ × Option (Tensor α)} {sol : Solution α}

omit [Div α] [LT α] [DecidableLT α] [Scalar α] in
theorem record_of_finish {u r : Tensor α} {i : Nat}
    (h : it.finish sys.recorded u r i st = .ok sol st') :
    (sys.requiresGradient st.1 = false ∧ sol = ⟨.converged, u, i⟩ ∧ st' = st) ∨
      sys.requiresGradient st.1 = true ∧ sol.outcome = .converged ∧ sol.iterations = i ∧
        st'.2 = some sol.value := by
  rcases finish_eq_ok.1 h with hstay | ⟨hg, _, ⟨s₁, w₁⟩, _, u', -, -, -, hset, rfl⟩
  · exact .inl hstay
  · exact .inr ⟨hg, rfl, rfl, (NonlinearSystem.recorded_setSolution_eq_ok.1 hset).2⟩

/-- A solve that returns leaves the system at the guess where the solution is the first
iterate, and at the solution everywhere else. -/
theorem record_of_solve (hmax : it.validate = .ok () → 0 < it.tolerances.maxIterations)
    (h : it.solve sys.recorded guess st = .ok sol st') :
    ∃ u r st₀, start sys.recorded guess st = .ok (u, r) st₀ ∧
      (sol.IsFirst (sys.requiresGradient st₀.1) ∧ sol.value = u ∧ st'.2 = some guess ∨
        ¬sol.IsFirst (sys.requiresGradient st₀.1) ∧ st'.2 = some sol.value) := by
  obtain ⟨_, s₁, hv, -⟩ := bind_eq_ok.1 h
  have hvalid := (lift_eq_ok.1 hv).1
  obtain ⟨k, initial, -, -, hend⟩ := solve_endsAt sys.recorded guess st hvalid (hmax hvalid)
  rw [outcome_eq_ok.2 h] at hend
  generalize hx : (Except.ok sol, st') = x at hend
  cases hend with
  | @converged _ last hk hl hm =>
      obtain ⟨first, hfirst⟩ := exists_headAt_of_le (Nat.zero_le k) hl
      refine ⟨_, _, _, (headAt_zero_eq_ok hfirst).1, ?_⟩
      have hrecord := record_of_headAt hl
      rcases record_of_finish (outcome_eq_ok.1 hx.symm) with ⟨hg, rfl, rfl⟩ | ⟨hg, hc, hi, hheld⟩
      · rcases Nat.eq_zero_or_pos k with rfl | hpos
        · rw [hl] at hfirst
          cases hfirst
          exact .inl ⟨⟨rfl, hg⟩, rfl, hrecord⟩
        · rw [if_neg (by omega)] at hrecord
          exact .inr ⟨fun hs => hpos.ne' hs.1, hrecord⟩
      · refine .inr ⟨fun hs => ?_, hheld⟩
        unfold Solution.IsFirst at hs
        rw [hc] at hs
        have hk0 : k = 0 := hi.symm.trans hs.1
        subst hk0
        rw [hl] at hfirst
        cases hfirst
        exact absurd hs.2 (by simp [hg])
  | @limit i last hi hl =>
      cases hx
      obtain ⟨first, hfirst⟩ := exists_headAt_of_le (Nat.zero_le i) hl
      refine ⟨_, _, _, (headAt_zero_eq_ok hfirst).1, ?_⟩
      have hrecord := record_of_headAt hl
      rcases Nat.eq_zero_or_pos i with rfl | hpos
      · rw [hl] at hfirst
        cases hfirst
        exact .inl ⟨hi.symm, rfl, hrecord⟩
      · rw [if_neg (by omega)] at hrecord
        refine .inr ⟨fun hs => ?_, hrecord⟩
        change it.tolerances.maxIterations = 1 at hs
        omega
  | failed hi hl => cases hx
  | unprepared hl hm hd => cases hx

end Iteration

namespace Solver

variable [Zero α] [One α] [Neg α] [Add α] [Sub α] [Mul α] [Div α] [BEq α] [LT α] [DecidableLT α]
  [LE α] [DecidableLE α] [Scalar α] [OfScientific α] {sys : NonlinearSystem σ α} {guess : Tensor α}

theorem record_of_solve {s : Solver α} {st st' : σ × Option (Tensor α)} {sol : Solution α}
    (h : s.solve sys.recorded guess st = .ok sol st') :
    ∃ u r st₀, Iteration.start sys.recorded guess st = .ok (u, r) st₀ ∧
      (sol.IsFirst (sys.requiresGradient st₀.1) ∧ sol.value = u ∧ st'.2 = some guess ∨
        ¬sol.IsFirst (sys.requiresGradient st₀.1) ∧ st'.2 = some sol.value) := by
  cases s with
  | newton s =>
      refine Iteration.record_of_solve (fun hv => ?_) h
      exact (Tolerances.validate_eq_ok.1 hv).2.2
  | lineSearch s =>
      refine Iteration.record_of_solve (fun hv => ?_) h
      exact (Tolerances.validate_eq_ok.1 (LineSearch.validate_eq_ok.1 hv).1).2.2
  | trustRegion s =>
      refine Iteration.record_of_solve (fun hv => ?_) h
      obtain ⟨_, ht, -⟩ := Update.except_bind_eq_ok.1 hv
      exact (Tolerances.validate_eq_ok.1 ht).2.2

/-- What the system holds when a solve has returned: the last tensor it was set to. It is the
solution exactly when the solve went past its first iterate or the batch of the guess takes up
that of the first residual; it differs from it only in being the guess before its expansion. -/
theorem solution_held_iff {s : Solver α} {st st' : σ} {sol : Solution α}
    (h : s.solve sys guess st = .ok sol st') :
    ∃ s₁ s₂ r held, sys.setSolution guess st = .ok () s₁ ∧ sys.residual s₁ = .ok r s₂ ∧
      s.solve sys.recorded guess (st, none) = .ok sol (st', some held) ∧
      (held = sol.value ↔
        ¬sol.IsFirst (sys.requiresGradient s₂) ∨ r.batch.expandsTo guess.batch = true) ∧
      (held ≠ sol.value → held = guess ∧ guess.expandBatch sol.value.batch = .ok sol.value) := by
  obtain ⟨⟨_, w⟩, hrec, rfl⟩ :=
    (inStep_solve sys.recorded_solvedAlike s guess st (st, none) rfl).1 sol st' h
  obtain ⟨u, r, ⟨s₂, w₂⟩, hstart, hheld⟩ := record_of_solve hrec
  obtain ⟨⟨s₁, w₁⟩, batch, hset, hres, hbatch, hu⟩ := Iteration.start_eq_ok.1 hstart
  refine ⟨s₁, s₂, r, ?_⟩
  have hset' := (NonlinearSystem.recorded_setSolution_eq_ok.1 hset).1
  have hres' := (onFirst_eq_ok.1 hres).1
  obtain ⟨v, hv, hview⟩ := guess.view_self.expandLeading (Shape.broadcast_expandsTo hbatch).1
    (Shape.expandsTo_refl guess.middle)
  have hub : u.batch = batch := by
    rw [Tensor.expandBatch, hv] at hu
    cases hu
    exact hview.batch_eq
  rcases hheld with ⟨hfirst, hval, rfl⟩ | ⟨hlater, rfl⟩
  · refine ⟨guess, hset', hres', hrec, ⟨fun heq => .inr ?_, fun hor => ?_⟩, fun _ => ⟨rfl, ?_⟩⟩
    · have hsame : guess.batch = batch := by rw [heq, hval, hub]
      rw [hsame]
      exact (Shape.broadcast_expandsTo hbatch).2.1
    · have hexp := hor.resolve_left (not_not_intro hfirst)
      have hcomm := Shape.broadcast_comm (Shape.broadcast_of_expandsTo hexp)
      rw [hcomm] at hbatch
      cases hbatch
      rw [Tensor.expandBatch, Tensor.expandLeading_self] at hu
      cases hu
      exact hval.symm
    · rw [hval, hub]
      exact hu
  · refine ⟨sol.value, hset', hres', hrec, ⟨fun _ => .inl hlater, fun _ => rfl⟩, fun hne => ?_⟩
    exact absurd rfl hne

end Solver

/-- Two entries of `u = c` and `u = d`. The residual has a batch also where `u` has none. -/
def pairAt (c d : ℚ) : NonlinearSystem (Option (Tensor ℚ)) ℚ :=
  .ofFunctions (fun u => SolveError.ofTensor (u.add ⟨[2], [], [1], #[-c, -d], rfl⟩))
    fun _ => .ok ⟨[], [], [1, 1], #[1], rfl⟩

theorem pairAt_holds_roots :
    let s : Solver ℚ := .newton ⟨.standard, .dense⟩
    let guess : Tensor ℚ := ⟨[], [], [1], #[0], rfl⟩
    ∃ sol st' held, s.solve (pairAt 1 2) guess none = .ok sol st' ∧
      (sol.outcome, sol.iterations, sol.value.batch, sol.value.toList) =
        (.converged, 1, [2], [1, 2]) ∧
      s.solve (pairAt 1 2).recorded guess (none, none) = .ok sol (st', some held) ∧
      held = sol.value := by
  intro s guess
  have hrun : ((s.solve (pairAt 1 2) guess).outcome none).1.toOption.map
      (fun x => (x.outcome, x.iterations, x.value.batch, x.value.toList)) =
        some (.converged, 1, [2], [1, 2]) := by decide +kernel
  cases h : s.solve (pairAt 1 2) guess none with
  | error e st' =>
      unfold outcome at hrun
      rw [h] at hrun
      cases hrun
  | ok sol st' =>
      unfold outcome at hrun
      rw [h] at hrun
      have hsol := Option.some.inj hrun
      have hc : sol.outcome = .converged := congrArg (·.1) hsol
      have hi : sol.iterations = 1 := congrArg (·.2.1) hsol
      obtain ⟨_, s₂, r, held, -, -, hrec, hiff, -⟩ := Solver.solution_held_iff h
      refine ⟨sol, st', held, rfl, hsol, hrec, hiff.2 (.inl fun hfirst => ?_)⟩
      unfold Solution.IsFirst at hfirst
      rw [hc] at hfirst
      exact absurd (hi.symm.trans hfirst.1) (by decide)

/-- From a guess without batch at the root of both entries Newton's method returns the expanded
guess, with the system still at the guess itself. With no update allowed it does so anywhere. -/
theorem pairAt_holds_guess :
    let guess : Tensor ℚ := ⟨[], [], [1], #[0], rfl⟩
    let atRoot := ((Solver.newton ⟨.standard, .dense⟩).solve (pairAt 0 0).recorded guess).outcome
      (none, none)
    let noUpdate := ((Solver.newton ⟨⟨0, 0, 1⟩, .dense⟩).solve (pairAt 1 2).recorded guess).outcome
      (none, none)
    atRoot.1.toOption.map (fun x => (x.outcome, x.iterations, x.value.batch)) =
        some (.converged, 0, [2]) ∧
      atRoot.2.2.map (·.batch) = some [] ∧
      noUpdate.1.toOption.map (fun x => (x.outcome, x.iterations, x.value.batch)) =
        some (.iterationLimit, 1, [2]) ∧
      noUpdate.2.2.map (·.batch) = some [] := by
  decide +kernel

end TieredCalculus
