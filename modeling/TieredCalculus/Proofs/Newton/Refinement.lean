import TieredCalculus.Proofs.Newton.Trials
import TieredCalculus.Proofs.Rational

/-! # The loop as a pure iteration

On a system without memory the loop computes the pure sequence of points. The update gets
the residual and the Jacobian at the iterate that it is given, wherever earlier trials have
left the system, and the solve ends as the first point decides that has converged, that fails
or that reaches the limit.
-/

namespace TieredCalculus

variable {σ τ α : Type} [Zero α]

namespace Memoryless

variable {sys : NonlinearSystem σ α} {m : Memoryless sys} {it : Iteration σ τ α}
  {rd : it.Reading m} {guess : Tensor α}

/-! ## Calls of the update -/

/-- The updates that a run asks for: at a point and with its data, residual and Jacobian being
those at the tensor held. That tensor is the iterate, or the guess that the first iterate
expands. -/
structure Called (m : Memoryless sys) (rd : it.Reading m) (guess : Tensor α) (p : Point τ α)
    (j : Tensor α) (s : σ) (t : τ) : Prop where
  point : ∃ i, m.points rd guess i = .ok p
  data : p.data = .ok t
  residual : m.residual p.held = .ok p.residual
  jacobian : m.jacobian p.held = .ok j
  holds : m.holds s (some p.held)
  held : p.held = p.value ∨ p.held = guess ∧
    ∃ batch, Shape.broadcast guess.batch p.residual.batch = .ok batch ∧
      guess.expandBatch batch = .ok p.value

/-- At a point the residual is the one at the tensor held. -/
theorem held_of_points {i : Nat} {p : Point τ α} (hp : m.points rd guess i = .ok p) :
    m.residual p.held = .ok p.residual ∧
      (p.held = p.value ∨ p.held = guess ∧
        ∃ batch, Shape.broadcast guess.batch p.residual.batch = .ok batch ∧
          guess.expandBatch batch = .ok p.value) := by
  cases i with
  | zero =>
      obtain ⟨⟨u, r⟩, hst, h⟩ := Update.except_bind_eq_ok.1 hp
      obtain ⟨_, _, h₁⟩ := Update.except_bind_eq_ok.1 hst
      obtain ⟨r₁, hr, h₂⟩ := Update.except_bind_eq_ok.1 h₁
      obtain ⟨batch, hbatch, h₃⟩ := Update.except_bind_eq_ok.1 h₂
      obtain ⟨u₁, hu, h₄⟩ := Update.except_bind_eq_ok.1 h₃
      cases h₄
      cases h
      exact ⟨hr, .inr ⟨rfl, batch, SolveError.ofTensor_eq_ok.1 hbatch,
        SolveError.ofTensor_eq_ok.1 hu⟩⟩
  | succ i =>
      obtain ⟨q, _, h⟩ := Update.except_bind_eq_ok.1 hp
      obtain ⟨t, _, h₁⟩ := Update.except_bind_eq_ok.1 h
      obtain ⟨j, _, h₂⟩ := Update.except_bind_eq_ok.1 h₁
      obtain ⟨⟨u, t'⟩, _, h₃⟩ := Update.except_bind_eq_ok.1 h₂
      obtain ⟨_, _, h₄⟩ := Update.except_bind_eq_ok.1 h₃
      obtain ⟨r, hr, h₅⟩ := Update.except_bind_eq_ok.1 h₄
      cases h₅
      exact ⟨hr, .inl rfl⟩

section Agreement

variable {upd : NonlinearSystem σ α → Tensor α → Tensor α → Tensor α →
  Update (SolveError α) (σ × τ) (Tensor α)}

omit [Zero α] in
theorem pass_congr {p : Point τ α} {t : τ} {s : σ} (hs : m.holds s (some p.held))
    (h : ∀ j s', m.jacobian p.held = .ok j → m.holds s' (some p.held) →
      upd sys p.value p.residual j (s', t) = it.update sys p.value p.residual j (s', t)) :
    Iteration.pass { it with update := upd } sys p.value p.residual (s, t) =
      it.pass sys p.value p.residual (s, t) := by
  unfold Iteration.pass
  rw [Update.bind_apply, Update.bind_apply]
  cases hj : sys.jacobian.onFirst (s, t) with
  | error e st => rfl
  | ok j st =>
      obtain ⟨s', t'⟩ := st
      obtain ⟨hj', rfl⟩ := Update.onFirst_eq_ok.1 hj
      obtain ⟨hm, hs'⟩ := (m.gives_jacobian hs).of_ok hj'
      dsimp only
      rw [Update.bind_apply, Update.bind_apply, h j s' hm hs']

variable {s₀ : σ} {w : Option (Tensor α)}

theorem headAt_pass_congr (hs : m.holds s₀ w)
    (hupd : ∀ p j s t, m.Called rd guess p j s t →
      upd sys p.value p.residual j (s, t) = it.update sys p.value p.residual j (s, t))
    {i : Nat} {h : Head σ τ α} {t : τ} (hh : it.headAt sys guess s₀ i = .ok h)
    (hd : h.data = .ok t) :
    Iteration.pass { it with update := upd } sys h.value h.residual (h.state, t) =
      it.pass sys h.value h.residual (h.state, t) := by
  have hreal : ∃ p, m.points rd guess i = .ok p ∧ m.Realises h p :=
    (headAt_realises hs guess i).1 h hh
  obtain ⟨p, hp, hstate, hdata, hvalue, hres⟩ := hreal
  obtain ⟨hr, hheld⟩ := held_of_points hp
  rw [hvalue, hres]
  refine pass_congr hstate fun j s hj hs' => hupd p j s t ?_
  exact ⟨⟨i, hp⟩, hdata ▸ hd, hr, hj, hs', hheld⟩

variable [One α] [Add α] [Neg α] [Mul α] [Div α] [LT α] [DecidableLT α] [Scalar α]

theorem loop_congr (hs : m.holds s₀ w)
    (hupd : ∀ p j s t, m.Called rd guess p j s t →
      upd sys p.value p.residual j (s, t) = it.update sys p.value p.residual j (s, t))
    (initial : List α) {n i k : Nat} {h : Head σ τ α} {t : τ}
    (hh : it.headAt sys guess s₀ i = .ok h) (hd : h.data = .ok t) :
    Iteration.loop { it with update := upd } sys initial n k h.value h.residual (h.state, t) =
      it.loop sys initial n k h.value h.residual (h.state, t) := by
  induction n generalizing i k h t with
  | zero => rfl
  | succ n ih =>
      rw [Iteration.loop_succ, Iteration.loop_succ, Update.bind_apply, Update.bind_apply,
        headAt_pass_congr hs hupd hh hd]
      cases hq : it.pass sys h.value h.residual (h.state, t) with
      | error e st => rfl
      | ok q st =>
          obtain ⟨u, r⟩ := q
          obtain ⟨s', t'⟩ := st
          have hnext := (Iteration.headAt_succ_of_ok hh).trans (Iteration.headNext_of_pass_ok hd hq)
          dsimp only
          split
          · rfl
          · exact ih hnext rfl

/-- A solve is determined by the update's results on the calls at the points. -/
theorem solve_congr (hs : m.holds s₀ w)
    (hupd : ∀ p j s t, m.Called rd guess p j s t →
      upd sys p.value p.residual j (s, t) = it.update sys p.value p.residual j (s, t)) :
    Iteration.solve { it with update := upd } sys guess s₀ = it.solve sys guess s₀ := by
  rw [Iteration.solve_eq, Iteration.solve_eq, Update.bind_apply, Update.bind_apply]
  cases hv : (liftM it.validate : Update (SolveError α) σ Unit) s₀ with
  | error e s => rfl
  | ok _ s =>
      obtain rfl : s₀ = s := (Update.lift_eq_ok.1 hv).2.symm
      dsimp only
      rw [Update.bind_apply, Update.bind_apply]
      cases hst : Iteration.start sys guess s₀ with
      | error e s => rfl
      | ok q s' =>
          obtain ⟨u, r⟩ := q
          dsimp only
          split
          · rfl
          rw [Update.get_bind_apply, Update.get_bind_apply]
          cases hd : it.prepare sys s' u with
          | error e => rfl
          | ok t =>
              have hh : it.headAt sys guess s₀ 0 = .ok ⟨s', it.prepare sys s' u, u, r⟩ := by
                simp [Iteration.headAt, hst]
              have hloop := loop_congr hs hupd r.rowNorms
                (n := it.tolerances.maxIterations - 1) (k := 1) hh hd
              simp only [Update.lift_ok_bind, Update.beside, hloop]

end Agreement

/-! ## Ends -/

variable [One α] [Add α] [Neg α] [Mul α] [Div α] [LT α] [DecidableLT α] [Scalar α]

/-- What a solve returns when the points before point `i` have not converged. -/
inductive Ends (m : Memoryless sys) (rd : it.Reading m) (guess : Tensor α) (initial : List α) :
    Nat → Except (SolveError α) (Solution α) → Prop
  | converged {i : Nat} {p : Point τ α} {s : σ} (hi : i < it.tolerances.maxIterations)
      (hp : m.points rd guess i = .ok p)
      (hm : it.tolerances.met p.residual.rowNorms initial = true)
      (hs : m.holds s (some p.held)) :
      Ends m rd guess initial i (m.finish it.linear (sys.requiresGradient s) p i)
  | limit {i : Nat} {p : Point τ α} (hi : i + 1 = it.tolerances.maxIterations)
      (hp : m.points rd guess i = .ok p) :
      Ends m rd guess initial (i + 1)
        (.ok ⟨.iterationLimit, p.value, it.tolerances.maxIterations⟩)
  | failed {i : Nat} {e : SolveError α} (hi : i < it.tolerances.maxIterations)
      (hp : m.points rd guess i = .error e) : Ends m rd guess initial i (.error e)
  | unprepared {p : Point τ α} {e : SolveError α} (hp : m.points rd guess 0 = .ok p)
      (hm : it.tolerances.met p.residual.rowNorms initial = false) (hd : p.data = .error e) :
      Ends m rd guess initial 0 (.error e)

theorem ends_of_endsAt {s : σ} {w : Option (Tensor α)} (hs : m.holds s w) {initial : List α}
    {k : Nat} {x : Except (SolveError α) (Solution α) × σ}
    (h : it.EndsAt sys guess s initial k x) : m.Ends rd guess initial k x.1 := by
  cases h with
  | converged hi hh hm =>
      obtain ⟨p, hp, hr⟩ := (headAt_realises hs guess k).1 _ hh
      rw [(gives_finish hr k).outcome]
      exact .converged hi hp (hr.residual ▸ hm) hr.holds
  | @limit i h hi hh =>
      obtain ⟨p, hp, hr⟩ := (headAt_realises hs guess i).1 _ hh
      rw [hr.value]
      exact .limit hi hp
  | failed hi hh => exact .failed hi ((headAt_realises hs guess k).2 _ hh)
  | unprepared hh hm hd =>
      obtain ⟨p, hp, hr⟩ := (headAt_realises hs guess 0).1 _ hh
      exact .unprepared hp (hr.residual ▸ hm) (hr.data ▸ hd)

variable [LE α] [DecidableLE α]

/-- On a system without memory a solve asks for updates only where residual and Jacobian
belong to the iterate, wherever the updates before have left the system, and returns what the
pure sequence of points decides: the result at the first point that passes the tolerances
against the residual at the guess, the last point allowed where none does, or the error that
the sequence runs into. -/
theorem solve_refines_points (m : Memoryless sys) (rd : it.Reading m) (guess : Tensor α) {s : σ}
    {w : Option (Tensor α)} (hs : m.holds s w) (hv : it.validate = .ok ())
    (ht : it.tolerances.validate = .ok ()) :
    (∀ upd : NonlinearSystem σ α → Tensor α → Tensor α → Tensor α →
        Update (SolveError α) (σ × τ) (Tensor α),
      (∀ p j s' t, m.Called rd guess p j s' t →
        upd sys p.value p.residual j (s', t) = it.update sys p.value p.residual j (s', t)) →
      Iteration.solve { it with update := upd } sys guess s = it.solve sys guess s) ∧
    ∃ k initial, (∀ p, m.points rd guess 0 = .ok p → initial = p.residual.rowNorms) ∧
      (∀ i < k, ∃ p t, m.points rd guess i = .ok p ∧ p.data = .ok t ∧
        it.tolerances.met p.residual.rowNorms initial = false) ∧
      m.Ends rd guess initial k ((it.solve sys guess).outcome s).1 := by
  refine ⟨fun upd hupd => solve_congr hs hupd, ?_⟩
  obtain ⟨k, initial, hinit, hpassed, hend⟩ :=
    Iteration.solve_endsAt sys guess s hv (Tolerances.validate_eq_ok.1 ht).2.2
  have hpast : ∀ i < k, ∃ p t, m.points rd guess i = .ok p ∧ p.data = .ok t ∧
      it.tolerances.met p.residual.rowNorms initial = false := by
    intro i hi
    obtain ⟨h, t, hh, hd, hm⟩ := hpassed i hi
    obtain ⟨p, hp, hr⟩ := (headAt_realises hs guess i).1 h hh
    exact ⟨p, t, hp, hr.data ▸ hd, hr.residual ▸ hm⟩
  refine ⟨k, initial, fun p hp => ?_, hpast, ends_of_endsAt hs hend⟩
  cases hh : it.headAt sys guess s 0 with
  | error e =>
      rw [(headAt_realises hs guess 0).2 e hh] at hp
      cases hp
  | ok h =>
      obtain ⟨p', hp', hr⟩ := (headAt_realises hs guess 0).1 h hh
      rw [hp] at hp'
      cases hp'
      rw [hinit h hh, hr.residual]

/-- The system `u - p = 0` for two batch entries `p`, with a Jacobian four times too small. -/
def overshooting : NonlinearSystem (Option (Tensor ℚ)) ℚ :=
  .ofFunctions (fun u => SolveError.ofTensor (u.add ⟨[2], [], [1], #[-1, -2], rfl⟩))
    fun _ => .ok ⟨[], [], [1, 1], #[1 / 4], rfl⟩

/-- A line search moves that system to three trial points from a guess without batch, and
returns what the points decide: the entries of `p` after one iteration. -/
theorem overshooting_refines_points :
    let s : LineSearch ℚ := .standard .dense
    let it : Iteration (Option (Tensor ℚ)) Unit ℚ := s.iteration
    let m : Memoryless overshooting := .ofFunctions _ _
    let rd : it.Reading m := s.reading m
    let guess : Tensor ℚ := ⟨[], [], [1], #[0], rfl⟩
    let result := ((it.solve overshooting guess).outcome none).1
    it.validate = .ok () ∧ it.tolerances.validate = .ok () ∧
      (∃ k initial, (∀ p, m.points rd guess 0 = .ok p → initial = p.residual.rowNorms) ∧
        (∀ i < k, ∃ p t, m.points rd guess i = .ok p ∧ p.data = .ok t ∧
          it.tolerances.met p.residual.rowNorms initial = false) ∧
        m.Ends rd guess initial k result) ∧
      result.toOption.map (fun x => (x.iterations, x.value.toList)) = some (1, [1, 2]) := by
  intro s it m rd guess result
  have ht : it.tolerances.validate = .ok () := Tolerances.validate_eq_ok.2 (by decide +kernel)
  have hv : it.validate = .ok () := LineSearch.validate_eq_ok.2 ⟨ht, by decide +kernel⟩
  exact ⟨hv, ht, (solve_refines_points m rd guess rfl hv ht).2, by decide +kernel⟩

end Memoryless

end TieredCalculus
