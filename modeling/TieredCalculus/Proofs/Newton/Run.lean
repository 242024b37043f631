import TieredCalculus.Newton.Solver

/-! # Runs of the Newton iteration

The loop of the iteration, read as a sequence of heads: at head `i` the residual of iterate
`i` has been evaluated and is about to be tested. A solve follows the heads up to the first
one that has converged, that cannot be reached or that exhausts the limit, and ends there.
Nothing is assumed of the system, of the solver or of its update.
-/

namespace TieredCalculus

variable {σ τ α : Type}

/-- What the loop holds when iterate `value` is about to be tested: the state of the system,
the solver's data for the next update, and the residual at the iterate. -/
structure Head (σ τ α : Type) where
  state : σ
  data : Except (SolveError α) τ
  value : Tensor α
  residual : Tensor α

namespace Iteration

/-! ## Heads -/

/-- The initial evaluation, which gives the first iterate and its residual. -/
def start [Zero α] (sys : NonlinearSystem σ α) (guess : Tensor α) :
    Update (SolveError α) σ (Tensor α × Tensor α) := do
  sys.setSolution guess
  let r ← sys.residual
  let batch ← Shape.broadcast guess.batch r.batch
  let u ← guess.expandBatch batch
  return (u, r)

theorem start_eq_ok [Zero α] {sys : NonlinearSystem σ α} {guess u r : Tensor α} {s s' : σ} :
    start sys guess s = .ok (u, r) s' ↔
      ∃ s₁ batch, sys.setSolution guess s = .ok () s₁ ∧ sys.residual s₁ = .ok r s' ∧
        Shape.broadcast guess.batch r.batch = .ok batch ∧ guess.expandBatch batch = .ok u := by
  unfold start
  constructor
  · intro h
    obtain ⟨_, s₁, hset, h₁⟩ := Update.bind_eq_ok.1 h
    obtain ⟨r₁, s₂, hr, h₂⟩ := Update.bind_eq_ok.1 h₁
    obtain ⟨batch, s₃, hb, h₃⟩ := Update.bind_eq_ok.1 h₂
    obtain ⟨u₁, s₄, hu, h₄⟩ := Update.bind_eq_ok.1 h₃
    obtain ⟨hb', rfl⟩ := SolveError.lift_eq_ok.1 hb
    obtain ⟨hu', rfl⟩ := SolveError.lift_eq_ok.1 hu
    cases h₄
    exact ⟨s₁, batch, hset, hr, hb', hu'⟩
  · rintro ⟨s₁, batch, hset, hr, hb, hu⟩
    refine Update.bind_eq_ok.2 ⟨(), s₁, hset, ?_⟩
    refine Update.bind_eq_ok.2 ⟨r, s', hr, ?_⟩
    refine Update.bind_eq_ok.2 ⟨batch, s', SolveError.lift_eq_ok.2 ⟨hb, rfl⟩, ?_⟩
    exact Update.bind_eq_ok.2 ⟨u, s', SolveError.lift_eq_ok.2 ⟨hu, rfl⟩, rfl⟩

/-- One pass of the loop, which gives the next iterate and its residual. -/
def pass (it : Iteration σ τ α) (sys : NonlinearSystem σ α) (u r : Tensor α) :
    Update (SolveError α) (σ × τ) (Tensor α × Tensor α) := do
  let j ← sys.jacobian.onFirst
  let u ← it.update sys u r j
  (sys.setSolution u).onFirst
  let r ← sys.residual.onFirst
  return (u, r)

/-- A pass that returns evaluates the Jacobian, updates, sets the new iterate and evaluates
the residual there, in that order. -/
theorem pass_eq_ok {it : Iteration σ τ α} {sys : NonlinearSystem σ α} {u r u' r' : Tensor α}
    {s s' : σ} {t t' : τ} :
    it.pass sys u r (s, t) = .ok (u', r') (s', t') ↔
      ∃ j s₁ s₂ s₃, sys.jacobian s = .ok j s₁ ∧
        it.update sys u r j (s₁, t) = .ok u' (s₂, t') ∧
        sys.setSolution u' s₂ = .ok () s₃ ∧ sys.residual s₃ = .ok r' s' := by
  unfold pass
  constructor
  · intro h
    obtain ⟨j, ⟨s₁, t₁⟩, hj, h₁⟩ := Update.bind_eq_ok.1 h
    obtain ⟨u₂, ⟨s₂, t₂⟩, hu, h₂⟩ := Update.bind_eq_ok.1 h₁
    obtain ⟨_, ⟨s₃, t₃⟩, hset, h₃⟩ := Update.bind_eq_ok.1 h₂
    obtain ⟨r₄, ⟨s₄, t₄⟩, hr, h₄⟩ := Update.bind_eq_ok.1 h₃
    obtain ⟨hj', rfl⟩ := Update.onFirst_eq_ok.1 hj
    obtain ⟨hset', rfl⟩ := Update.onFirst_eq_ok.1 hset
    obtain ⟨hr', rfl⟩ := Update.onFirst_eq_ok.1 hr
    cases h₄
    exact ⟨j, s₁, s₂, s₃, hj', hu, hset', hr'⟩
  · rintro ⟨j, s₁, s₂, s₃, hj, hu, hset, hr⟩
    refine Update.bind_eq_ok.2 ⟨j, (s₁, t), Update.onFirst_eq_ok.2 ⟨hj, rfl⟩, ?_⟩
    refine Update.bind_eq_ok.2 ⟨u', (s₂, t'), hu, ?_⟩
    refine Update.bind_eq_ok.2 ⟨(), (s₃, t'), Update.onFirst_eq_ok.2 ⟨hset, rfl⟩, ?_⟩
    exact Update.bind_eq_ok.2 ⟨r', (s', t'), Update.onFirst_eq_ok.2 ⟨hr, rfl⟩, rfl⟩

theorem pass_eq_error {it : Iteration σ τ α} {sys : NonlinearSystem σ α} {u r : Tensor α}
    {s : σ} {t : τ} {e : SolveError α} {st : σ × τ} (h : it.pass sys u r (s, t) = .error e st) :
    (∃ s', sys.jacobian s = .error e s') ∨
      ∃ j s₁, sys.jacobian s = .ok j s₁ ∧
        ((∃ st', it.update sys u r j (s₁, t) = .error e st') ∨
          ∃ u' s₂ t', it.update sys u r j (s₁, t) = .ok u' (s₂, t') ∧
            ((∃ s', sys.setSolution u' s₂ = .error e s') ∨
              ∃ s₃ s', sys.setSolution u' s₂ = .ok () s₃ ∧ sys.residual s₃ = .error e s')) := by
  unfold pass at h
  obtain hj | ⟨j, ⟨s₁, t₁⟩, hj, h₁⟩ := Update.bind_eq_error.1 h
  · exact .inl ⟨_, (Update.onFirst_eq_error.1 hj).1⟩
  obtain ⟨hj', rfl⟩ := Update.onFirst_eq_ok.1 hj
  refine .inr ⟨j, s₁, hj', ?_⟩
  obtain hu | ⟨u', ⟨s₂, t₂⟩, hu, h₂⟩ := Update.bind_eq_error.1 h₁
  · exact .inl ⟨_, hu⟩
  refine .inr ⟨u', s₂, t₂, hu, ?_⟩
  obtain hset | ⟨_, ⟨s₃, t₃⟩, hset, h₃⟩ := Update.bind_eq_error.1 h₂
  · exact .inl ⟨_, (Update.onFirst_eq_error.1 hset).1⟩
  obtain ⟨hset', rfl⟩ := Update.onFirst_eq_ok.1 hset
  obtain hr | ⟨_, _, _, h₄⟩ := Update.bind_eq_error.1 h₃
  · exact .inr ⟨s₃, _, hset', (Update.onFirst_eq_error.1 hr).1⟩
  · cases h₄

/-- The head after another one. -/
def headNext (it : Iteration σ τ α) (sys : NonlinearSystem σ α) (h : Head σ τ α) :
    Except (SolveError α) (Head σ τ α) := do
  let t ← h.data
  match it.pass sys h.value h.residual (h.state, t) with
  | .ok (u, r) (s, t) => .ok ⟨s, .ok t, u, r⟩
  | .error e _ => .error e

theorem headNext_of_pass_ok {it : Iteration σ τ α} {sys : NonlinearSystem σ α}
    {h : Head σ τ α} {t t' : τ} {u r : Tensor α} {s' : σ} (hd : h.data = .ok t)
    (hp : it.pass sys h.value h.residual (h.state, t) = .ok (u, r) (s', t')) :
    it.headNext sys h = .ok ⟨s', .ok t', u, r⟩ := by
  simp [headNext, hd, hp, bind, Except.bind]

theorem headNext_of_pass_error {it : Iteration σ τ α} {sys : NonlinearSystem σ α}
    {h : Head σ τ α} {t : τ} {e : SolveError α} {st : σ × τ} (hd : h.data = .ok t)
    (hp : it.pass sys h.value h.residual (h.state, t) = .error e st) :
    it.headNext sys h = .error e := by
  simp [headNext, hd, hp, bind, Except.bind]

theorem headNext_eq_ok {it : Iteration σ τ α} {sys : NonlinearSystem σ α} {h h' : Head σ τ α}
    (hn : it.headNext sys h = .ok h') :
    ∃ t t', h.data = .ok t ∧ h'.data = .ok t' ∧
      it.pass sys h.value h.residual (h.state, t) = .ok (h'.value, h'.residual) (h'.state, t') := by
  cases hd : h.data with
  | error e => simp [headNext, hd, bind, Except.bind] at hn
  | ok t =>
      cases hp : it.pass sys h.value h.residual (h.state, t) with
      | error e st => simp [headNext_of_pass_error hd hp] at hn
      | ok p st =>
          obtain ⟨u, r⟩ := p
          obtain ⟨s', t'⟩ := st
          rw [headNext_of_pass_ok hd hp] at hn
          cases hn
          exact ⟨t, t', rfl, rfl, hp⟩

/-- Head number `i`, or the first error on the way to it. -/
def headAt [Zero α] (it : Iteration σ τ α) (sys : NonlinearSystem σ α) (guess : Tensor α)
    (s : σ) : Nat → Except (SolveError α) (Head σ τ α)
  | 0 =>
    match start sys guess s with
    | .ok (u, r) s => .ok ⟨s, it.prepare sys s u, u, r⟩
    | .error e _ => .error e
  | i + 1 => it.headAt sys guess s i >>= it.headNext sys

theorem headAt_zero_eq_ok [Zero α] {it : Iteration σ τ α} {sys : NonlinearSystem σ α}
    {guess : Tensor α} {s : σ} {h : Head σ τ α} (hh : it.headAt sys guess s 0 = .ok h) :
    start sys guess s = .ok (h.value, h.residual) h.state ∧
      h.data = it.prepare sys h.state h.value := by
  unfold headAt at hh
  cases hs : start sys guess s with
  | error e s' =>
      rw [hs] at hh
      cases hh
  | ok p s' =>
      rw [hs] at hh
      cases hh
      exact ⟨rfl, rfl⟩

theorem headAt_succ_of_ok [Zero α] {it : Iteration σ τ α} {sys : NonlinearSystem σ α}
    {guess : Tensor α} {s : σ} {i : Nat} {h : Head σ τ α}
    (hh : it.headAt sys guess s i = .ok h) :
    it.headAt sys guess s (i + 1) = it.headNext sys h := by
  rw [headAt, hh]
  rfl

theorem exists_headAt_of_le [Zero α] {it : Iteration σ τ α} {sys : NonlinearSystem σ α}
    {guess : Tensor α} {s : σ} {m i : Nat} {h : Head σ τ α} (hm : m ≤ i)
    (hh : it.headAt sys guess s i = .ok h) : ∃ h', it.headAt sys guess s m = .ok h' := by
  induction i generalizing h with
  | zero =>
      rw [Nat.le_zero.1 hm]
      exact ⟨h, hh⟩
  | succ i ih =>
      by_cases hi : m = i + 1
      · rw [hi]
        exact ⟨h, hh⟩
      · obtain ⟨h', hh', -⟩ := Update.except_bind_eq_ok.1 hh
        exact ih (by omega) hh'

/-! ## Ends -/

section Ends

variable [Zero α] [One α] [Add α] [Neg α] [Mul α] [Div α] [LT α] [DecidableLT α] [Scalar α]
  {it : Iteration σ τ α} {sys : NonlinearSystem σ α} {guess : Tensor α} {s : σ}

omit [Div α] [LT α] [DecidableLT α] [Scalar α] in
/-- A solve ends at its iterate or, where the system feeds an outer differentiation, at the full
Newton step from it, to which the system is then set. -/
theorem finish_eq_ok {u r : Tensor α} {i : Nat} {s' : σ} {sol : Solution α} :
    it.finish sys u r i s = .ok sol s' ↔
      sys.requiresGradient s = false ∧ sol = ⟨.converged, u, i⟩ ∧ s' = s ∨
      sys.requiresGradient s = true ∧ ∃ j s₁ step u', sys.jacobian s = .ok j s₁ ∧
        it.linear.newtonStep r j = .ok step ∧ u.add step = .ok u' ∧
        sys.setSolution u' s₁ = .ok () s' ∧ sol = ⟨.converged, u', i⟩ := by
  unfold finish
  rw [Update.get_bind_apply]
  cases hg : sys.requiresGradient s with
  | false =>
      simp only [Bool.false_eq_true, if_false, true_and, false_and, or_false]
      constructor
      · intro h
        cases h
        exact ⟨rfl, rfl⟩
      · rintro ⟨rfl, rfl⟩
        rfl
  | true =>
      simp only [if_true, Bool.true_eq_false, false_and, true_and, false_or]
      constructor
      · intro h
        obtain ⟨j, s₁, hj, h₁⟩ := Update.bind_eq_ok.1 h
        obtain ⟨step, _, hstep, h₂⟩ := Update.bind_eq_ok.1 h₁
        obtain ⟨u', _, hadd, h₃⟩ := Update.bind_eq_ok.1 h₂
        obtain ⟨_, _, hset, h₄⟩ := Update.bind_eq_ok.1 h₃
        obtain ⟨hstep', rfl⟩ := Update.lift_eq_ok.1 hstep
        obtain ⟨hadd', rfl⟩ := SolveError.lift_eq_ok.1 hadd
        cases h₄
        exact ⟨j, _, step, u', hj, hstep', hadd', hset, rfl⟩
      · rintro ⟨j, s₁, step, u', hj, hstep, hadd, hset, rfl⟩
        refine Update.bind_eq_ok.2 ⟨j, s₁, hj, ?_⟩
        refine Update.bind_eq_ok.2 ⟨step, s₁, Update.lift_eq_ok.2 ⟨hstep, rfl⟩, ?_⟩
        refine Update.bind_eq_ok.2 ⟨u', s₁, SolveError.lift_eq_ok.2 ⟨hadd, rfl⟩, ?_⟩
        exact Update.bind_eq_ok.2 ⟨(), s', hset, rfl⟩

/-- Head `i` exists, has not converged and has data for an update. -/
def Passed (it : Iteration σ τ α) (sys : NonlinearSystem σ α) (guess : Tensor α) (s : σ)
    (initial : List α) (i : Nat) : Prop :=
  ∃ h t, it.headAt sys guess s i = .ok h ∧ h.data = .ok t ∧
    it.tolerances.met h.residual.rowNorms initial = false

/-- How a solve ends at head `i`, with its result or error and the state it leaves. -/
inductive EndsAt (it : Iteration σ τ α) (sys : NonlinearSystem σ α) (guess : Tensor α) (s : σ)
    (initial : List α) : Nat → Except (SolveError α) (Solution α) × σ → Prop
  | converged {i : Nat} {h : Head σ τ α} (hi : i < it.tolerances.maxIterations)
      (hh : it.headAt sys guess s i = .ok h)
      (hm : it.tolerances.met h.residual.rowNorms initial = true) :
      EndsAt it sys guess s initial i ((it.finish sys h.value h.residual i).outcome h.state)
  | limit {i : Nat} {h : Head σ τ α} (hi : i + 1 = it.tolerances.maxIterations)
      (hh : it.headAt sys guess s i = .ok h) :
      EndsAt it sys guess s initial (i + 1)
        (.ok ⟨.iterationLimit, h.value, it.tolerances.maxIterations⟩, h.state)
  | failed {i : Nat} {e : SolveError α} {s' : σ} (hi : i < it.tolerances.maxIterations)
      (hh : it.headAt sys guess s i = .error e) : EndsAt it sys guess s initial i (.error e, s')
  | unprepared {h : Head σ τ α} {e : SolveError α} {s' : σ}
      (hh : it.headAt sys guess s 0 = .ok h)
      (hm : it.tolerances.met h.residual.rowNorms initial = false) (hd : h.data = .error e) :
      EndsAt it sys guess s initial 0 (.error e, s')

theorem loop_succ (it : Iteration σ τ α) (sys : NonlinearSystem σ α) (initial : List α)
    (n i : Nat) (u r : Tensor α) :
    it.loop sys initial (n + 1) i u r = (it.pass sys u r >>= fun (u, r) =>
      if it.tolerances.met r.rowNorms initial then (it.finish sys u r i).onFirst
      else it.loop sys initial n (i + 1) u r) := by
  simp [loop, pass]

theorem solve_of_invalid {e : SolveError α} (h : it.validate = .error e) :
    (it.solve sys guess).outcome s = (.error e, s) := by
  unfold solve
  rw [h]
  rfl

theorem solve_eq (it : Iteration σ τ α) (sys : NonlinearSystem σ α) (guess : Tensor α) :
    it.solve sys guess = (do
      it.validate
      let (u, r) ← start sys guess
      if it.tolerances.met r.rowNorms r.rowNorms then it.finish sys u r 0
      else
        let data ← it.prepare sys (← get) u
        (it.loop sys r.rowNorms (it.tolerances.maxIterations - 1) 1 u r).beside data) := by
  simp [solve, start]

theorem loop_endsAt (initial : List α) {n i : Nat} {h : Head σ τ α} {t : τ}
    (hn : i + n + 1 = it.tolerances.maxIterations) (hh : it.headAt sys guess s i = .ok h)
    (hd : h.data = .ok t) :
    ∃ k, i < k ∧ (∀ m, i < m → m < k → it.Passed sys guess s initial m) ∧
      it.EndsAt sys guess s initial k
        (((it.loop sys initial n (i + 1) h.value h.residual).beside t).outcome h.state) := by
  induction n generalizing i h t with
  | zero =>
      refine ⟨i + 1, by omega, fun m _ _ => by omega, ?_⟩
      exact .limit (by omega) hh
  | succ n ih =>
      rw [loop_succ]
      unfold Update.outcome
      rw [Update.beside_bind_apply]
      cases hp : it.pass sys h.value h.residual (h.state, t) with
      | error e st =>
          have hnext := (headAt_succ_of_ok hh).trans (headNext_of_pass_error hd hp)
          exact ⟨i + 1, by omega, fun m _ _ => by omega, .failed (by omega) hnext⟩
      | ok p st =>
          obtain ⟨u, r⟩ := p
          obtain ⟨s', t'⟩ := st
          have hnext := (headAt_succ_of_ok hh).trans (headNext_of_pass_ok hd hp)
          cases hm : it.tolerances.met r.rowNorms initial with
          | true =>
              refine ⟨i + 1, by omega, fun m _ _ => by omega, ?_⟩
              simp only [hm, if_true, Update.beside_onFirst]
              exact .converged (by omega) hnext hm
          | false =>
              obtain ⟨k, hk, hbetween, hend⟩ := ih (by omega) hnext rfl
              refine ⟨k, by omega, fun m hm₁ hm₂ => ?_, ?_⟩
              · rcases Nat.lt_or_eq_of_le hm₁ with hlt | rfl
                · exact hbetween m hlt hm₂
                · exact ⟨_, t', hnext, rfl, hm⟩
              · simp only [hm, Bool.false_eq_true, if_false]
                exact hend

/-- A solve passes some heads, all tested against the norms at the first one, and ends at
the next head. -/
theorem solve_endsAt (sys : NonlinearSystem σ α) (guess : Tensor α) (s : σ)
    (hv : it.validate = .ok ()) (hmax : 0 < it.tolerances.maxIterations) :
    ∃ k initial, (∀ h, it.headAt sys guess s 0 = .ok h → initial = h.residual.rowNorms) ∧
      (∀ m, m < k → it.Passed sys guess s initial m) ∧
      it.EndsAt sys guess s initial k ((it.solve sys guess).outcome s) := by
  rw [solve_eq, hv, Update.lift_ok_bind]
  unfold Update.outcome
  rw [Update.bind_apply]
  cases hs : start sys guess s with
  | error e s' =>
      have hh : it.headAt sys guess s 0 = .error e := by simp [headAt, hs]
      exact ⟨0, [], by simp [hh], by omega, .failed hmax hh⟩
  | ok p s' =>
      obtain ⟨u, r⟩ := p
      have hh : it.headAt sys guess s 0 = .ok ⟨s', it.prepare sys s' u, u, r⟩ := by
        simp [headAt, hs]
      have hinit : ∀ h, it.headAt sys guess s 0 = .ok h → r.rowNorms = h.residual.rowNorms := by
        intro h h0
        rw [hh] at h0
        cases h0
        rfl
      cases hm : it.tolerances.met r.rowNorms r.rowNorms with
      | true =>
          refine ⟨0, r.rowNorms, hinit, by omega, ?_⟩
          simp only [hm, if_true]
          exact .converged hmax hh hm
      | false =>
          cases hd : it.prepare sys s' u with
          | error e =>
              refine ⟨0, r.rowNorms, hinit, by omega, ?_⟩
              simp only [hm, Bool.false_eq_true, if_false, Update.get_bind_apply, hd]
              exact .unprepared hh hm hd
          | ok t =>
              obtain ⟨k, hk, hbetween, hend⟩ := loop_endsAt r.rowNorms
                (n := it.tolerances.maxIterations - 1) (by omega) hh hd
              refine ⟨k, r.rowNorms, hinit, fun m hmk => ?_, ?_⟩
              · rcases Nat.eq_zero_or_pos m with rfl | hpos
                · exact ⟨_, t, hh, hd, hm⟩
                · exact hbetween m hpos hmk
              · simp only [hm, Bool.false_eq_true, if_false, Update.get_bind_apply, hd]
                exact hend

theorem solve_of_first_met {i : Nat} {first h : Head σ τ α} (hv : it.validate = .ok ())
    (hi : i < it.tolerances.maxIterations) (hfirst : it.headAt sys guess s 0 = .ok first)
    (hpassed : ∀ m < i, it.Passed sys guess s first.residual.rowNorms m)
    (hh : it.headAt sys guess s i = .ok h)
    (hm : it.tolerances.met h.residual.rowNorms first.residual.rowNorms = true) :
    (it.solve sys guess).outcome s =
      (it.finish sys h.value h.residual i).outcome h.state := by
  obtain ⟨k, initial, hinit, hbefore, hend⟩ :=
    solve_endsAt sys guess s hv (Nat.zero_lt_of_lt hi)
  rw [hinit first hfirst] at hbefore hend
  have hk : k ≤ i := by
    apply Nat.le_of_not_lt
    intro hlt
    obtain ⟨h', _, hh', -, hm'⟩ := hbefore i hlt
    rw [hh] at hh'
    cases hh'
    simp [hm] at hm'
  generalize (it.solve sys guess).outcome s = x at hend
  cases hend with
  | converged _ hh' hm' =>
      rcases Nat.lt_or_eq_of_le hk with hlt | rfl
      · obtain ⟨h', _, hp, -, hmp⟩ := hpassed k hlt
        rw [hh'] at hp
        cases hp
        simp [hm'] at hmp
      · rw [hh] at hh'
        cases hh'
        rfl
  | limit hlimit _ => omega
  | failed _ he =>
      obtain ⟨h', hh'⟩ := exists_headAt_of_le hk hh
      rw [he] at hh'
      cases hh'
  | unprepared h0 hm0 hd =>
      rcases Nat.eq_zero_or_pos i with rfl | hpos
      · rw [h0] at hh
        cases hh
        simp [hm] at hm0
      · obtain ⟨h', _, hp, hdp, -⟩ := hpassed 0 hpos
        rw [h0] at hp
        cases hp
        simp [hd] at hdp

end Ends

end Iteration

end TieredCalculus
