import TieredCalculus.Proofs.Newton.Refused

/-! # Singular matrices in an update

An update reports a matrix as singular that elimination refuses, and passes on what the system
reports by itself. Where the Newton steps exist and the entries that leave their regions are in
scale, elimination refuses neither a shifted normal matrix nor the derivative of an equation for a
multiplier. Out of scale it can refuse either one.
-/

namespace TieredCalculus

open Matrix

variable {σ α : Type} {batch : Shape} {n : Nat} [Field α] [LinearOrder α] [Scalar α]

/-! ## Errors without a matrix -/

/-- An error of the system itself, when it is set to some tensor or evaluated there. -/
def NonlinearSystem.Raises (sys : NonlinearSystem σ α) (st : σ) (e : SolveError α) : Prop :=
  ∃ v st', sys.setSolution v st = .error e st' ∨
    ∃ st₁, sys.setSolution v st = .ok () st₁ ∧ sys.residual st₁ = .error e st'

namespace SolveError

variable {β γ : Type} {k : Nat}

omit [Field α] [LinearOrder α] [Scalar α] in
theorem ofTensor_ne_singular (x : Except TensorError β) :
    (liftM x : Except (SolveError α) β) ≠ .error (.singularMatrix k) := by
  cases x with
  | ok b => exact fun h => by cases h
  | error e => exact fun h => by cases h

omit [Field α] [LinearOrder α] [Scalar α] in
theorem liftTensor_ne_singular (x : Except TensorError β) (s s' : σ) :
    (liftM x : Update (SolveError α) σ β) s ≠ .error (.singularMatrix k) s' :=
  fun h => ofTensor_ne_singular x (Update.lift_eq_error.1 h).1

omit [Field α] [LinearOrder α] [Scalar α] in
theorem ofTensor_bind_singular {x : Except TensorError β} {f : β → Except (SolveError α) γ}
    (h : (liftM x >>= f) = .error (.singularMatrix k)) :
    ∃ b, x = .ok b ∧ f b = .error (.singularMatrix k) := by
  rcases Update.except_bind_eq_error.1 h with hx | ⟨b, hx, hf⟩
  · exact absurd hx (ofTensor_ne_singular x)
  · exact ⟨b, ofTensor_eq_ok.1 hx, hf⟩

omit [Field α] [LinearOrder α] [Scalar α] in
theorem liftTensor_bind_singular {x : Except TensorError β}
    {f : β → Update (SolveError α) σ γ} {s s' : σ}
    (h : ((liftM x : Update (SolveError α) σ β) >>= f) s = .error (.singularMatrix k) s') :
    ∃ b, x = .ok b ∧ f b s = .error (.singularMatrix k) s' := by
  rcases Update.bind_eq_error.1 h with hx | ⟨b, s₁, hx, hf⟩
  · exact absurd hx (liftTensor_ne_singular x s s')
  · obtain ⟨hb, rfl⟩ := lift_eq_ok.1 hx
    exact ⟨b, hb, hf⟩

end SolveError

omit [Scalar α] in
theorem Tolerances.validate_ne_singular (t : Tolerances α) (k : Nat) :
    t.validate ≠ .error (.singularMatrix k) := by
  unfold validate
  split
  · exact fun h => by cases h
  · split
    · exact fun h => by cases h
    · exact fun h => by cases h

theorem Subproblem.create_ne_singular (batch : Shape) (r j p : Tensor α) (delta : List α)
    (k : Nat) : create batch r j p delta ≠ .error (.singularMatrix k) := by
  intro h
  obtain ⟨_, -, h⟩ := SolveError.ofTensor_bind_singular h
  obtain ⟨_, -, h⟩ := SolveError.ofTensor_bind_singular h
  obtain ⟨_, -, h⟩ := SolveError.ofTensor_bind_singular h
  split at h
  · cases h
  · cases h

namespace TrustRegion

variable {s : TrustRegion α} {r j x : Tensor α} {delta : List α}

/-- An update reports a singular matrix that its direction refuses, or that the system reports
when it is set to the point moved to or evaluated there. -/
theorem update_eq_singular [BEq α] {sys : NonlinearSystem σ α} {u : Tensor α} {st : σ}
    {st' : σ × List α} {k : Nat}
    (h : s.update sys u r j (st, delta) = .error (.singularMatrix k) st') :
    (∃ batch, Shape.broadcastAll [u.batch, r.batch, j.batch] = .ok batch ∧
      s.direction batch r j (repeatRadius batch.numel delta) = .error (.singularMatrix k)) ∨
      sys.Raises st (.singularMatrix k) := by
  unfold update at h
  obtain ⟨batch, hbatch, h⟩ := SolveError.liftTensor_bind_singular h
  replace h := (repeatRadius_bind_apply _ _ st delta).symm.trans h
  rcases Update.bind_eq_error.1 h with h | ⟨p, _, hp, h⟩
  · exact .inl ⟨batch, hbatch, (Update.lift_eq_error.1 h).1⟩
  obtain ⟨-, rfl⟩ := Update.lift_eq_ok.1 hp
  obtain ⟨u₀, -, h⟩ := SolveError.liftTensor_bind_singular h
  obtain ⟨r₀, -, h⟩ := SolveError.liftTensor_bind_singular h
  obtain ⟨j₀, -, h⟩ := SolveError.liftTensor_bind_singular h
  obtain ⟨sum, -, h⟩ := SolveError.liftTensor_bind_singular h
  obtain ⟨moved, -, h⟩ := SolveError.liftTensor_bind_singular h
  rcases Update.bind_eq_error.1 h with h | ⟨_, ⟨st₂, _⟩, hset, h⟩
  · exact .inr ⟨moved, st'.1, .inl (Update.onFirst_eq_error.1 h).1⟩
  obtain ⟨hset', rfl⟩ := Update.onFirst_eq_ok.1 hset
  rcases Update.bind_eq_error.1 h with h | ⟨r₁, ⟨st₃, _⟩, hres, h⟩
  · exact .inr ⟨moved, st'.1, .inr ⟨st₂, hset', (Update.onFirst_eq_error.1 h).1⟩⟩
  -- The residual there is judged with tensors only.
  obtain ⟨r₂, -, h⟩ := SolveError.liftTensor_bind_singular h
  rcases Update.bind_eq_error.1 h with h | ⟨_, _, -, h⟩
  · cases h
  · exact absurd h (SolveError.liftTensor_ne_singular _ _ _)

variable [IsStrictOrderedRing α]

theorem direction_ne_singular (hroot : Scalar.RootExact α) (hlin : s.linear = .dense)
    (hx : (LinearSolver.dense : LinearSolver α).newtonStep r j = .ok x) (hr : r.Packed n)
    (hrb : r.batch.expandsTo batch = true) (hjb : j.batch.expandsTo batch = true)
    (hpos : ∀ d ∈ delta, 0 < d)
    (hscale : ∀ {b : Index}, Shape.InBounds batch b →
      (modelAt n batch r j x delta b).inside = false →
        QuadraticModel.InScale (Lu.threshold : α) (r.runAt n b) (j.squareAt n b))
    (k : Nat) : s.direction batch r j delta ≠ .error (.singularMatrix k) := by
  intro h
  have hpeel := h
  unfold direction at hpeel
  rw [hlin] at hpeel
  rcases Update.except_bind_eq_error.1 hpeel with hstep | ⟨_, hstep, hpeel⟩
  · cases hx.symm.trans hstep
  cases hx.symm.trans hstep
  obtain ⟨newton, hnewton, hpeel⟩ := SolveError.ofTensor_bind_singular hpeel
  rcases Update.except_bind_eq_error.1 hpeel with hcreate | ⟨sub, hcreate, -⟩
  · exact Subproblem.create_ne_singular _ _ _ _ _ _ hcreate
  obtain ⟨n', hr', hj, hxp, hrows⟩ := newtonStep_rows LinearSolver.dense_exact hx
  cases hr.2.symm.trans hr'.2
  obtain ⟨hxb, -⟩ := hxp.expandBatch hnewton
  have hdelta := Subproblem.length_of_create hcreate
  obtain ⟨_, models, hnewton', hnb, hnp, hsub, hlen, hentry⟩ :=
    create_entries hrb hr hjb hj hxb hxp hdelta
  cases hnewton.symm.trans hnewton'
  rw [direction_eq hlin hx hnewton hsub] at h
  split at h
  · cases h
  rcases Update.except_bind_eq_error.1 h with hsolve | ⟨c, -, hpick⟩
  · cases hvalid : s.subproblem.validate with
    | ok u =>
        obtain ⟨extra, b, e, hb, he, -⟩ := (constrained_entries (p := fun b => x.runAt n b) hvalid
          hlen (fun hb => (hentry hb).2) rfl).2 _ hsolve
        have haccepted : QuadraticModel.Accepted (r.runAt n b) (j.squareAt n b) (x.runAt n b)
            (radiusAt batch delta b) :=
          ⟨hpos _ (radiusAt_mem hdelta hb), funext (hrows hxb hb), hscale hb⟩
        obtain ⟨d, hd⟩ := haccepted.direction_isOk hroot s.subproblem (x.runAt n b) (extra b)
        cases hd.symm.trans he
    | error e =>
        rw [Iteration.solve_of_invalid hvalid] at hsolve
        cases hsolve
        exact s.subproblem.validate_ne_singular k hvalid
  · obtain ⟨d, hd, -⟩ := pickSteps_rows (c := c) hnp hlen
    cases hd.symm.trans hpick

/-- An update whose Newton steps exist reports no singular matrix of its own where the entries
that leave their regions are in scale: not from a shifted normal matrix, and not from the
iteration for a multiplier. -/
theorem update_ne_singular [BEq α] {sys : NonlinearSystem σ α} {u : Tensor α} {st : σ} {k : Nat}
    (hroot : Scalar.RootExact α) (hlin : s.linear = .dense)
    (hx : (LinearSolver.dense : LinearSolver α).newtonStep r j = .ok x) (hr : r.Packed n)
    (hpos : ∀ d ∈ delta, 0 < d)
    (hscale : ∀ {batch : Shape} {b : Index},
      Shape.broadcastAll [u.batch, r.batch, j.batch] = .ok batch → Shape.InBounds batch b →
        (modelAt n batch r j x (repeatRadius batch.numel delta) b).inside = false →
          QuadraticModel.InScale (Lu.threshold : α) (r.runAt n b) (j.squareAt n b))
    (hsys : ¬sys.Raises st (.singularMatrix k)) (st' : σ × List α) :
    s.update sys u r j (st, delta) ≠ .error (.singularMatrix k) st' := by
  intro h
  rcases update_eq_singular h with ⟨batch, hbatch, hdirection⟩ | hraises
  · have hexpands := Shape.broadcastAll_expandsTo hbatch
    exact direction_ne_singular hroot hlin hx hr (hexpands _ (by simp)) (hexpands _ (by simp))
      (fun d hd => hpos d (mem_of_mem_repeatRadius hd)) (hscale hbatch) k hdirection
  · exact hsys hraises

omit [Field α] [LinearOrder α] [Scalar α] [IsStrictOrderedRing α] in
theorem entrywise_not_raises (f : α → α) (j : Tensor α) (st : Option (Tensor α))
    (e : SolveError α) : ¬(NonlinearSystem.entrywise f j).Raises st e := by
  rintro ⟨v, st', h | ⟨st₁, hset, h⟩⟩
  · cases h
  · cases hset
    cases h

omit [Scalar α] in
theorem standard_subproblem_validate (linear : LinearSolver α) :
    (standard linear : TrustRegion α).subproblem.validate = .ok () := by
  apply Tolerances.validate_eq_ok.2
  norm_num [standard]

omit [Scalar α] in
theorem standard_validate (linear : LinearSolver α) :
    (standard linear : TrustRegion α).validate = .ok () := by
  have hsolve : (standard linear : TrustRegion α).tolerances.validate = .ok () := by
    apply Tolerances.validate_eq_ok.2
    norm_num [standard, Tolerances.standard]
  refine validate_eq_ok.2 ⟨hsolve, standard_subproblem_validate linear, ?_, ?_, ?_⟩
  · norm_num [standard]
  · norm_num [standard]
  · norm_num [standard]

/-- A turn by an eighth, stretched. -/
def turned : Tensor ℝ := ⟨[], [], [2, 2], #[1, -1, 1, 1], rfl⟩

/-- The residual of a Newton step of squared length eight. -/
def pushed : Tensor ℝ := ⟨[], [], [2], #[4, 0], rfl⟩

theorem turned_stretch (x : Fin 2 → ℝ) : ((turned.squareAt 2 []).toMatrix *ᵥ x) ⬝ᵥ
    ((turned.squareAt 2 []).toMatrix *ᵥ x) = 2 * (x ⬝ᵥ x) := by
  have hfirst : ((turned.squareAt 2 []).toMatrix *ᵥ x) 0 = 1 * x 0 + -1 * x 1 := by
    rw [mulVec, dotProduct, Fin.sum_univ_two]
    rfl
  have hsecond : ((turned.squareAt 2 []).toMatrix *ᵥ x) 1 = 1 * x 0 + 1 * x 1 := by
    rw [mulVec, dotProduct, Fin.sum_univ_two]
    rfl
  rw [dotProduct, dotProduct, Fin.sum_univ_two, Fin.sum_univ_two, hfirst, hsecond]
  ring

theorem turned_inScale :
    QuadraticModel.InScale (Lu.threshold : ℝ) (pushed.runAt 2 []) (turned.squareAt 2 []) where
  stretch := by
    intro x
    rw [turned_stretch, mul_pow]
    apply mul_le_mul_of_nonneg_right _ (sq_nonneg _)
    show ((2 : ℕ) : ℝ) * 1e-12 ^ 2 ≤ 2 ^ 2
    norm_num
  gradient := by
    rw [dotProduct, Fin.sum_univ_two, mulVec, mulVec, dotProduct, dotProduct, Fin.sum_univ_two,
      Fin.sum_univ_two]
    show (1e-12 : ℝ) ^ 2 * ((1 * 4 + 1 * 0) * (1 * 4 + 1 * 0) +
      (-1 * 4 + 1 * 0) * (-1 * 4 + 1 * 0)) ≤ 1
    norm_num

theorem turned_leaves : ∃ x, (LinearSolver.dense : LinearSolver ℝ).newtonStep pushed turned = .ok x ∧
    (modelAt 2 [] pushed turned x [1] []).inside = false := by
  obtain ⟨lu, hlu⟩ := Lu.exists_factor_of_stretch (LinearSolver.threshold_pos (α := ℝ))
    (a := turned.squareAt 2 []) fun x => by
      rw [turned_stretch]
      apply mul_le_mul_of_nonneg_right _ (dot_self_nonneg x)
      show ((2 : ℕ) : ℝ) * 1e-12 ^ 2 ≤ 2
      norm_num
  obtain ⟨q, hq, hsolve⟩ := Lu.entryStep_of_factor hlu (pushed.runAt 2 [])
  obtain ⟨x, hx, hrun⟩ := newtonStep_of_entry rfl ⟨rfl, rfl⟩ rfl ⟨rfl, rfl⟩ hq
  have hlength : 2 * (q.get ⬝ᵥ q.get) = 16 := by
    rw [← turned_stretch, hsolve, neg_dotProduct_neg, dotProduct, Fin.sum_univ_two]
    show (4 * 4 + 0 * 0 : ℝ) = 16
    norm_num
  refine ⟨x, hx, QuadraticModel.outside_of_lt Scalar.rootExact_real zero_le_one ?_⟩
  rw [hrun]
  show (1 + 1) * (1 : ℝ) < q.get ⬝ᵥ q.get
  linarith

/-- An update in scale with a Newton step that leaves its region. -/
theorem update_turned_ne_singular :
    let s : TrustRegion ℝ := standard .dense
    let u : Tensor ℝ := ⟨[], [], [2], #[0, 0], rfl⟩
    let sys := NonlinearSystem.entrywise id turned
    Scalar.RootExact ℝ ∧ s.linear = .dense ∧ pushed.Packed 2 ∧ (∀ d ∈ [(1 : ℝ)], 0 < d) ∧
      (∃ x, (LinearSolver.dense : LinearSolver ℝ).newtonStep pushed turned = .ok x ∧
        (modelAt 2 [] pushed turned x [1] []).inside = false) ∧
      QuadraticModel.InScale (Lu.threshold : ℝ) (pushed.runAt 2 []) (turned.squareAt 2 []) ∧
      (∀ k, ¬sys.Raises none (.singularMatrix k)) ∧
      ∀ k st', s.update sys u pushed turned (none, [1]) ≠ .error (.singularMatrix k) st' := by
  intro s u sys
  obtain ⟨x, hx, hinside⟩ := turned_leaves
  have hpacked : pushed.Packed 2 := ⟨rfl, rfl⟩
  have hpos : ∀ d ∈ [(1 : ℝ)], 0 < d := by simp
  have hsys : ∀ k, ¬sys.Raises none (.singularMatrix k) := fun k => entrywise_not_raises _ _ _ _
  refine ⟨Scalar.rootExact_real, rfl, hpacked, hpos, ⟨x, hx, hinside⟩, turned_inScale, hsys,
    fun k => ?_⟩
  apply update_ne_singular Scalar.rootExact_real rfl hx hpacked hpos _ (hsys k)
  intro batch b hbatch hb _
  cases hbatch
  obtain rfl := List.eq_nil_of_length_eq_zero hb.length_eq
  exact turned_inScale

/-! ## One number -/

def point (x : α) : Tensor α := ⟨[], [], [1], #[x], rfl⟩

def slope (a : α) : Tensor α := ⟨[], [], [1, 1], #[a], rfl⟩

/-- The equation `c + a x = 0`. -/
def line (c a : α) : NonlinearSystem (Option (Tensor α)) α :=
  .entrywise (fun x => c + a * x) (slope a)

/-- The equation `c + a x = 0` has a Newton step from zero, but its update with the radius
parameter `d` reports a singular matrix. -/
def RefusedOnLine (c a d : ℝ) : Prop :=
  (∃ x, (LinearSolver.dense : LinearSolver ℝ).newtonStep (point c) (slope a) = .ok x) ∧
    (standard .dense : TrustRegion ℝ).update (line c a) (point 0) (point c) (slope a) (none, [d]) =
      .error (.singularMatrix 0) (none, [d])

theorem refusedOnLine {c a d : ℝ} (ha : Lu.threshold ≤ |a|) (hd : 0 ≤ d)
    (hlt : (1 + 1) * d * (a * a) < c * c)
    (h : ∀ {q : Vector ℝ 1}, a * q.get 0 = -c →
      (QuadraticModel.ofEntry ((point c).runAt 1 []) ((slope a).squareAt 1 []) q d).inside = false →
        ∀ extra, (QuadraticModel.ofEntry ((point c).runAt 1 []) ((slope a).squareAt 1 [])
          q d).direction (standard .dense : TrustRegion ℝ).subproblem q extra =
            .error (.singularMatrix 0)) : RefusedOnLine c a d := by
  have hpoint : (point c).Packed 1 := ⟨rfl, rfl⟩
  have hslope : (slope a).PackedSquare 1 := ⟨rfl, rfl⟩
  obtain ⟨q, hentry, hq⟩ := QuadraticModel.newton_number (j := (slope a).squareAt 1 [])
    ((point c).runAt 1 []) ha
  have houtside := QuadraticModel.outside_number Scalar.rootExact_real hd hq hlt
  obtain ⟨x, hx, -⟩ := newtonStep_of_entry rfl hpoint rfl hslope hentry
  exact ⟨⟨x, hx⟩, update_entry_refused rfl (standard_subproblem_validate _) rfl rfl hpoint rfl
    hslope hentry (h hq houtside)⟩

/-- The Newton step of `1 + 10⁻⁷ x = 0` leaves the unit interval, and the square of its slope is
refused. -/
theorem flat_refused : RefusedOnLine 1 (1 / 10 ^ 7) (1 / 2) := by
  apply refusedOnLine
  · show (1e-12 : ℝ) ≤ |1 / 10 ^ 7|
    rw [abs_of_pos (by norm_num)]
    norm_num
  · norm_num
  · norm_num
  · intro q _ houtside
    apply QuadraticModel.direction_of_normal_refused houtside
    show (1 / 10 ^ 7 * (1 / 10 ^ 7) : ℝ) < 1e-12
    norm_num

/-- The Newton step of `10⁶ + 10⁷ x = 0` is ten times as long as the radius, and the derivative of
the equation for the multiplier, the reciprocal of `10¹³`, is refused. -/
theorem steep_refused : RefusedOnLine (10 ^ 6) (10 ^ 7) (1 / 20000) := by
  apply refusedOnLine
  · show (1e-12 : ℝ) ≤ |10 ^ 7|
    rw [abs_of_pos (by norm_num)]
    norm_num
  · norm_num
  · norm_num
  · intro q hq houtside
    have hnewton : q.get 0 = -(1 / 10) := by linarith
    have hradius : (QuadraticModel.ofEntry ((point (10 ^ 6)).runAt 1 [])
        ((slope (10 ^ 7)).squareAt 1 []) q (1 / 20000)).radius = 1 / 100 := by
      have hsq : ((1 + 1) * (1 / 20000) : ℝ) = 1 / 100 * (1 / 100) := by norm_num
      show Scalar.sqrt ((1 + 1) * (1 / 20000) : ℝ) = 1 / 100
      rw [hsq, Scalar.rootExact_real.sqrt_mul_self, abs_of_pos (by norm_num)]
    have hstart : 1 / |q.get 0| - 1 / (QuadraticModel.ofEntry ((point (10 ^ 6)).runAt 1 [])
        ((slope (10 ^ 7)).squareAt 1 []) q (1 / 20000)).radius = -90 := by
      rw [hradius, hnewton, abs_neg, abs_of_pos (by norm_num)]
      norm_num
    apply QuadraticModel.direction_of_slope_refused Scalar.rootExact_real houtside _ hq
    · show (10 ^ 6 : ℝ) ≠ 0
      norm_num
    · show 1 / |(10 ^ 7 * 10 ^ 6 : ℝ)| < 1e-12
      rw [abs_of_pos (by norm_num)]
      norm_num
    · show 2 ≤ 10
      norm_num
    · show (1e-6 : ℝ) ≤ 1
      norm_num
    · rw [hstart, abs_neg, abs_of_pos (by norm_num)]
      show (1e-8 : ℝ) ≤ 90
      norm_num
    · rw [hstart]
      norm_num
    · show (1e-12 : ℝ) ≤ 10 ^ 7 * 10 ^ 7
      norm_num

/-- A Jacobian with a Newton step need not have an update: its square can be refused, and so can
the derivative of the equation for the multiplier. -/
theorem accepted_jacobians_refused :
    let s : TrustRegion ℝ := standard .dense
    Scalar.RootExact ℝ ∧ s.linear = .dense ∧ s.validate = .ok () ∧
      (∀ c a e, ¬(line c a : NonlinearSystem _ ℝ).Raises none e) ∧
      RefusedOnLine 1 (1 / 10 ^ 7) (1 / 2) ∧ RefusedOnLine (10 ^ 6) (10 ^ 7) (1 / 20000) :=
  ⟨Scalar.rootExact_real, rfl, standard_validate _, fun _ _ _ => entrywise_not_raises _ _ _ _,
    flat_refused, steep_refused⟩

end TrustRegion

end TieredCalculus
