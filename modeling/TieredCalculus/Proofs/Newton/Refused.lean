import TieredCalculus.Proofs.Newton.Scale

/-! # Directions that are refused

An iteration for a multiplier that fails within the iterations its entry asks for fails in every
batch, and the direction of the entry fails with it. It fails at the start where the normal
matrix is refused without a shift, and behind the first iteration where the derivative at the
start is too small for a pivot.
-/

namespace TieredCalculus

open Matrix

variable {σ α : Type} {n : Nat}

section Numbers

variable [Field α] [LinearOrder α]

theorem Lu.factor?_eq_none {eps : α} {a : Square α (n + 1)} (h : ∀ i, Scalar.abs (a i 0) < eps) :
    factor? eps a = none := by
  rw [factor?, List.finRange_succ, List.foldlM_cons, eliminate]
  dsimp only
  rw [if_neg (not_le.2 (h _))]
  rfl

theorem Lu.entryStep_refused (v : Vector α 1) {d : α} (hd : Scalar.abs d < threshold) :
    entryStep v (.ofFn fun _ _ => d) = .error (.singularMatrix 0) := by
  have hnone : factor? threshold (.ofFn fun _ _ => d : Square α 1) = none :=
    factor?_eq_none fun i => (Square.ofFn_apply (fun _ _ => d) i 0).symm ▸ hd
  rw [entryStep, hnone]

end Numbers

variable [Field α] [LinearOrder α] [Scalar α]

namespace QuadraticModel

variable {m : QuadraticModel α n} {t : Tolerances α} {p : Vector α n} {e : SolveError α}

theorem direction_refused {i : Nat} (hi : i ≤ m.stop t)
    (h : m.boundary.run Newton.entryNext (.replicate 1 0) i = .error e) (extra : Nat) :
    m.direction t p extra = .error e := by
  rw [direction, EntryFunctions.run_error h (Nat.le_add_right_of_le hi)]
  rfl

theorem run_of_normal_refused (houtside : m.inside = false)
    (h : m.step? Lu.threshold 0 = none) :
    m.boundary.run Newton.entryNext (.replicate 1 0) 0 = .error (.singularMatrix 0) := by
  have heq : Subproblem.equation ⟨[], n, [m]⟩ m (numberOf (.replicate 1 0)) 0 =
      .error (.singularMatrix 0) := by
    have hzero : numberOf (.replicate 1 0 : Vector α 1) = 0 := rfl
    unfold Subproblem.equation Subproblem.entryStep
    rw [houtside, hzero, h]
    rfl
  rw [EntryFunctions.run, (Subproblem.boundary_eq_error heq).1]
  rfl

theorem run_of_slope_refused {v d : α}
    (h : Subproblem.equation ⟨[], n, [m]⟩ m 0 0 = .ok (v, d)) (hd : Scalar.abs d < Lu.threshold) :
    m.boundary.run Newton.entryNext (.replicate 1 0) 1 = .error (.singularMatrix 0) := by
  obtain ⟨hresidual, hjacobian⟩ := Subproblem.boundary_eq_ok (v := .replicate 1 0) h
  have hstart : m.boundary.run Newton.entryNext (.replicate 1 0) 0 =
      .ok (.replicate 1 0, #v[v]) := by
    rw [EntryFunctions.run, hresidual]
    rfl
  rw [EntryFunctions.run_succ hstart, EntryFunctions.update, hjacobian]
  change (Newton.entryNext _ _ (.ofFn fun _ _ => d) >>= _) = _
  rw [Newton.entryNext, Lu.entryStep_refused _ hd]
  rfl

theorem one_le_stop (houtside : m.inside = false) (hlimit : 2 ≤ t.maxIterations)
    (h : m.boundary.settled t 0 = false) : 1 ≤ m.stop t := by
  have hne : m.stop t ≠ 0 := by
    intro hzero
    unfold stop at hzero
    rw [houtside] at hzero
    simp only [Bool.false_eq_true, if_false] at hzero
    cases hfind : (List.range (t.maxIterations - 1)).find? (m.boundary.settled t) with
    | none =>
        rw [hfind] at hzero
        change t.maxIterations - 1 = 0 at hzero
        omega
    | some i =>
        obtain ⟨hi, -, -⟩ := List.find?_range_eq_some.1 hfind
        rw [hfind] at hzero
        cases hzero
        exact Bool.false_ne_true (h.symm.trans hi)
  omega

/-! ## Regions of one number -/

section Number

variable [IsStrictOrderedRing α] {r q : Vector α n} {j : Square α n} {delta : α}

theorem outside_of_lt (hroot : Scalar.RootExact α) (hdelta : 0 ≤ delta)
    (h : (1 + 1) * delta < q.get ⬝ᵥ q.get) : (ofEntry r j q delta).inside = false := by
  obtain ⟨hradius, hradius_sq⟩ := hroot ((1 + 1) * delta) (by positivity)
  obtain ⟨hnorm, hnorm_sq⟩ := hroot (q.get ⬝ᵥ q.get) (dot_self_nonneg q.get)
  unfold ofEntry
  dsimp only
  rw [decide_eq_false_iff_not, Linear.norm_toList, not_le]
  rw [← hradius_sq, ← hnorm_sq] at h
  exact lt_of_mul_self_lt_mul_self₀ hnorm h

variable {r q : Vector α 1} {j : Square α 1}

omit [IsStrictOrderedRing α] in
theorem shifted_number : (ofEntry r j q delta).shifted 0 0 0 = j 0 0 * j 0 0 := by
  rw [ofEntry_shifted_apply, Fin.sum_univ_one, if_pos rfl, Scalar.positivePart,
    if_neg (lt_irrefl 0), add_zero]

theorem step?_number_eq_none (h : j 0 0 * j 0 0 < Lu.threshold) :
    (ofEntry r j q delta).step? Lu.threshold 0 = none := by
  have hnone : Lu.factor? Lu.threshold ((ofEntry r j q delta).shifted 0) = none := by
    apply Lu.factor?_eq_none
    intro i
    rw [Fin.fin_one_eq_zero i, shifted_number, Scalar.abs_eq_abs,
      abs_of_nonneg (mul_self_nonneg _)]
    exact h
  rw [step?, hnone]
  rfl

omit [IsStrictOrderedRing α] [Scalar α] [LinearOrder α] in
theorem shiftedNormal_number (x : Fin 1 → α) :
    (shiftedNormal j.toMatrix 0 *ᵥ x) 0 = j 0 0 * j 0 0 * x 0 := by
  unfold shiftedNormal
  rw [zero_smul, add_zero, mulVec, dotProduct, Fin.sum_univ_one, Matrix.mul_apply,
    Fin.sum_univ_one]
  rfl

theorem step_number (hj : Lu.threshold ≤ j 0 0 * j 0 0) (hq : j 0 0 * q.get 0 = -r.get 0) :
    ∃ p lu, (ofEntry r j q delta).step? Lu.threshold 0 = some (p, lu) ∧ p.get 0 = q.get 0 ∧
      j 0 0 * j 0 0 * (lu.solve p).get 0 = q.get 0 := by
  have hgradient : (j.toMatrixᵀ *ᵥ r.get) 0 = j 0 0 * r.get 0 := by
    rw [mulVec, dotProduct, Fin.sum_univ_one]
    rfl
  have hne : j 0 0 * j 0 0 ≠ 0 := (LinearSolver.threshold_pos.trans_le hj).ne'
  obtain ⟨lu, hlu⟩ := Lu.exists_factor_number (a := (ofEntry r j q delta).shifted 0)
    (by rwa [shifted_number, abs_of_nonneg (mul_self_nonneg _)])
  obtain ⟨p, hp⟩ : ∃ p, (ofEntry r j q delta).step? Lu.threshold 0 = some (p, lu) :=
    ⟨_, by rw [step?, hlu]; rfl⟩
  obtain ⟨hstep, hsolve⟩ := step_mulVec LinearSolver.threshold_pos hp
  rw [Scalar.positivePart_of_nonpos le_rfl] at hstep hsolve
  have hnewton : p.get 0 = q.get 0 := by
    apply mul_left_cancel₀ hne
    rw [← shiftedNormal_number, hstep, Pi.neg_apply, hgradient, mul_assoc, hq, mul_neg]
  refine ⟨p, lu, hp, hnewton, ?_⟩
  rw [← shiftedNormal_number, hsolve, hnewton]

omit [Scalar α] in
/-- The derivative of the equation for a multiplier, with one number, is the reciprocal of the
length of the gradient. -/
theorem derivative_number {a c x y : α} (hx : a * x = -c) (hy : a * a * y = x) (hne : c ≠ 0) :
    x * y / (|x| * |x| * |x|) = 1 / |a * c| := by
  have hx0 : |x| ≠ 0 := by
    intro hzero
    rw [abs_eq_zero.1 hzero, mul_zero] at hx
    exact hne (neg_eq_zero.1 hx.symm)
  have ha0 : a ≠ 0 := by
    rintro rfl
    rw [zero_mul] at hx
    exact hne (neg_eq_zero.1 hx.symm)
  have hlength : |a * c| = a * a * |x| := by
    rw [← abs_neg, ← mul_neg, ← hx, ← mul_assoc, abs_mul, abs_of_nonneg (mul_self_nonneg a)]
  rw [hlength, div_eq_div_iff (by positivity) (by positivity)]
  calc x * y * (a * a * |x|) = x * (a * a * y) * |x| := by ring
    _ = 1 * (|x| * |x| * |x|) := by rw [hy, one_mul, abs_mul_abs_self]

theorem norm_number (hroot : Scalar.RootExact α) (p : Vector α 1) :
    Linear.norm p.toList = |p.get 0| := by
  rw [Linear.norm_toList, dotProduct, Fin.sum_univ_one, hroot.sqrt_mul_self]

theorem equation_number (hroot : Scalar.RootExact α)
    (houtside : (ofEntry r j q delta).inside = false) (hj : Lu.threshold ≤ j 0 0 * j 0 0)
    (hq : j 0 0 * q.get 0 = -r.get 0) (hne : r.get 0 ≠ 0) :
    Subproblem.equation ⟨[], 1, [ofEntry r j q delta]⟩ (ofEntry r j q delta) 0 0 =
      .ok (1 / |q.get 0| - 1 / (ofEntry r j q delta).radius, 1 / |j 0 0 * r.get 0|) := by
  obtain ⟨p, lu, hp, hnewton, hsolve⟩ := step_number (r := r) hj hq
  have hdot : Linear.dot p.toList (lu.solve p).toList = q.get 0 * (lu.solve p).get 0 := by
    rw [Linear.dot_toList, Fin.sum_univ_one, hnewton]
  rw [← derivative_number hq hsolve hne, ← hdot, ← hnewton, ← norm_number hroot p]
  exact Subproblem.equation_of_step houtside hp

theorem settled_start (hroot : Scalar.RootExact α) {m : QuadraticModel α n} {v d : α}
    (h : Subproblem.equation ⟨[], n, [m]⟩ m 0 0 = .ok (v, d)) (hv : t.absolute ≤ |v|)
    (hne : v ≠ 0) (hrelative : t.relative ≤ 1) : m.boundary.settled t 0 = false := by
  have hstart : m.boundary.run Newton.entryNext (.replicate 1 0) 0 =
      .ok (.replicate 1 0, #v[v]) := by
    rw [EntryFunctions.run, (Subproblem.boundary_eq_ok (v := .replicate 1 0) h).1]
    rfl
  have hnorm : Linear.norm (#v[v] : Vector α 1).toList = |v| := norm_number hroot #v[v]
  unfold EntryFunctions.settled
  rw [hstart]
  dsimp only
  rw [hnorm]
  simp [Tolerances.met, hv, hrelative, hne]

omit [Scalar α] in
theorem newton_number (r : Vector α 1) (h : Lu.threshold ≤ |j 0 0|) :
    ∃ q, Lu.entryStep r j = .ok q ∧ j 0 0 * q.get 0 = -r.get 0 := by
  obtain ⟨lu, hlu⟩ := Lu.exists_factor_number h
  obtain ⟨q, hq, hsolve⟩ := Lu.entryStep_of_factor hlu r
  refine ⟨q, hq, ?_⟩
  have hrow := congrFun hsolve 0
  rw [mulVec, dotProduct, Fin.sum_univ_one] at hrow
  exact hrow

theorem outside_number (hroot : Scalar.RootExact α) (hdelta : 0 ≤ delta)
    (hq : j 0 0 * q.get 0 = -r.get 0)
    (h : (1 + 1) * delta * (j 0 0 * j 0 0) < r.get 0 * r.get 0) :
    (ofEntry r j q delta).inside = false := by
  apply outside_of_lt hroot hdelta
  have hsq : r.get 0 * r.get 0 = q.get 0 * q.get 0 * (j 0 0 * j 0 0) := by
    rw [← neg_mul_neg (r.get 0), ← hq]
    ring
  rw [hsq] at h
  rw [dotProduct, Fin.sum_univ_one]
  exact lt_of_mul_lt_mul_right h (mul_self_nonneg _)

/-- Outside its region a Jacobian of one number has no direction where its square is smaller
than a pivot. -/
theorem direction_of_normal_refused (houtside : (ofEntry r j q delta).inside = false)
    (h : j 0 0 * j 0 0 < Lu.threshold) (extra : Nat) :
    (ofEntry r j q delta).direction t q extra = .error (.singularMatrix 0) :=
  direction_refused (Nat.zero_le _) (run_of_normal_refused houtside (step?_number_eq_none h)) extra

/-- Outside its region a Jacobian of one number has no direction where the gradient is longer
than the reciprocal of a pivot, unless the multiplier zero passes its test. -/
theorem direction_of_slope_refused (hroot : Scalar.RootExact α)
    (houtside : (ofEntry r j q delta).inside = false) (hj : Lu.threshold ≤ j 0 0 * j 0 0)
    (hq : j 0 0 * q.get 0 = -r.get 0) (hne : r.get 0 ≠ 0)
    (h : 1 / |j 0 0 * r.get 0| < Lu.threshold) (hlimit : 2 ≤ t.maxIterations)
    (hrelative : t.relative ≤ 1)
    (hv : t.absolute ≤ |1 / |q.get 0| - 1 / (ofEntry r j q delta).radius|)
    (hv0 : 1 / |q.get 0| - 1 / (ofEntry r j q delta).radius ≠ 0) (extra : Nat) :
    (ofEntry r j q delta).direction t q extra = .error (.singularMatrix 0) := by
  have hequation := equation_number hroot houtside hj hq hne
  have hsmall : Scalar.abs (1 / |j 0 0 * r.get 0|) < Lu.threshold := by
    rwa [Scalar.abs_eq_abs, abs_of_nonneg (by positivity)]
  have hstop := one_le_stop houtside hlimit (settled_start hroot hequation hv hv0 hrelative)
  exact direction_refused hstop (run_of_slope_refused hequation hsmall) extra

end Number

end QuadraticModel

namespace TrustRegion

variable {s : TrustRegion α} {r j : Tensor α} {delta : List α} {e : SolveError α}

theorem direction_refused (hlin : s.linear = .dense) (hsub : s.subproblem.validate = .ok ())
    (hrb : r.batch = []) (hr : r.Packed n) (hjb : j.batch = []) (hj : j.PackedSquare n)
    (hdelta : delta.length = 1)
    (h : ∀ extra, entryDirection s.subproblem (r.runAt n []) (j.squareAt n [])
      (radiusAt [] delta []) extra = .error (.singularMatrix 0)) :
    s.direction [] r j delta = .error (.singularMatrix 0) := by
  obtain ⟨hok, herr⟩ := direction_entries hlin hsub hrb hr
    (hjb ▸ Shape.expandsTo_refl j.batch : j.batch.expandsTo [] = true) hj hdelta
  cases hd : s.direction [] r j delta with
  | ok d =>
      obtain ⟨extra, -, hc⟩ := hok d hd
      cases (h _).symm.trans (hc.run_eq (b := []) trivial)
  | error e =>
      obtain ⟨extra, b, e', hb, he, hraised⟩ := herr e hd
      obtain rfl := List.eq_nil_of_length_eq_zero hb.length_eq
      cases (h _).symm.trans he
      rcases hraised with rfl | ⟨-, rfl⟩
      · rfl
      · rfl

theorem update_refused [BEq α] {sys : NonlinearSystem σ α} {u : Tensor α} {st : σ}
    {batch : Shape} (hbatch : Shape.broadcastAll [u.batch, r.batch, j.batch] = .ok batch)
    (h : s.direction batch r j (repeatRadius batch.numel delta) = .error e) :
    s.update sys u r j (st, delta) = .error e (st, repeatRadius batch.numel delta) := by
  unfold update
  rw [hbatch]
  refine Update.bind_eq_error.2 (.inr ⟨batch, _, SolveError.lift_eq_ok.2 ⟨rfl, rfl⟩, ?_⟩)
  refine (repeatRadius_bind_apply _ _ st delta).trans ?_
  exact Update.bind_eq_error.2 (.inl (Update.lift_eq_error.2 ⟨h, rfl⟩))

omit [Scalar α] in
theorem newtonStep_of_entry (hrb : r.batch = []) (hr : r.Packed n) (hjb : j.batch = [])
    (hj : j.PackedSquare n) {q : Vector α n}
    (hq : Lu.entryStep (r.runAt n []) (j.squareAt n []) = .ok q) :
    ∃ x, (LinearSolver.dense : LinearSolver α).newtonStep r j = .ok x ∧ x.runAt n [] = q := by
  have hexpands : j.batch.expandsTo [] = true := hjb ▸ Shape.expandsTo_refl j.batch
  obtain ⟨hok, herr⟩ := LinearSolver.newtonStep_entries hrb hr hexpands hj
  cases hx : (LinearSolver.dense : LinearSolver α).newtonStep r j with
  | ok x =>
      refine ⟨x, rfl, ?_⟩
      cases hq.symm.trans ((hok x hx).run_eq (b := []) trivial)
      rfl
  | error e =>
      obtain ⟨b, e', hb, he, -⟩ := herr e hx
      obtain rfl := List.eq_nil_of_length_eq_zero hb.length_eq
      cases hq.symm.trans he

theorem update_entry_refused [BEq α] {sys : NonlinearSystem σ α} {u : Tensor α} {st : σ} {d : α}
    {q : Vector α n} (hlin : s.linear = .dense) (hsub : s.subproblem.validate = .ok ())
    (hub : u.batch = []) (hrb : r.batch = []) (hr : r.Packed n) (hjb : j.batch = [])
    (hj : j.PackedSquare n) (hq : Lu.entryStep (r.runAt n []) (j.squareAt n []) = .ok q)
    (h : ∀ extra, (QuadraticModel.ofEntry (r.runAt n []) (j.squareAt n []) q d).direction
      s.subproblem q extra = .error (.singularMatrix 0)) :
    s.update sys u r j (st, [d]) = .error (.singularMatrix 0) (st, [d]) := by
  have hbatch : Shape.broadcastAll [u.batch, r.batch, j.batch] = .ok [] := by
    rw [hub, hrb, hjb]
    rfl
  refine update_refused hbatch (direction_refused hlin hsub hrb hr hjb hj rfl fun extra => ?_)
  rw [entryDirection, hq]
  exact h extra

end TrustRegion

end TieredCalculus
