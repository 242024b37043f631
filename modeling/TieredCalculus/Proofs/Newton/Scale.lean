import TieredCalculus.Proofs.Linear.Acceptance
import TieredCalculus.Proofs.Linear.NormalMatrix
import TieredCalculus.Proofs.Newton.EntryRegions
import TieredCalculus.Proofs.Real

/-! # Scale of a trust region

The trust region asks elimination for pivots of the same size in three matrices: in the
Jacobian `J`, in the shifted normal matrices `JᵀJ + s I` and in the derivative of the equation
for the multiplier, a number. The scale of the second is that of the square of `J`. The third
is bounded from below by the length of the gradient `Jᵀr` alone, whatever the multiplier. So a
Jacobian with a Newton step has constrained steps for all multipliers, and an iteration for the
multiplier that never fails, where it does not shorten vectors too much and the gradient is not
too long.
-/

namespace TieredCalculus

open Matrix

variable {α : Type} {n : Nat}

namespace Lu

variable [Field α] [LinearOrder α] [IsStrictOrderedRing α]

theorem entryStep_of_factor {a : Square α n} {lu : Lu α n}
    (h : factor? threshold a = some lu) (v : Vector α n) :
    ∃ w, entryStep v a = .ok w ∧ a.toMatrix *ᵥ w.get = -v.get := by
  refine ⟨lu.solve (v.map (· * (-1))), ?_, funext fun i => ?_⟩
  · rw [entryStep, h]
  · have hget : (v.map (· * (-1))).get i = v.get i * (-1) := Vector.getElem_map ..
    exact (solve_of_factor LinearSolver.threshold_pos h _ i).trans
      (hget.trans (mul_neg_one _))

theorem exists_factor_number {a : Square α 1} (h : threshold ≤ |a 0 0|) :
    ∃ lu, factor? threshold a = some lu := by
  have heps : 0 < (threshold : α) := LinearSolver.threshold_pos
  have hmulVec : ∀ x, a.toMatrix *ᵥ x = a 0 0 • x := by
    intro x
    ext i
    rw [Subsingleton.elim i 0, mulVec, dotProduct, Fin.sum_univ_one]
    rfl
  refine exists_factor_of_stretch heps fun x => ?_
  have hsq : threshold ^ 2 ≤ a 0 0 ^ 2 := by
    rw [← sq_abs (a 0 0)]
    exact pow_le_pow_left₀ heps.le h 2
  rw [hmulVec, smul_dotProduct, dotProduct_smul, Nat.cast_one, one_mul, smul_eq_mul, smul_eq_mul,
    ← mul_assoc, ← sq]
  exact mul_le_mul_of_nonneg_right hsq (dot_self_nonneg x)

end Lu

variable [Field α] [LinearOrder α] [Scalar α]

omit [LinearOrder α] in
theorem Linear.norm_toList (v : Vector α n) :
    Linear.norm v.toList = Scalar.sqrt (v.get ⬝ᵥ v.get) := by
  unfold Linear.norm
  rw [Vector.toList_eq_map, List.foldl_map]
  exact congrArg Scalar.sqrt (Linear.sumFin_eq_sum fun i => v.get i * v.get i)

namespace QuadraticModel

/-- The normal matrix of an entry does not fall below pivots of size `eps`, and its gradient
does not exceed the reciprocal of `eps`. -/
structure InScale (eps : α) (r : Vector α n) (j : Square α n) : Prop where
  stretch : ∀ x : Fin n → α,
    n * eps ^ 2 * (x ⬝ᵥ x) ^ 2 ≤ ((j.toMatrix *ᵥ x) ⬝ᵥ (j.toMatrix *ᵥ x)) ^ 2
  gradient : eps ^ 2 * ((j.toMatrixᵀ *ᵥ r.get) ⬝ᵥ (j.toMatrixᵀ *ᵥ r.get)) ≤ 1

variable {r q : Vector α n} {j : Square α n} {delta eps : α}

theorem shifted_toMatrix (s : α) : ((ofEntry r j q delta).shifted s).toMatrix =
    shiftedNormal j.toMatrix (Scalar.positivePart s) := by
  ext i k
  have hdiag : (Scalar.positivePart s • (1 : Matrix (Fin n) (Fin n) α)) i k =
      if i = k then Scalar.positivePart s else 0 := by
    rw [Matrix.smul_apply, Matrix.one_apply, smul_eq_mul, mul_ite, mul_one, mul_zero]
  unfold shiftedNormal
  rw [Matrix.add_apply, hdiag, Matrix.mul_apply]
  exact ofEntry_shifted_apply r j q delta s i k

theorem gradient_get : (ofEntry r j q delta).gradient.get = j.toMatrixᵀ *ᵥ r.get :=
  funext fun i => ofEntry_gradient_get r j q delta i

theorem step_mulVec {s : α} {p : Vector α n} {lu : Lu α n} (heps : 0 < eps)
    (h : (ofEntry r j q delta).step? eps s = some (p, lu)) :
    shiftedNormal j.toMatrix (Scalar.positivePart s) *ᵥ p.get = -(j.toMatrixᵀ *ᵥ r.get) ∧
      shiftedNormal j.toMatrix (Scalar.positivePart s) *ᵥ (lu.solve p).get = p.get := by
  unfold step? at h
  obtain ⟨lu', hf, hp⟩ := Option.map_eq_some_iff.1 h
  obtain ⟨rfl, rfl⟩ := Prod.mk.inj hp
  have hsolve : ∀ b, ((ofEntry r j q delta).shifted s).toMatrix *ᵥ (lu'.solve b).get = b.get :=
    fun b => funext fun i => Lu.solve_of_factor heps hf b i
  have hneg : ((lu'.solve (ofEntry r j q delta).gradient).map (-·)).get =
      -(lu'.solve (ofEntry r j q delta).gradient).get := funext fun k => Vector.getElem_map ..
  rw [shifted_toMatrix] at hsolve
  refine ⟨?_, hsolve _⟩
  rw [hneg, mulVec_neg, hsolve, gradient_get]

variable [IsStrictOrderedRing α]

theorem InScale.exists_step (h : InScale eps r j) (heps : 0 < eps) (q : Vector α n)
    (delta s : α) :
    ∃ p lu, (ofEntry r j q delta).step? eps s = some (p, lu) := by
  obtain ⟨lu, hlu⟩ := Lu.exists_factor_of_stretch heps (a := (ofEntry r j q delta).shifted s)
    fun x => by
      rw [shifted_toMatrix]
      exact stretch_shiftedNormal (Scalar.positivePart_nonneg s) h.stretch x
  refine ⟨(lu.solve (ofEntry r j q delta).gradient).map (-·), lu, ?_⟩
  rw [step?, hlu]
  rfl

omit [Scalar α] in
theorem InScale.newton_eq_zero (h : InScale eps r j) (heps : 0 < eps)
    (hq : j.toMatrix *ᵥ q.get = -r.get) (hzero : j.toMatrixᵀ *ᵥ r.get = 0) :
    q.get ⬝ᵥ q.get = 0 := by
  have hr : r.get = -(j.toMatrix *ᵥ q.get) := by rw [hq, neg_neg]
  have hchange : (j.toMatrix *ᵥ q.get) ⬝ᵥ (j.toMatrix *ᵥ q.get) = 0 := by
    rw [hr, mulVec_neg, neg_eq_zero] at hzero
    rw [dotProduct_mulVec, ← mulVec_transpose, hzero, zero_dotProduct]
  have hstretch := h.stretch q.get
  rw [hchange, zero_pow two_ne_zero] at hstretch
  rcases Nat.eq_zero_or_pos n with rfl | hn
  · simp
  · have hpos : 0 < n * eps ^ 2 := mul_pos (Nat.cast_pos.2 hn) (pow_pos heps 2)
    have hsq : (q.get ⬝ᵥ q.get) ^ 2 ≤ 0 := nonpos_of_mul_nonpos_right hstretch hpos
    exact pow_eq_zero_iff two_ne_zero |>.1 (hsq.antisymm (sq_nonneg _))

theorem newton_ne_zero (hroot : Scalar.RootExact α) (hdelta : 0 < delta)
    (houtside : (ofEntry r j q delta).inside = false) : q.get ⬝ᵥ q.get ≠ 0 := by
  intro hzero
  have hnorm : Linear.norm q.toList = 0 := by
    rw [Linear.norm_toList, hzero]
    exact mul_self_eq_zero.1 (hroot 0 le_rfl).2
  have hradius := (hroot ((1 + 1) * delta) (by positivity)).1
  unfold ofEntry at houtside
  dsimp only at houtside
  rw [hnorm, decide_eq_false_iff_not] at houtside
  exact houtside hradius

/-- In scale the equation for the multiplier has a derivative no smaller than a pivot. -/
theorem InScale.le_derivative (h : InScale eps r j) (heps : 0 < eps)
    (hroot : Scalar.RootExact α) (hgradient : j.toMatrixᵀ *ᵥ r.get ≠ 0) {s : α} {p : Vector α n}
    {lu : Lu α n} (hp : (ofEntry r j q delta).step? eps s = some (p, lu)) :
    eps ≤ Linear.dot p.toList (lu.solve p).toList /
      (Linear.norm p.toList * Linear.norm p.toList * Linear.norm p.toList) := by
  obtain ⟨hstep, hsolve⟩ := step_mulVec heps hp
  obtain ⟨hnonneg, hcube⟩ := cube_le_of_step (Scalar.positivePart_nonneg s) hstep hsolve
  have hdot : Linear.dot p.toList (lu.solve p).toList = p.get ⬝ᵥ (lu.solve p).get :=
    Linear.dot_toList _ _
  have hne : p.get ⬝ᵥ p.get ≠ 0 := by
    intro hzero
    rw [dotProduct_self_eq_zero.1 hzero, mulVec_zero] at hstep
    exact hgradient (neg_eq_zero.1 hstep.symm)
  obtain ⟨hlength, hsquare⟩ := hroot (p.get ⬝ᵥ p.get) (dot_self_nonneg p.get)
  rw [hdot, Linear.norm_toList]
  generalize Scalar.sqrt (p.get ⬝ᵥ p.get) = l at hlength hsquare
  have hl : 0 < l := hlength.lt_of_ne fun hz => hne (by rw [← hsquare, ← hz, zero_mul])
  rw [le_div_iff₀ (by positivity)]
  refine le_of_sq_le_sq ?_ hnonneg
  calc (eps * (l * l * l)) ^ 2 = eps ^ 2 * (p.get ⬝ᵥ p.get) ^ 3 := by
        rw [← hsquare]
        ring
    _ ≤ eps ^ 2 * ((j.toMatrixᵀ *ᵥ r.get) ⬝ᵥ (j.toMatrixᵀ *ᵥ r.get) *
          (p.get ⬝ᵥ (lu.solve p).get) ^ 2) := mul_le_mul_of_nonneg_left hcube (sq_nonneg eps)
    _ = eps ^ 2 * ((j.toMatrixᵀ *ᵥ r.get) ⬝ᵥ (j.toMatrixᵀ *ᵥ r.get)) *
          (p.get ⬝ᵥ (lu.solve p).get) ^ 2 := by ring
    _ ≤ 1 * (p.get ⬝ᵥ (lu.solve p).get) ^ 2 :=
        mul_le_mul_of_nonneg_right h.gradient (sq_nonneg _)
    _ = (p.get ⬝ᵥ (lu.solve p).get) ^ 2 := one_mul _

/-- The Newton step of an entry lies inside its region, or leaves it in scale. -/
structure Accepted (r : Vector α n) (j : Square α n) (q : Vector α n) (delta : α) : Prop where
  radius : 0 < delta
  newton : j.toMatrix *ᵥ q.get = -r.get
  scale : (ofEntry r j q delta).inside = false → InScale (Lu.threshold : α) r j

/-- The equation of an accepted entry can be evaluated for every multiplier, and its derivative
is accepted as a pivot. -/
theorem Accepted.equation_isOk (h : Accepted r j q delta) (hroot : Scalar.RootExact α) (y : α) :
    ∃ v d, Subproblem.equation ⟨[], n, [ofEntry r j q delta]⟩ (ofEntry r j q delta) y 0 =
      .ok (v, d) ∧ Lu.threshold ≤ d := by
  have heps : 0 < (Lu.threshold : α) := LinearSolver.threshold_pos
  cases hin : (ofEntry r j q delta).inside with
  | true =>
      refine ⟨0, 1, Subproblem.equation_of_inside hin y, ?_⟩
      unfold Lu.threshold
      norm_num
  | false =>
      have hscale := h.scale hin
      have hgradient : j.toMatrixᵀ *ᵥ r.get ≠ 0 := fun hzero =>
        newton_ne_zero hroot h.radius hin (hscale.newton_eq_zero heps h.newton hzero)
      obtain ⟨p, lu, hp⟩ := hscale.exists_step heps q delta y
      exact ⟨_, _, Subproblem.equation_of_step hin hp,
        hscale.le_derivative heps hroot hgradient hp⟩

theorem Accepted.run_isOk (h : Accepted r j q delta) (hroot : Scalar.RootExact α)
    (v : Vector α 1) (k : Nat) :
    ∃ y, (ofEntry r j q delta).boundary.run Newton.entryNext v k = .ok y := by
  induction k with
  | zero =>
      obtain ⟨w, d, hw, -⟩ := h.equation_isOk hroot (numberOf v)
      refine ⟨(v, #v[w]), ?_⟩
      rw [EntryFunctions.run, (Subproblem.boundary_eq_ok hw).1]
      rfl
  | succ k ih =>
      obtain ⟨⟨u, x⟩, hrun⟩ := ih
      obtain ⟨_, d, hd, hle⟩ := h.equation_isOk hroot (numberOf u)
      obtain ⟨lu, hlu⟩ := Lu.exists_factor_number (a := .ofFn fun _ _ => d)
        (hle.trans (le_abs_self d))
      obtain ⟨z, hz, -⟩ := Lu.entryStep_of_factor hlu x
      obtain ⟨w, _, hw, -⟩ := h.equation_isOk hroot (numberOf (Vector.zipWith (· + ·) u z))
      refine ⟨(Vector.zipWith (· + ·) u z, #v[w]), ?_⟩
      rw [EntryFunctions.run_succ hrun, EntryFunctions.update, (Subproblem.boundary_eq_ok hd).2]
      change (Newton.entryNext u x (.ofFn fun _ _ => d) >>= _) = _
      rw [Newton.entryNext, hz]
      change ((ofEntry r j q delta).boundary.residual (Vector.zipWith (· + ·) u z) >>= _) = _
      rw [(Subproblem.boundary_eq_ok hw).1]
      rfl

theorem Accepted.direction_isOk (h : Accepted r j q delta) (hroot : Scalar.RootExact α)
    (t : Tolerances α) (p : Vector α n) (extra : Nat) :
    ∃ d, (ofEntry r j q delta).direction t p extra = .ok d := by
  obtain ⟨⟨y, x⟩, hrun⟩ := h.run_isOk hroot (.replicate 1 0)
    ((ofEntry r j q delta).stop t + extra)
  rw [direction, hrun]
  cases hin : (ofEntry r j q delta).inside with
  | true => exact ⟨p, rfl⟩
  | false =>
      obtain ⟨p, lu, hp⟩ := (h.scale hin).exists_step LinearSolver.threshold_pos q delta
        (numberOf y)
      refine ⟨p, ?_⟩
      change constrained _ (numberOf y) = _
      rw [constrained, hp]

end QuadraticModel

end TieredCalculus
