import TieredCalculus.Proofs.Linear.Pivoting
import TieredCalculus.Proofs.Newton.Singular

/-! # Well-posed subproblems

Where the Newton step of an entry leaves its region, the constrained steps of that entry never
vanish and get shorter as the multiplier grows. The equation for the multiplier then divides by
nothing that is zero, starts below zero, has a positive derivative and vanishes for one
multiplier at most, whose step ends on the boundary of the region.
-/

namespace TieredCalculus

open Matrix

variable {α : Type} {n : Nat} [Field α]

/-! ## Solvers of invertible systems -/

namespace LinearSolver

/-- The solver returns the only solutions of the systems that it solves. -/
def Determined (linear : LinearSolver α) : Prop :=
  ∀ {j b x : Tensor α}, linear.solve j b = .ok x → ∃ n batch, Solves j b x n batch ∧
    ∀ {k : Index}, Shape.InBounds batch k → ∀ v : Fin n → α,
      (j.squareAt n k).toMatrix *ᵥ v = 0 → v = 0

theorem Determined.exact {linear : LinearSolver α} (h : linear.Determined) : linear.Exact := by
  intro j b x hx
  obtain ⟨n, batch, hs, -⟩ := h hx
  exact ⟨n, batch, hs⟩

theorem dense_determined [LinearOrder α] [IsStrictOrderedRing α] :
    (dense : LinearSolver α).Determined := by
  intro j b x h
  obtain ⟨n, batch, hj, hb, hbatch, hxb, hxp, hrun⟩ := solveDense_eq_ok h
  refine ⟨n, batch, ⟨hj, hb, hbatch, hxb, hxp, fun hk i => ?_⟩, fun {k} hk v hv => ?_⟩
  · obtain ⟨lu, hlu, hx⟩ := hrun hk
    rw [hx]
    exact Lu.solve_of_factor threshold_pos hlu _ i
  · obtain ⟨lu, hlu, -⟩ := hrun hk
    have hinjective := mulVec_injective_iff_isUnit.2 (Lu.isUnit_of_factor threshold_pos hlu)
    exact hinjective (hv.trans (mulVec_zero _).symm)

theorem Determined.newtonStep {linear : LinearSolver α} (hlin : linear.Determined)
    {r j x : Tensor α} (h : linear.newtonStep r j = .ok x) :
    ∃ n, r.Packed n ∧ j.PackedSquare n ∧ x.Packed n ∧ ∀ {batch : Shape},
      x.batch.expandsTo batch = true →
        r.batch.expandsTo batch = true ∧ j.batch.expandsTo batch = true ∧
        ∀ {k : Index}, Shape.InBounds batch k →
          (j.squareAt n k).toMatrix *ᵥ (x.runAt n k).get = -(r.runAt n k).get ∧
          ∀ v : Fin n → α, (j.squareAt n k).toMatrix *ᵥ v = 0 → v = 0 := by
  obtain ⟨n, hr, hj, hx, hrows⟩ := TrustRegion.newtonStep_rows hlin.exact h
  obtain ⟨n', small, hs, honly⟩ := hlin h
  cases hj.2.symm.trans hs.matrix.2
  obtain ⟨hjs, hrs, -⟩ := Shape.broadcast_expandsTo hs.broadcast
  refine ⟨n, hr, hj, hx, fun {batch} hb => ?_⟩
  rw [hs.batch_eq] at hb
  refine ⟨Shape.expandsTo_trans hrs hb, Shape.expandsTo_trans hjs hb, fun {k} hk => ?_⟩
  have hlen : small.length ≤ k.length := by
    rw [hk.length_eq]
    exact Shape.expandsTo_length hb
  refine ⟨funext (hrows (hs.batch_eq ▸ hb) hk), ?_⟩
  rw [← Tensor.squareAt_project hjs hlen]
  exact honly (Shape.project_inBounds hb hk)

end LinearSolver

/-! ## One entry -/

variable [LinearOrder α] [IsStrictOrderedRing α] [Scalar α]

namespace Linear

theorem norm_mul_norm (hroot : Scalar.RootExact α) (v : Vector α n) :
    norm v.toList * norm v.toList = dot v.toList v.toList := by
  rw [norm_toList, dot_toList]
  exact (hroot _ (dot_self_nonneg v.get)).2

theorem norm_pos (hroot : Scalar.RootExact α) {v : Vector α n} (hv : v.get ≠ 0) :
    0 < norm v.toList := by
  obtain ⟨hnonneg, hsq⟩ := hroot _ (dot_self_nonneg v.get)
  rw [norm_toList]
  refine hnonneg.lt_of_ne fun hzero => (dot_self_pos hv).ne ?_
  rw [← hsq, ← hzero, zero_mul]

theorem norm_lt_norm (hroot : Scalar.RootExact α) {v w : Vector α n}
    (h : v.get ⬝ᵥ v.get < w.get ⬝ᵥ w.get) : norm v.toList < norm w.toList := by
  obtain ⟨-, hv⟩ := hroot _ (dot_self_nonneg v.get)
  obtain ⟨hnonneg, hw⟩ := hroot _ (dot_self_nonneg w.get)
  rw [norm_toList, norm_toList]
  rw [← hv, ← hw] at h
  exact lt_of_mul_self_lt_mul_self₀ hnonneg h

end Linear

/-- What the multiplier `s` gives an entry with residual `r`, Jacobian `j`, Newton step `q` and
radius parameter `delta`: the step `p`, and residual `v` and derivative `d` of the equation. -/
structure WellPosed (r : Vector α n) (j : Square α n) (q : Vector α n) (delta s : α)
    (p : Vector α n) (v d : α) : Prop where
  solves : shiftedNormal j.toMatrix (Scalar.positivePart s) *ᵥ p.get = -(j.toMatrixᵀ *ᵥ r.get)
  only : ∀ x, shiftedNormal j.toMatrix (Scalar.positivePart s) *ᵥ x = -(j.toMatrixᵀ *ᵥ r.get) →
    x = p.get
  newton : s ≤ 0 → p = q ∧ v < 0
  norm_pos : 0 < Linear.norm p.toList
  radius_pos : 0 < Scalar.sqrt ((1 + 1) * delta)
  residual_eq : v = 1 / Linear.norm p.toList - 1 / Scalar.sqrt ((1 + 1) * delta)
  derivative_pos : 0 < d
  boundary : v = 0 → Linear.dot p.toList p.toList = (1 + 1) * delta

section Entry

variable {r q p p' : Vector α n} {j : Square α n} {delta s s' v v' d d' : α} {lu : Lu α n}

omit [LinearOrder α] [IsStrictOrderedRing α] [Scalar α] in
theorem shiftedNormal_newton (hq : j.toMatrix *ᵥ q.get = -r.get) :
    shiftedNormal j.toMatrix 0 *ᵥ q.get = -(j.toMatrixᵀ *ᵥ r.get) := by
  unfold shiftedNormal
  rw [zero_smul, add_zero, ← mulVec_mulVec, hq, mulVec_neg]

variable (hroot : Scalar.RootExact α) (hJ : ∀ x, j.toMatrix *ᵥ x = 0 → x = 0)

include hroot

theorem radius_pos (hdelta : 0 < delta) : 0 < Scalar.sqrt ((1 + 1) * delta) ∧
    Scalar.sqrt ((1 + 1) * delta) * Scalar.sqrt ((1 + 1) * delta) = (1 + 1) * delta := by
  have htwo : 0 < (1 + 1) * delta := by positivity
  obtain ⟨hnonneg, hsq⟩ := hroot _ htwo.le
  refine ⟨hnonneg.lt_of_ne fun hzero => htwo.ne ?_, hsq⟩
  rw [← hsq, ← hzero, zero_mul]

include hJ

/-- The step of an entry outside its region is well posed for every multiplier that has one. -/
theorem wellPosed_of_step (hdelta : 0 < delta) (hq : j.toMatrix *ᵥ q.get = -r.get)
    (houtside : (QuadraticModel.ofEntry r j q delta).inside = false)
    (h : (QuadraticModel.ofEntry r j q delta).step? Lu.threshold s = some (p, lu)) :
    WellPosed r j q delta s p
      (1 / Linear.norm p.toList - 1 / (QuadraticModel.ofEntry r j q delta).radius)
      (Linear.dot p.toList (lu.solve p).toList /
        (Linear.norm p.toList * Linear.norm p.toList * Linear.norm p.toList)) := by
  have hs := Scalar.positivePart_nonneg s
  obtain ⟨hstep, hsolve⟩ := QuadraticModel.step_mulVec LinearSolver.threshold_pos h
  obtain ⟨hradius, hradius_sq⟩ := radius_pos hroot hdelta
  have hnewton : q.get ≠ 0 := by
    intro hzero
    apply QuadraticModel.newton_ne_zero hroot hdelta houtside
    rw [hzero, zero_dotProduct]
  have hp : p.get ≠ 0 := by
    intro hzero
    apply hnewton
    apply eq_zero_of_shiftedNormal hJ le_rfl
    rw [shiftedNormal_newton hq, ← hstep, hzero, mulVec_zero]
  have hlength := Linear.norm_pos hroot hp
  have hdot : 0 < Linear.dot p.toList (lu.solve p).toList := by
    rw [Linear.dot_toList]
    exact dot_pos_of_solves hJ hs hp hsolve
  refine ⟨hstep, fun x hx => ?_, fun hnonpos => ?_, hlength, hradius, rfl, by positivity,
    fun hzero => ?_⟩
  · exact eq_of_shiftedNormal_eq hJ hs (hx.trans hstep.symm)
  · rw [Scalar.positivePart_of_nonpos hnonpos] at hstep
    have hpq : p = q := Vector.ext fun i hi => congrFun
      (eq_of_shiftedNormal_eq hJ le_rfl (hstep.trans (shiftedNormal_newton hq).symm)) ⟨i, hi⟩
    refine ⟨hpq, sub_neg.2 (one_div_lt_one_div_of_lt hradius ?_)⟩
    rw [hpq]
    exact not_le.1 (of_decide_eq_false houtside)
  · have heq : Linear.norm p.toList = Scalar.sqrt ((1 + 1) * delta) := by
      have hinv := sub_eq_zero.1 hzero
      rw [one_div, one_div] at hinv
      exact inv_injective hinv
    rw [← Linear.norm_mul_norm hroot, heq, hradius_sq]

theorem WellPosed.norm_lt (h : WellPosed r j q delta s p v d)
    (h' : WellPosed r j q delta s' p' v' d') (hs' : 0 ≤ s') (hlt : s' < s) :
    Linear.norm p.toList < Linear.norm p'.toList := by
  apply Linear.norm_lt_norm hroot
  have hsolves := h.solves.trans h'.solves.symm
  rw [Scalar.positivePart_of_nonneg (hs'.trans hlt.le), Scalar.positivePart_of_nonneg hs']
    at hsolves
  refine dot_self_lt_of_shift_lt hJ hs' hlt (fun hzero => h.norm_pos.ne' ?_) hsolves
  rw [Linear.norm_toList, hzero, zero_dotProduct]
  exact mul_self_eq_zero.1 (hroot 0 le_rfl).2

theorem WellPosed.eq_of_vanishes (h : WellPosed r j q delta s p v d)
    (h' : WellPosed r j q delta s' p' v' d') (hs : 0 ≤ s) (hs' : 0 ≤ s') (hv : v = 0)
    (hv' : v' = 0) : s = s' := by
  have hnorm : Linear.norm p.toList = Linear.norm p'.toList := by
    have hinv := (sub_eq_zero.1 (h.residual_eq.symm.trans hv)).trans
      (sub_eq_zero.1 (h'.residual_eq.symm.trans hv')).symm
    rw [one_div, one_div] at hinv
    exact inv_injective hinv
  rcases lt_trichotomy s s' with hlt | heq | hlt
  · exact absurd hnorm (h'.norm_lt hroot hJ h hs hlt).ne'
  · exact heq
  · exact absurd hnorm (h.norm_lt hroot hJ h' hs' hlt).ne

end Entry

/-! ## The entries of a batch -/

namespace Subproblem

variable {batch : Shape} {linear : LinearSolver α} {r j x : Tensor α} {delta : List α}
  {models : List (QuadraticModel α n)}

/-- Elimination accepts the shifted normal matrix of every entry outside its region. -/
def Accepts (sub : Subproblem α) (s : Tensor α) : Prop :=
  ∀ {b : Index} {m : QuadraticModel α sub.width}, Shape.InBounds sub.batch b →
    sub.models[sub.batch.offset b]? = some m → m.inside = false →
      ∃ lu, Lu.factor? Lu.threshold (m.shifted (numberOf (s.runAt 1 b))) = some lu

/-- The steps of a subproblem for some multipliers, and residual and derivative of its
equations. -/
structure Evaluated (sub : Subproblem α) (s t e d : Tensor α) : Prop where
  packed : s.Packed 1
  step : sub.step s = .ok t
  evaluate : sub.evaluate (some s) = .ok (e, d)

omit [IsStrictOrderedRing α] in
theorem Accepts.exists_evaluated {s : Tensor α} (h : Accepts ⟨batch, n, models⟩ s)
    (hlen : models.length = batch.numel) (hs : s.Packed 1)
    (hsb : s.batch.expandsTo batch = true) :
    ∃ t e d, Evaluated ⟨batch, n, models⟩ s t e d := by
  obtain ⟨s', hs'⟩ := Tensor.expandBatch_isOk hsb
  have hstep : ∃ t, step ⟨batch, n, models⟩ s = .ok t := by
    cases ht : step ⟨batch, n, models⟩ s with
    | ok t => exact ⟨t, rfl⟩
    | error e =>
        obtain ⟨b, m, hb, hm, hout, hnone, -⟩ := step_eq_error hlen hs' ht
        rw [hs.number_expandBatch hs' hb] at hnone
        obtain ⟨lu, hlu⟩ := h hb hm hout
        cases (Option.map_eq_none_iff.1 hnone).symm.trans hlu
  have hevaluate : ∃ q, evaluate ⟨batch, n, models⟩ (some s) = .ok q := by
    cases he : evaluate ⟨batch, n, models⟩ (some s) with
    | ok q => exact ⟨q, rfl⟩
    | error e =>
        obtain ⟨⟨b, e', hb, hres, -⟩, -⟩ := (evaluate_entries hlen hsb hs).2 e he
        obtain ⟨m, hm⟩ : ∃ m, models[batch.offset b]? = some m :=
          ⟨_, List.getElem?_eq_getElem (hlen ▸ Shape.offset_lt hb)⟩
        dsimp only at hres
        rw [boundaryAt_of_getElem hm] at hres
        cases hin : m.inside with
        | true => cases (boundary_eq_ok (equation_of_inside hin _)).1.symm.trans hres
        | false =>
            obtain ⟨lu, hlu⟩ := h hb hm hin
            have hsome : m.step? Lu.threshold (numberOf (s.runAt 1 b)) =
                some ((lu.solve m.gradient).map (-·), lu) := by
              rw [QuadraticModel.step?, hlu]
              rfl
            cases (boundary_eq_ok (equation_of_step hin hsome)).1.symm.trans hres
  obtain ⟨t, ht⟩ := hstep
  obtain ⟨⟨e, d⟩, hq⟩ := hevaluate
  exact ⟨t, e, d, hs, ht, hq⟩

omit [IsStrictOrderedRing α] in
theorem Evaluated.entry {s t e d : Tensor α} (h : Evaluated ⟨batch, n, models⟩ s t e d)
    (hlen : models.length = batch.numel) {b : Index} (hb : Shape.InBounds batch b)
    {m : QuadraticModel α n} (hm : models[batch.offset b]? = some m) (hout : m.inside = false) :
    ∃ lu, m.step? Lu.threshold (numberOf (s.runAt 1 b)) = some (t.runAt n b, lu) ∧
      numberOf (e.runAt 1 b) = 1 / Linear.norm (t.runAt n b).toList - 1 / m.radius ∧
      d.squareAt 1 b 0 0 = Linear.dot (t.runAt n b).toList (lu.solve (t.runAt n b)).toList /
        (Linear.norm (t.runAt n b).toList * Linear.norm (t.runAt n b).toList *
          Linear.norm (t.runAt n b).toList) := by
  obtain ⟨s', hs', htb, -, hsteps⟩ := step_eq_ok h.step
  obtain ⟨lu, hlu⟩ := hsteps _ m hm hout
  obtain ⟨hsb, -⟩ := h.packed.expandBatch hs'
  rw [h.packed.number_expandBatch hs' hb] at hlu
  have hrun : t.runAt n b = t.vectorRun n (batch.offset b) := by
    rw [Tensor.runAt_of_inBounds t n (htb ▸ hb), htb]
  rw [← hrun] at hlu
  obtain ⟨hres, hjac⟩ := boundary_eq_ok (equation_of_step hout hlu)
  obtain ⟨hvalues, hslopes⟩ := (evaluate_entries hlen hsb h.packed).1 _ h.evaluate
  have hvalue := hvalues.run_eq hb
  have hslope := hslopes.run_eq hb
  rw [boundaryAt_of_getElem hm] at hvalue hslope
  refine ⟨lu, hlu, ?_, ?_⟩
  · exact (congrArg numberOf (Except.ok.inj (hres.symm.trans hvalue))).symm
  · rw [← Except.ok.inj (hjac.symm.trans hslope), Square.ofFn_apply]

omit [IsStrictOrderedRing α] in
theorem create_expanded {p : Tensor α} (h : x.expandBatch batch = .ok p) :
    create batch r j p delta = create batch r j x delta := by
  obtain ⟨-, hv⟩ := Tensor.expandBatch_view h
  have hself : p.expandBatch batch = .ok p := by
    rw [← hv.batch_eq]
    exact p.expandLeading_self
  unfold create
  rw [h, hself]

/-- The subproblem of a Newton step is well posed at every entry that the step takes out of its
region: wherever the matrices are accepted the steps exist and are well posed, a greater
multiplier has a shorter step, and at most one multiplier puts the step on the boundary. -/
theorem subproblem_wellPosed (hroot : Scalar.RootExact α) (hlin : linear.Determined)
    (hx : linear.newtonStep r j = .ok x) (hxb : x.batch.expandsTo batch = true)
    (hdelta : delta.length = batch.numel) (hpos : ∀ d ∈ delta, 0 < d) :
    ∃ n models, r.Packed n ∧ j.PackedSquare n ∧
      create batch r j x delta = .ok ⟨batch, n, models⟩ ∧
      (∀ {p}, x.expandBatch batch = .ok p →
        create batch r j p delta = .ok ⟨batch, n, models⟩) ∧
      (∀ {b : Index}, Shape.InBounds batch b →
        models[batch.offset b]? = some (TrustRegion.modelAt n batch r j x delta b)) ∧
      (∀ {s : Tensor α}, s.Packed 1 → s.batch.expandsTo batch = true →
        Accepts ⟨batch, n, models⟩ s → ∃ t e d, Evaluated ⟨batch, n, models⟩ s t e d) ∧
      ∀ {s t e d : Tensor α}, Evaluated ⟨batch, n, models⟩ s t e d →
        ∀ {b : Index}, Shape.InBounds batch b →
          (inside ⟨batch, n, models⟩)[batch.offset b]? = some false →
            WellPosed (r.runAt n b) (j.squareAt n b) (x.runAt n b)
              (TrustRegion.radiusAt batch delta b) (numberOf (s.runAt 1 b)) (t.runAt n b)
              (numberOf (e.runAt 1 b)) (d.squareAt 1 b 0 0) ∧
            ∀ {s' t' e' d' : Tensor α}, Evaluated ⟨batch, n, models⟩ s' t' e' d' →
              0 ≤ numberOf (s'.runAt 1 b) →
                (numberOf (s'.runAt 1 b) < numberOf (s.runAt 1 b) →
                  Linear.norm (t.runAt n b).toList < Linear.norm (t'.runAt n b).toList) ∧
                (0 ≤ numberOf (s.runAt 1 b) → numberOf (e.runAt 1 b) = 0 →
                  numberOf (e'.runAt 1 b) = 0 →
                    numberOf (s.runAt 1 b) = numberOf (s'.runAt 1 b)) := by
  obtain ⟨n, hr, hj, hxp, hbatch⟩ := hlin.newtonStep hx
  obtain ⟨hrb, hjb, hrows⟩ := hbatch hxb
  obtain ⟨p, models, hp, -, -, hcreate, hlen, hentry⟩ :=
    TrustRegion.create_entries hrb hr hjb hj hxb hxp hdelta
  have hplain : create batch r j x delta = .ok ⟨batch, n, models⟩ :=
    (create_expanded hp).symm.trans hcreate
  refine ⟨n, models, hr, hj, hplain, fun hp' => (create_expanded hp').trans hplain,
    fun hb => (hentry hb).2, fun hs hsb haccepts => haccepts.exists_evaluated hlen hs hsb, ?_⟩
  -- Whatever an outside entry is evaluated at is well posed for its own multiplier.
  have hposed : ∀ {s t e d : Tensor α}, Evaluated ⟨batch, n, models⟩ s t e d →
      ∀ {b : Index}, Shape.InBounds batch b →
        (inside ⟨batch, n, models⟩)[batch.offset b]? = some false →
          WellPosed (r.runAt n b) (j.squareAt n b) (x.runAt n b)
            (TrustRegion.radiusAt batch delta b) (numberOf (s.runAt 1 b)) (t.runAt n b)
            (numberOf (e.runAt 1 b)) (d.squareAt 1 b 0 0) := by
    intro s t e d h b hb hout
    obtain ⟨hnewton, honly⟩ := hrows hb
    obtain ⟨-, hm⟩ := hentry hb
    rw [inside, List.getElem?_map, hm] at hout
    obtain ⟨lu, hstep, hvalue, hslope⟩ := h.entry hlen hb hm (Option.some.inj hout)
    rw [hvalue, hslope]
    exact wellPosed_of_step hroot honly (hpos _ (TrustRegion.radiusAt_mem hdelta hb)) hnewton
      (Option.some.inj hout) hstep
  intro s t e d h b hb hout
  have hfirst := hposed h hb hout
  obtain ⟨-, honly⟩ := hrows hb
  refine ⟨hfirst, fun {s' t' e' d'} h' hs' => ?_⟩
  have hsecond := hposed h' hb hout
  exact ⟨fun hlt => hfirst.norm_lt hroot honly hsecond hs' hlt,
    fun hs hv hv' => hfirst.eq_of_vanishes hroot honly hsecond hs hs' hv hv'⟩

end Subproblem

namespace TrustRegion

open Subproblem

theorem turned_toMatrix : (turned.squareAt 2 []).toMatrix = !![1, -1; 1, 1] := by
  ext i k
  fin_cases i <;> fin_cases k <;> rfl

theorem shiftedNormal_turned (s : ℝ) :
    shiftedNormal (turned.squareAt 2 []).toMatrix s = (2 + s) • 1 := by
  rw [turned_toMatrix]
  ext i k
  fin_cases i <;> fin_cases k <;> norm_num [shiftedNormal, Matrix.mul_apply]

theorem gradient_turned :
    (turned.squareAt 2 []).toMatrixᵀ *ᵥ (pushed.runAt 2 []).get = ![4, -4] := by
  have hfirst : (pushed.runAt 2 []).get 0 = 4 := rfl
  have hsecond : (pushed.runAt 2 []).get 1 = 0 := rfl
  rw [turned_toMatrix]
  ext i
  rw [mulVec, dotProduct, Fin.sum_univ_two, hfirst, hsecond]
  fin_cases i <;> norm_num

/-- The multiplier two shortens the Newton step of a turned entry to the boundary of its
region. -/
theorem turned_wellPosed :
    Scalar.RootExact ℝ ∧ (LinearSolver.dense : LinearSolver ℝ).Determined ∧
      (∀ d ∈ [(1 : ℝ)], 0 < d) ∧ ∃ x models t e d t' e' d',
        (LinearSolver.dense : LinearSolver ℝ).newtonStep pushed turned = .ok x ∧
        create [] pushed turned x [1] = .ok ⟨[], 2, models⟩ ∧
        (inside ⟨[], 2, models⟩)[0]? = some false ∧
        Evaluated ⟨[], 2, models⟩ (point 2) t e d ∧ Evaluated ⟨[], 2, models⟩ (point 0) t' e' d' ∧
        WellPosed (pushed.runAt 2 []) (turned.squareAt 2 []) (x.runAt 2 []) 1 2 (t.runAt 2 [])
          (numberOf (e.runAt 1 [])) (d.squareAt 1 [] 0 0) ∧
        (t.runAt 2 []).get = ![-1, 1] ∧
        Linear.norm (t.runAt 2 []).toList < Linear.norm (t'.runAt 2 []).toList := by
  have hpos : ∀ d ∈ [(1 : ℝ)], 0 < d := by simp
  obtain ⟨x, hx, houtside⟩ := turned_leaves
  have hxb : x.batch.expandsTo [] = true := by
    obtain ⟨n, batch, hs⟩ := LinearSolver.dense_exact hx
    cases hs.broadcast
    exact hs.batch_eq ▸ Shape.expandsTo_refl _
  obtain ⟨n, models, hr, -, hcreate, -, hmodels, hexists, hposed⟩ :=
    subproblem_wellPosed Scalar.rootExact_real LinearSolver.dense_determined hx hxb rfl hpos
  have hn : [2] = [n] := hr.2
  cases hn
  have hmodel := hmodels (b := []) trivial
  have haccepts : ∀ c : ℝ, Accepts ⟨[], 2, models⟩ (point c) := by
    intro c b m hb hm _
    obtain rfl := List.eq_nil_of_length_eq_zero hb.length_eq
    cases hmodel.symm.trans hm
    obtain ⟨p, lu, hstep⟩ := turned_inScale.exists_step LinearSolver.threshold_pos
      (x.runAt 2 []) (radiusAt [] [1] []) (numberOf ((point c).runAt 1 []))
    obtain ⟨lu', hlu, -⟩ := Option.map_eq_some_iff.1 hstep
    exact ⟨lu', hlu⟩
  have hpoint : ∀ c : ℝ, (point c).Packed 1 := fun c => ⟨rfl, rfl⟩
  obtain ⟨t, e, d, htwo⟩ := hexists (hpoint 2) (Shape.expandsTo_refl []) (haccepts 2)
  obtain ⟨t', e', d', hzero⟩ := hexists (hpoint 0) (Shape.expandsTo_refl []) (haccepts 0)
  have hinside : (inside ⟨[], 2, models⟩)[0]? = some false := by
    have hfirst : models[0]? = some (modelAt 2 [] pushed turned x [1] []) := hmodel
    rw [inside, List.getElem?_map, hfirst, Option.map_some, houtside]
  obtain ⟨hwell, hshorter⟩ := hposed htwo (b := []) trivial hinside
  refine ⟨Scalar.rootExact_real, LinearSolver.dense_determined, hpos, x, models, t, e, d, t', e',
    d', hx, hcreate, hinside, htwo, hzero, hwell, ?_, ?_⟩
  · have hsolves := hwell.solves
    have hnumber : numberOf ((point (2 : ℝ)).runAt 1 []) = 2 := rfl
    rw [hnumber, Scalar.positivePart_of_nonneg zero_le_two, shiftedNormal_turned, gradient_turned,
      smul_mulVec, one_mulVec] at hsolves
    ext i
    have hrow := congrFun hsolves i
    rw [Pi.smul_apply, smul_eq_mul] at hrow
    fin_cases i <;> norm_num at hrow ⊢ <;> linarith
  · exact (hshorter hzero le_rfl).1 two_pos

end TrustRegion

end TieredCalculus
