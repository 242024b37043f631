import TieredCalculus.Proofs.Linear.Batched
import TieredCalculus.Proofs.Newton.Reduction

/-! # The direction of a trust region step

Entry by entry the direction is the Newton step or a constrained step, for whatever
multipliers the inner solve has found.
-/

namespace TieredCalculus

variable {α : Type}

namespace Subproblem

variable [Zero α] [Add α] [Mul α] [LE α] [DecidableLE α]

theorem create_eq_ok [One α] [Scalar α] {batch : Shape} {r j p : Tensor α} {delta : List α}
    {sub : Subproblem α} {n : Nat} (hr : r.Packed n) (h : create batch r j p delta = .ok sub) :
    ∃ r' j' p' models, r.expandBatch batch = .ok r' ∧ j.expandBatch batch = .ok j' ∧
      p.expandBatch batch = .ok p' ∧ sub = ⟨batch, n, models⟩ ∧ models.length = batch.numel ∧
      ∀ k < batch.numel, models[k]? = some (.ofEntry (r'.vectorRun n k) (j'.squareRun n k)
        (p'.vectorRun n k) (delta[k]?.getD 0)) := by
  obtain ⟨r', hr', h₁⟩ := Update.except_bind_eq_ok.1 h
  obtain ⟨j', hj', h₂⟩ := Update.except_bind_eq_ok.1 h₁
  obtain ⟨p', hp', h₃⟩ := Update.except_bind_eq_ok.1 h₂
  have hr'' := SolveError.ofTensor_eq_ok.1 hr'
  obtain ⟨-, -, hpacked, -⟩ := hr.expandBatch hr''
  have hn : r'.baseNumel = n := hpacked.baseNumel_eq
  by_cases hlen : delta.length = batch.numel
  · rw [if_neg (by simpa using hlen)] at h₃
    subst hn
    cases h₃
    refine ⟨r', j', p', _, hr'', SolveError.ofTensor_eq_ok.1 hj',
      SolveError.ofTensor_eq_ok.1 hp', rfl, by simpa using hlen, fun k hk => ?_⟩
    rw [← hlen] at hk
    rw [List.getElem?_map, List.getElem?_zipIdx, List.getElem?_eq_getElem hk]
    simp
  · rw [if_pos hlen] at h₃
    cases h₃

theorem create_isOk [One α] [Scalar α] {batch : Shape} {r j p : Tensor α} {delta : List α}
    (hr : r.batch.expandsTo batch = true) (hj : j.batch.expandsTo batch = true)
    (hp : p.batch.expandsTo batch = true) (hdelta : delta.length = batch.numel) :
    ∃ sub, create batch r j p delta = .ok sub := by
  obtain ⟨r', hr'⟩ := Tensor.expandBatch_isOk hr
  obtain ⟨j', hj'⟩ := Tensor.expandBatch_isOk hj
  obtain ⟨p', hp'⟩ := Tensor.expandBatch_isOk hp
  unfold create
  rw [hr', hj', hp']
  exact ⟨_, if_neg (by simpa using hdelta)⟩

theorem length_of_create [One α] [Scalar α] {batch : Shape} {r j p : Tensor α} {delta : List α}
    {sub : Subproblem α} (h : create batch r j p delta = .ok sub) : delta.length = batch.numel := by
  obtain ⟨_, -, h⟩ := Update.except_bind_eq_ok.1 h
  obtain ⟨_, -, h⟩ := Update.except_bind_eq_ok.1 h
  obtain ⟨_, -, h⟩ := Update.except_bind_eq_ok.1 h
  by_contra hne
  rw [if_pos hne] at h
  cases h

variable [Neg α] [Sub α] [Div α] [LT α] [DecidableLT α] [OfScientific α]

theorem step_eq_ok {batch : Shape} {n : Nat} {models : List (QuadraticModel α n)}
    {multipliers t : Tensor α} (h : step ⟨batch, n, models⟩ multipliers = .ok t) :
    ∃ x, multipliers.expandBatch batch = .ok x ∧ t.batch = batch ∧ t.Packed n ∧
      ∀ (k : Nat) (model : QuadraticModel α n), models[k]? = some model → model.inside = false →
        ∃ lu, model.step? Lu.threshold (x.data[k]?.getD 0) = some (t.vectorRun n k, lu) := by
  obtain ⟨m, hm, h₁⟩ := Update.except_bind_eq_ok.1 h
  obtain ⟨steps, hsteps, h₂⟩ := Update.except_bind_eq_ok.1 h₁
  obtain ⟨hbatch, hpacked, hrun⟩ := Tensor.ofValues_rows (SolveError.ofTensor_eq_ok.1 h₂)
  refine ⟨m, SolveError.ofTensor_eq_ok.1 hm, hbatch, hpacked, fun k model hmodel hinside => ?_⟩
  have hpair : models.zipIdx[k]? = some (model, k) := by
    rw [List.getElem?_zipIdx, hmodel]
    simp
  obtain ⟨p, hp, hstep⟩ := (Update.except_mapM_eq_ok hsteps).2 k (model, k) hpair
  simp only [hinside, Bool.false_eq_true, if_false] at hstep
  obtain ⟨⟨p', lu⟩, hentry, hp'⟩ := Update.except_bind_eq_ok.1 hstep
  cases hp'
  rw [hrun k p' hp]
  unfold entryStep at hentry
  refine ⟨lu, ?_⟩
  split at hentry
  · next hs =>
    cases hentry
    exact hs
  · cases hentry

theorem step_eq_error {batch : Shape} {n : Nat} {models : List (QuadraticModel α n)}
    {multipliers x : Tensor α} {e : SolveError α} (hlen : models.length = batch.numel)
    (hx : multipliers.expandBatch batch = .ok x)
    (h : step ⟨batch, n, models⟩ multipliers = .error e) :
    ∃ b m, Shape.InBounds batch b ∧ models[batch.offset b]? = some m ∧ m.inside = false ∧
      m.step? Lu.threshold (x.data[batch.offset b]?.getD 0) = none ∧
      e = .singularMatrix (batch.offset b) := by
  have hlift : (liftM (multipliers.expandBatch batch) : Except (SolveError α) (Tensor α)) =
      .ok x := SolveError.ofTensor_eq_ok.2 hx
  rcases Update.except_bind_eq_error.1 h with h | ⟨x', hx', h⟩
  · cases hlift.symm.trans h
  cases hlift.symm.trans hx'
  rcases Update.except_bind_eq_error.1 h with h | ⟨steps, hsteps, h⟩
  · obtain ⟨⟨m, k⟩, hmem, he⟩ := Update.except_mapM_eq_error h
    have hk : models[k]? = some m := List.mem_zipIdx_iff_getElem?.1 hmem
    obtain ⟨b, hb, rfl⟩ := Shape.exists_offset_eq
      (hlen ▸ (List.getElem?_eq_some_iff.1 hk).1 : k < batch.numel)
    dsimp only at he
    split at he
    · cases he
    · next hinside =>
      rcases Update.except_bind_eq_error.1 he with he | ⟨q, -, he⟩
      · unfold entryStep at he
        split at he
        · cases he
        · next hnone =>
          cases he
          exact ⟨b, m, hb, hk, eq_false_of_ne_true hinside, hnone, rfl⟩
      · cases he
  · obtain ⟨hlength, -⟩ := Update.except_mapM_eq_ok hsteps
    rw [List.length_zipIdx, hlen] at hlength
    obtain ⟨t, ht⟩ := Tensor.ofValues_rows_isOk hlength
    cases h.symm.trans (SolveError.ofTensor_eq_ok.2 ht)

end Subproblem

variable [Field α] [LinearOrder α] [Scalar α]

omit [Scalar α] in
theorem Scalar.positivePart_nonneg (s : α) : 0 ≤ Scalar.positivePart s := by
  unfold Scalar.positivePart
  by_cases hs : 0 < s
  · rw [if_pos hs]
    exact hs.le
  · rw [if_neg hs]

omit [Scalar α] in
theorem Scalar.positivePart_of_nonpos {s : α} (h : s ≤ 0) : Scalar.positivePart s = 0 :=
  if_neg (not_lt.2 h)

omit [Scalar α] in
theorem Scalar.positivePart_of_nonneg {s : α} (h : 0 ≤ s) : Scalar.positivePart s = s := by
  unfold Scalar.positivePart
  rcases h.eq_or_lt with rfl | hpos
  · rw [if_neg (lt_irrefl 0)]
  · rw [if_pos hpos]

namespace QuadraticModel

theorem ofEntry_shifted_apply {n : Nat} (r : Vector α n) (j : Square α n) (q : Vector α n)
    (delta s : α) (i k : Fin n) : (ofEntry r j q delta).shifted s i k =
      (∑ l, j l i * j l k) + if i = k then Scalar.positivePart s else 0 := by
  have hnormal : (ofEntry r j q delta).normal i k = ∑ l, j l i * j l k :=
    (Square.ofFn_apply _ i k).trans (Linear.sumFin_eq_sum _)
  unfold shifted
  rw [Square.ofFn_apply, hnormal]
  by_cases h : i = k
  · rw [if_pos h, if_pos h]
  · rw [if_neg h, if_neg h, add_zero]

theorem ofEntry_gradient_get {n : Nat} (r : Vector α n) (j : Square α n) (q : Vector α n)
    (delta : α) (i : Fin n) : (ofEntry r j q delta).gradient.get i = ∑ l, j l i * r.get l := by
  unfold ofEntry
  dsimp only
  rw [get_ofFn, Linear.sumFin_eq_sum]

theorem step_isStep {n : Nat} {r : Vector α n} {j : Square α n} {q p : Vector α n}
    {delta s eps : α} {lu : Lu α n} (heps : 0 < eps)
    (h : (ofEntry r j q delta).step? eps s = some (p, lu)) : TrustRegion.IsStep r j p := by
  unfold step? at h
  obtain ⟨lu', hf, hp⟩ := Option.map_eq_some_iff.1 h
  obtain ⟨rfl, rfl⟩ := Prod.mk.inj hp
  refine .constrained (Scalar.positivePart s) (Scalar.positivePart_nonneg s) fun i => ?_
  have hneg : ∀ k, ((lu'.solve (ofEntry r j q delta).gradient).map (-·)).get k =
      -(lu'.solve (ofEntry r j q delta).gradient).get k := by
    intro k
    exact Vector.getElem_map ..
  have hgradient := ofEntry_gradient_get r j q delta i
  have hrow := Lu.solve_of_factor heps hf (ofEntry r j q delta).gradient i
  rw [hgradient] at hrow
  rw [← hrow, ← Finset.sum_neg_distrib]
  have hdiag : ∀ x : Fin n → α, Scalar.positivePart s * x i =
      ∑ k, if i = k then Scalar.positivePart s * x k else 0 := by
    intro x
    rw [Finset.sum_ite_eq Finset.univ i, if_pos (Finset.mem_univ i)]
  rw [hdiag, ← Finset.sum_add_distrib]
  apply Finset.sum_congr rfl
  intro k _
  rw [ofEntry_shifted_apply, hneg]
  by_cases hik : i = k
  · rw [if_pos hik, if_pos hik]
    ring
  · rw [if_neg hik, if_neg hik]
    ring

end QuadraticModel

namespace Subproblem

theorem isStep_of_outside [IsStrictOrderedRing α] {batch : Shape} {r j p multipliers t : Tensor α}
    {delta : List α} {sub : Subproblem α} {n : Nat} (hr : r.Packed n) (hj : j.PackedSquare n)
    (hsub : create batch r j p delta = .ok sub) (hstep : sub.step multipliers = .ok t) :
    ∃ models, sub = ⟨batch, n, models⟩ ∧ ∀ {k : Index}, Shape.InBounds batch k →
      ∃ model, models[batch.offset k]? = some model ∧ (model.inside = false →
        TrustRegion.IsStep (r.runAt n k) (j.squareAt n k)
          (t.vectorRun n (batch.offset k))) := by
  obtain ⟨r', j', p', models, hr', hj', hp', rfl, -, hmodels⟩ := create_eq_ok hr hsub
  obtain ⟨_, -, -, -, hsteps⟩ := step_eq_ok hstep
  refine ⟨models, rfl, fun {k} hk => ?_⟩
  have hmodel := hmodels _ (Shape.offset_lt hk)
  refine ⟨_, hmodel, fun hinside => ?_⟩
  obtain ⟨lu, hm⟩ := hsteps _ _ hmodel hinside
  have hconstrained := QuadraticModel.step_isStep LinearSolver.threshold_pos hm
  obtain ⟨-, hrb, -, hrrun⟩ := hr.expandBatch hr'
  obtain ⟨-, hjb, -, hjrun⟩ := hj.expandBatch hj'
  rw [← hrrun (Shape.expandsTo_refl batch) hk, ← hjrun (Shape.expandsTo_refl batch) hk,
    Tensor.runAt_of_inBounds r' _ (hrb ▸ hk), Tensor.squareAt_of_inBounds j' _ (hjb ▸ hk),
    hrb, hjb]
  exact hconstrained

end Subproblem

namespace TrustRegion

omit [Scalar α] [LinearOrder α] in
/-- Entry by entry, in every larger batch, a Newton step of an exact solver takes the linear
model of the residual to zero. -/
theorem newtonStep_rows {linear : LinearSolver α} (hlin : linear.Exact) {r j x : Tensor α}
    (h : linear.newtonStep r j = .ok x) :
    ∃ n, r.Packed n ∧ j.PackedSquare n ∧ x.Packed n ∧ ∀ {batch : Shape} {k : Index},
      x.batch.expandsTo batch = true → Shape.InBounds batch k → ∀ l,
        ∑ i, j.squareAt n k l i * (x.runAt n k).get i = -(r.runAt n k).get l := by
  obtain ⟨n, b, hs⟩ := hlin h
  have hr : r.Packed n := hs.right
  refine ⟨n, hr, hs.matrix, hs.packed, fun {batch k} hb hk l => ?_⟩
  obtain ⟨hj, hrb, -⟩ := Shape.broadcast_expandsTo hs.broadcast
  have hrb' : r.batch.expandsTo b = true := hrb
  rw [hs.batch_eq] at hb
  have hlen : b.length ≤ k.length := by
    rw [hk.length_eq]
    exact Shape.expandsTo_length hb
  have hin := Shape.project_inBounds hb hk
  have hx : x.batch.expandsTo b = true := by
    rw [hs.batch_eq]
    exact Shape.expandsTo_refl b
  have hrow := hs.row_eq hin l
  have hneg : (r.neg.runAt n (b.project k)).get l = (r.runAt n (b.project k)).get l * (-1) :=
    hr.map_runAt (· * (-1)) hrb' hin l
  rw [hneg, Tensor.runAt_project hrb' hlen, Tensor.squareAt_project hj hlen,
    Tensor.runAt_project hx hlen, mul_neg_one] at hrow
  exact hrow

omit [Scalar α] in
theorem newtonStep_isStep {linear : LinearSolver α} (hlin : linear.Exact) {r j x : Tensor α}
    (h : linear.newtonStep r j = .ok x) :
    ∃ n, r.Packed n ∧ j.PackedSquare n ∧ x.Packed n ∧ ∀ {batch : Shape} {k : Index},
      x.batch.expandsTo batch = true → Shape.InBounds batch k →
        IsStep (r.runAt n k) (j.squareAt n k) (x.runAt n k) := by
  obtain ⟨n, hr, hj, hx, hrows⟩ := newtonStep_rows hlin h
  exact ⟨n, hr, hj, hx, fun hb hk => .newton (hrows hb hk)⟩

/-- Every entry of the direction is a step of that entry, whichever multipliers the inner
solve returns. -/
theorem direction_isStep [IsStrictOrderedRing α] {s : TrustRegion α} (hlin : s.linear.Exact)
    {batch : Shape} {r j p : Tensor α} {delta : List α}
    (h : s.direction batch r j delta = .ok p) :
    ∃ n, r.Packed n ∧ j.PackedSquare n ∧ p.batch = batch ∧ p.Packed n ∧
      ∀ {k : Index}, Shape.InBounds batch k →
        IsStep (r.runAt n k) (j.squareAt n k) (p.runAt n k) := by
  obtain ⟨x, hx, h₁⟩ := Update.except_bind_eq_ok.1 h
  obtain ⟨newton, hnewton, h₂⟩ := Update.except_bind_eq_ok.1 h₁
  obtain ⟨sub, hsub, h₃⟩ := Update.except_bind_eq_ok.1 h₂
  obtain ⟨n, hr, hj, hxp, hstep⟩ := newtonStep_isStep hlin hx
  obtain ⟨hxb, hnb, hnp, hnrun⟩ := hxp.expandBatch (SolveError.ofTensor_eq_ok.1 hnewton)
  have hnewtonStep : ∀ {k : Index}, Shape.InBounds batch k →
      IsStep (r.runAt n k) (j.squareAt n k) (newton.runAt n k) := by
    intro k hk
    rw [hnrun (Shape.expandsTo_refl batch) hk]
    exact hstep hxb hk
  by_cases hall : sub.inside.all id = true
  · rw [if_pos hall] at h₃
    cases h₃
    exact ⟨n, hr, hj, hnb, hnp, hnewtonStep⟩
  · rw [if_neg hall] at h₃
    obtain ⟨solved, -, h₄⟩ := Update.except_bind_eq_ok.1 h₃
    obtain ⟨constrained, hcon, h₅⟩ := Update.except_bind_eq_ok.1 h₄
    obtain ⟨models, rfl, houtside⟩ := Subproblem.isStep_of_outside hr hj hsub hcon
    have hvalues := SolveError.ofTensor_eq_ok.1 h₅
    rw [hnp.baseNumel_eq] at hvalues
    unfold Subproblem.inside at hvalues
    rw [Tensor.foldl_rows (models.map (·.inside)).zipIdx fun x =>
      (if x.1 then newton else constrained).vectorRun n x.2] at hvalues
    obtain ⟨hpb, hpp, hrun⟩ := Tensor.ofValues_rows hvalues
    refine ⟨n, hr, hj, hpb, hpp, fun {k} hk => ?_⟩
    obtain ⟨model, hmodel, hconstrained⟩ := houtside hk
    have hp : p.runAt n k =
        (if model.inside then newton else constrained).vectorRun n (batch.offset k) := by
      rw [Tensor.runAt_of_inBounds p _ (hpb ▸ hk), hpb]
      apply hrun
      rw [List.getElem?_map, List.getElem?_zipIdx, List.getElem?_map, hmodel]
      simp
    rw [hp]
    cases hinside : model.inside with
    | true =>
      rw [if_pos rfl, ← hnb, ← Tensor.runAt_of_inBounds newton _ (hnb ▸ hk)]
      exact hnewtonStep hk
    | false => exact hconstrained hinside

end TrustRegion

end TieredCalculus
