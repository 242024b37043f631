import TieredCalculus.Proofs.Newton.Scale
import TieredCalculus.Proofs.Newton.StepLengths

/-! # Affine systems

The Newton step of an affine system ends at a zero of it. So Newton's method has solved every
entry of a batch after one iteration, wherever it started, and the line search has done so at
its first trial: a residual of zero is sufficient under any criterion.
-/

namespace TieredCalculus

open Matrix

variable {σ α : Type} [Field α]

/-- The vector `a v - c`. -/
def Square.affine {n : Nat} (a : Square α n) (c v : Vector α n) : Vector α n :=
  .ofFn fun i => (a.toMatrix *ᵥ v.get - c.get) i

theorem Square.affine_get {n : Nat} (a : Square α n) (c v : Vector α n) :
    (a.affine c v).get = a.toMatrix *ᵥ v.get - c.get :=
  funext fun i => get_ofFn _ i

theorem Square.affine_step {n : Nat} {a : Square α n} {c v d : Vector α n}
    (h : a.toMatrix *ᵥ d.get = -(a.affine c v).get) :
    a.toMatrix *ᵥ (Vector.zipWith (· + ·) v d).get = c.get := by
  have hsum : (Vector.zipWith (· + ·) v d).get = v.get + d.get :=
    funext fun i => Vector.getElem_zipWith ..
  rw [hsum, mulVec_add, h, affine_get, neg_sub, add_sub_cancel]

theorem Square.affine_of_solved {n : Nat} {a : Square α n} {c v : Vector α n}
    (h : a.toMatrix *ᵥ v.get = c.get) : (a.affine c v).get = 0 := by
  rw [affine_get, h, sub_self]

/-! ## Affine systems without memory -/

namespace Memoryless

variable {sys : NonlinearSystem σ α}

/-- Entry by entry the residual is `A u - c` and the Jacobian is `A`, with the matrices `A` of one
tensor and the vectors `c` of another. Both can be evaluated wherever the batches broadcast. -/
structure Affine (m : Memoryless sys) (a c : Tensor α) (n : Nat) : Prop where
  accept_ok : ∀ {u : Tensor α} {batch : Shape}, u.Packed n →
    Shape.broadcastAll [u.batch, a.batch, c.batch] = .ok batch → m.accept u = .ok ()
  residual_ok : ∀ {u : Tensor α} {batch : Shape}, u.Packed n →
    Shape.broadcastAll [u.batch, a.batch, c.batch] = .ok batch →
      ∃ r, m.residual u = .ok r ∧ Collects batch
        (fun b => .ok ((a.squareAt n b).affine (c.runAt n b) (u.runAt n b))) r
  jacobian_ok : ∀ {u : Tensor α} {batch : Shape}, u.Packed n →
    Shape.broadcastAll [u.batch, a.batch, c.batch] = .ok batch →
      ∃ j, m.jacobian u = .ok j ∧ CollectsSquare batch (fun b => .ok (a.squareAt n b)) j

/-- An iterate of the common batch with its residual, in a state that holds it or a vector that
it expands. -/
structure AffineAt (m : Memoryless sys) (a c : Tensor α) (n : Nat) (batch : Shape) (st : σ)
    (u r : Tensor α) : Prop where
  batch_eq : u.batch = batch
  packed : u.Packed n
  residual : Collects batch
    (fun b => .ok ((a.squareAt n b).affine (c.runAt n b) (u.runAt n b))) r
  holding : ∃ w, m.holds st (some w) ∧ w.Packed n ∧
    Shape.broadcastAll [w.batch, a.batch, c.batch] = .ok batch

/-- Every entry of the vector solves its equation `A u = c`. -/
structure Solved (a c : Tensor α) (n : Nat) (batch : Shape) (u : Tensor α) : Prop where
  batch_eq : u.batch = batch
  packed : u.Packed n
  row_eq : ∀ {b : Index}, Shape.InBounds batch b →
    (a.squareAt n b).toMatrix *ᵥ (u.runAt n b).get = (c.runAt n b).get

/-- The residual `A u - c` of every entry of the common batch. -/
def affineResidual (a c : Tensor α) (n : Nat) (u : Tensor α) :
    Except (SolveError α) (Tensor α) := do
  let batch ← Shape.broadcastAll [u.batch, a.batch, c.batch]
  let rows := (Shape.indices batch).map fun b =>
    (a.squareAt n b).affine (c.runAt n b) (u.runAt n b)
  Tensor.ofValues batch [] [n] (rows.foldl (fun acc row => acc ++ row.toArray) #[])

theorem affine_ofFunctions {a : Tensor α} {n : Nat} (ha : a.PackedSquare n) (c : Tensor α) :
    (ofFunctions (affineResidual a c n) fun _ => .ok a).Affine a c n where
  accept_ok := fun _ _ => rfl
  residual_ok := by
    intro u batch hu hbatch
    have hrows : ((Shape.indices batch).map fun b =>
        (a.squareAt n b).affine (c.runAt n b) (u.runAt n b)).length = batch.numel := by simp
    obtain ⟨r, hr⟩ := Tensor.ofValues_rows_isOk hrows
    obtain ⟨hrb, hrp, hrun⟩ := Tensor.ofValues_rows hr
    refine ⟨r, ?_, hrb, hrp, fun {b} hb => ?_⟩
    · refine Update.except_bind_eq_ok.2 ⟨batch, SolveError.ofTensor_eq_ok.2 hbatch, ?_⟩
      exact SolveError.ofTensor_eq_ok.2 hr
    · rw [Tensor.runAt_of_inBounds r n (hrb.symm ▸ hb), hrb]
      refine congrArg Except.ok (hrun _ _ ?_).symm
      rw [List.getElem?_map, Shape.getElem?_indices_offset hb]
      rfl
  jacobian_ok := by
    intro u batch _ hbatch
    exact ⟨a, rfl, Shape.broadcastAll_expandsTo hbatch a.batch (by simp), ha, fun _ => rfl⟩

variable {m : Memoryless sys} {a c guess : Tensor α} {n : Nat} {batch : Shape} {st : σ}

omit [Field α] in
theorem broadcast_common
    (h : Shape.broadcastAll [guess.batch, a.batch, c.batch] = .ok batch) :
    Shape.broadcastAll [batch, a.batch, c.batch] = .ok batch := by
  have hexpands := Shape.broadcastAll_expandsTo h
  refine Shape.broadcastAll_of_mem (by simp) fun s hs => ?_
  rcases List.mem_cons.1 hs with rfl | hs
  · exact Shape.expandsTo_refl s
  · exact hexpands s (List.mem_cons_of_mem _ hs)

theorem Affine.evaluate (ha : m.Affine a c n) {w : Option (Tensor α)} (hst : m.holds st w)
    {u : Tensor α} (hu : u.Packed n)
    (hbatch : Shape.broadcastAll [u.batch, a.batch, c.batch] = .ok batch) :
    ∃ st₁ r st₂, sys.setSolution u st = .ok () st₁ ∧ sys.residual st₁ = .ok r st₂ ∧
      m.residual u = .ok r ∧ m.holds st₂ (some u) ∧ Collects batch
        (fun b => .ok ((a.squareAt n b).affine (c.runAt n b) (u.runAt n b))) r := by
  obtain ⟨r, hr, hrun⟩ := ha.residual_ok hu hbatch
  have hset := m.gives_set u hst
  rw [ha.accept_ok hu hbatch] at hset
  obtain ⟨st₁, hset, h₁⟩ := hset.exists_ok
  have hres := m.gives_residual h₁
  rw [hr] at hres
  obtain ⟨st₂, hres, h₂⟩ := hres.exists_ok
  exact ⟨st₁, r, st₂, hset, hres, hr, h₂, hrun⟩

theorem Affine.start (ha : m.Affine a c n) {w : Option (Tensor α)} (hst : m.holds st w)
    (hguess : guess.Packed n)
    (hbatch : Shape.broadcastAll [guess.batch, a.batch, c.batch] = .ok batch) :
    ∃ u r st', Iteration.start sys guess st = .ok (u, r) st' ∧ m.residual guess = .ok r ∧
      m.AffineAt a c n batch st' u r := by
  obtain ⟨st₁, r, st₂, hset, hres, hr, h₂, hrun⟩ := ha.evaluate hst hguess hbatch
  have hexp := Shape.broadcastAll_expandsTo hbatch guess.batch (by simp)
  obtain ⟨u, hu⟩ := Tensor.expandBatch_isOk hexp
  obtain ⟨-, hub, hup, hurun⟩ := hguess.expandBatch hu
  refine ⟨u, r, st₂, Iteration.start_eq_ok.2 ⟨st₁, batch, hset, hres, ?_, hu⟩, hr, hub, hup,
    ⟨hrun.batch_eq, hrun.packed, fun {b} hb => ?_⟩, guess, h₂, hguess, hbatch⟩
  · rw [hrun.batch_eq]
    exact Shape.broadcast_of_expandsTo hexp
  · rw [hurun (Shape.expandsTo_refl batch) hb]
    exact hrun.run_eq hb

/-- A full step from `u`, which solves every entry. -/
structure FullStep [LinearOrder α] (a c : Tensor α) (n : Nat) (batch : Shape)
    (u r j x u' : Tensor α) : Prop where
  step : (LinearSolver.dense : LinearSolver α).newtonStep r j = .ok x
  batch_eq : x.batch = batch
  packed : x.Packed n
  sum : u.add x = .ok u'
  solved : Solved a c n batch u'
  run_eq : ∀ {b : Index}, Shape.InBounds batch b →
    u'.runAt n b = Vector.zipWith (· + ·) (u.runAt n b) (x.runAt n b)

variable {u r : Tensor α}

theorem Affine.arrive (ha : m.Affine a c n) {w : Option (Tensor α)} (hst : m.holds st w)
    (hbatch : Shape.broadcastAll [batch, a.batch, c.batch] = .ok batch)
    (hub : u.batch = batch) (hu : u.Packed n) :
    ∃ st₁ r st₂, sys.setSolution u st = .ok () st₁ ∧ sys.residual st₁ = .ok r st₂ ∧
      m.AffineAt a c n batch st₂ u r := by
  rw [← hub] at hbatch
  obtain ⟨st₁, r, st₂, hset, hres, -, h₂, hrun⟩ := ha.evaluate hst hu hbatch
  rw [hub] at hbatch hrun
  exact ⟨st₁, r, st₂, hset, hres, hub, hu, hrun, u, h₂, hu, hub.symm ▸ hbatch⟩

variable [LinearOrder α] [IsStrictOrderedRing α]

/-- Where all matrices have factors, the full step can be computed and solves every entry. -/
theorem Affine.linearize (ha : m.Affine a c n)
    (hfactor : ∀ {b : Index}, Shape.InBounds batch b →
      ∃ lu, Lu.factor? Lu.threshold (a.squareAt n b) = some lu)
    (hu : m.AffineAt a c n batch st u r) :
    ∃ j st' x u', sys.jacobian st = .ok j st' ∧ (∃ w, m.holds st' w) ∧
      FullStep a c n batch u r j x u' := by
  obtain ⟨w, hw, hwp, hbatch⟩ := hu.holding
  obtain ⟨j, hj, hjrun⟩ := ha.jacobian_ok hwp hbatch
  have hjac := m.gives_jacobian hw
  rw [hj] at hjac
  obtain ⟨st', hjac, hst'⟩ := hjac.exists_ok
  obtain ⟨hok, herr⟩ := LinearSolver.newtonStep_entries hu.residual.batch_eq hu.residual.packed
    hjrun.expands hjrun.packed
  -- The step of every entry exists, so that of the batch does not fail.
  have hentry : ∀ {b : Index}, Shape.InBounds batch b → ∃ d,
      Lu.entryStep (r.runAt n b) (j.squareAt n b) = .ok d ∧
        (a.squareAt n b).toMatrix *ᵥ d.get = -(r.runAt n b).get := by
    intro b hb
    obtain ⟨lu, hlu⟩ := hfactor hb
    rw [← Except.ok.inj (hjrun.run_eq hb)]
    exact Lu.entryStep_of_factor hlu _
  cases hx : (LinearSolver.dense : LinearSolver α).newtonStep r j with
  | error e =>
      obtain ⟨b, e', hb, he, -⟩ := herr e hx
      obtain ⟨d, hd, -⟩ := hentry hb
      cases hd.symm.trans he
  | ok x =>
      have hc := hok x hx
      obtain ⟨u', hu', hub, hup, hrun⟩ := hu.packed.zipWith_same (· + ·) hc.packed
        (hc.batch_eq.trans hu.batch_eq.symm)
      rw [hu.batch_eq] at hub hrun
      refine ⟨j, st', x, u', hjac, ⟨_, hst'⟩, hx, hc.batch_eq, hc.packed, hu',
        ⟨hub, hup, fun {b} hb => ?_⟩, fun hb => hrun hb⟩
      obtain ⟨d, hd, hsolve⟩ := hentry hb
      rw [hrun hb, ← Except.ok.inj (hd.symm.trans (hc.run_eq hb))]
      apply Square.affine_step
      rw [hsolve, Except.ok.inj (hu.residual.run_eq hb)]

omit [IsStrictOrderedRing α] in
theorem AffineAt.met [Scalar α] (h0 : Scalar.sqrt (0 : α) = 0) {t : Tolerances α}
    (habs : 0 < t.absolute) (hu : m.AffineAt a c n batch st u r) (hsolved : Solved a c n batch u)
    {initial : Tensor α} (hi : initial.Packed n) :
    t.met r.rowNorms initial.rowNorms = true := by
  apply (Tolerances.met_rowNorms_iff hu.residual.packed hi).2
  intro p hp _
  rw [hu.residual.batch_eq] at hp
  obtain ⟨b, hb, rfl⟩ := Shape.exists_offset_eq hp
  have hrun : r.vectorRun n (batch.offset b) =
      (a.squareAt n b).affine (c.runAt n b) (u.runAt n b) := by
    rw [Except.ok.inj (hu.residual.run_eq hb), Tensor.runAt_of_inBounds r n
      (hu.residual.batch_eq.symm ▸ hb), hu.residual.batch_eq]
  refine .inl (lt_of_eq_of_lt ?_ habs)
  unfold Tensor.placeNorm
  rw [hrun, Linear.norm_toList, Square.affine_of_solved (hsolved.row_eq hb), zero_dotProduct, h0,
    ite_self]

end Memoryless

/-! ## The first trial of a search -/

namespace LineSearch

section Search

variable [LinearOrder α] {n : Nat}

theorem sufficient_of_solved [IsStrictOrderedRing α] {a : Square α n} {c v : Vector α n}
    (h : a.toMatrix *ᵥ v.get = c.get) (s : LineSearch α) (x : EntryStart α n) (b : α) :
    s.sufficient x b (a.affine c v) = true := by
  have hdot : Linear.dot (a.affine c v).toList (a.affine c v).toList = 0 := by
    rw [Linear.dot_toList]
    exact Finset.sum_eq_zero fun i _ => by
      rw [Square.affine_of_solved h, Pi.zero_apply, mul_zero]
  unfold sufficient accepts
  rw [hdot]
  simp [mul_self_nonneg]

variable {s : LineSearch α} {sys : NonlinearSystem σ α} {batch : Shape}

theorem trials_sufficient {x : Nat → EntryStart α n} {a : Nat → α} {t : Tensor α}
    {r : Tensor α} {st st₁ st₂ : σ} (hn : 0 < n)
    (ht : Tensor.ofValues batch [] [n] ((startOf batch batch.numel x).trialValues
      ((List.range batch.numel).map a)).toArray = .ok t)
    (hset : sys.setSolution t st = .ok () st₁) (hres : sys.residual st₁ = .ok r st₂)
    (hrb : r.batch = batch) (hr : r.Packed n)
    (hall : ∀ {b : Index}, Shape.InBounds batch b →
      s.sufficient (x (batch.offset b)) (a (batch.offset b)) (r.runAt n b) = true)
    (retries : Nat) :
    s.trials sys (startOf batch batch.numel x) retries ((List.range batch.numel).map a) st =
      .ok (t, (List.range batch.numel).map a) st₂ := by
  have hm : batch.numel = if n = 0 then 0 else batch.numel := (if_neg hn.ne').symm
  obtain ⟨r', hr'⟩ := Tensor.expandBatch_of_batch_eq hrb
  obtain ⟨-, hrb', hrp', hrun⟩ := hr.expandBatch hr'
  have hverdicts : (s.verdicts (startOf batch batch.numel x) ((List.range batch.numel).map a)
      r').all id = true := by
    rw [verdicts_startOf s hm a hrb' hrp', List.all_map, List.all_eq_true]
    intro k hk
    obtain ⟨b, hb, rfl⟩ := Shape.exists_offset_eq (List.mem_range.1 hk)
    have hown := hall hb
    rw [← hrun (Shape.expandsTo_refl batch) hb, Tensor.runAt_of_inBounds r' n (hrb' ▸ hb),
      hrb'] at hown
    exact hown
  have hattempt : ∀ next, s.attempt (startOf batch batch.numel x) sys
      ((List.range batch.numel).map a) next st = .ok (t, (List.range batch.numel).map a) st₂ := by
    intro next
    refine Update.bind_eq_ok.2 ⟨t, st, SolveError.lift_eq_ok.2 ⟨ht, rfl⟩, ?_⟩
    refine Update.bind_eq_ok.2 ⟨(), st₁, hset, ?_⟩
    refine Update.bind_eq_ok.2 ⟨r, st₂, hres, ?_⟩
    refine Update.bind_eq_ok.2 ⟨r', st₂, SolveError.lift_eq_ok.2 ⟨hr', rfl⟩, ?_⟩
    rw [if_pos hverdicts]
    rfl
  cases retries with
  | zero =>
      rw [trials_zero]
      exact hattempt _
  | succ retries =>
      rw [trials_succ]
      exact hattempt _

end Search

end LineSearch

/-! ## Runs -/

namespace Memoryless

variable [LinearOrder α] [IsStrictOrderedRing α] {sys : NonlinearSystem σ α} {m : Memoryless sys}
  {a c guess u r j x u' : Tensor α} {n : Nat} {batch : Shape} {st : σ}

theorem Affine.search (ha : m.Affine a c n) (hn : 0 < n) {w : Option (Tensor α)}
    (hst : m.holds st w) (hbatch : Shape.broadcastAll [batch, a.batch, c.batch] = .ok batch)
    (hub : u.batch = batch) (hu : u.Packed n) (hrb : r.batch = batch) (hr : r.Packed n)
    (hx : FullStep a c n batch u r j x u') (s : LineSearch α) :
    ∃ t st', s.search sys u r x st = .ok (t, List.replicate batch.numel 1) st' ∧
      (∃ w, m.holds st' w) ∧ Solved a c n batch t ∧ ∀ {b : Index}, Shape.InBounds batch b →
        s.meets ((a.squareAt n b).affine (c.runAt n b))
          (.of (u.runAt n b) (r.runAt n b) (x.runAt n b)) 0 = true := by
  have hall : Shape.broadcastAll [u.batch, r.batch, x.batch] = .ok batch := by
    rw [hub, hrb, hx.batch_eq]
    exact Shape.broadcastAll_of_mem (by simp) fun d hd => by
      obtain rfl : d = batch := by simpa using hd
      exact Shape.expandsTo_refl d
  obtain ⟨start, hstart, hsearch⟩ := s.search_eq_trials sys hall hu hr hx.packed
  rw [if_neg hn.ne'] at hsearch
  obtain ⟨t, ht, hc⟩ := LineSearch.trial_startOf (x := start) (m := batch.numel)
    (if_neg hn.ne').symm fun _ => 1
  have htrial : ∀ {b : Index}, Shape.InBounds batch b → LineSearch.EntryStart.trial
      (.of (u.runAt n b) (r.runAt n b) (x.runAt n b)) 1 = u'.runAt n b := by
    intro b hb
    rw [hx.run_eq hb]
    unfold LineSearch.EntryStart.trial LineSearch.EntryStart.of
    simp only [one_mul]
  have hrun : ∀ {b : Index}, Shape.InBounds batch b → t.runAt n b = u'.runAt n b := by
    intro b hb
    rw [← htrial hb, ← hstart hb]
    exact (Except.ok.inj (hc.run_eq hb)).symm
  have hsolved : Solved a c n batch t :=
    ⟨hc.batch_eq, hc.packed, fun hb => hrun hb ▸ hx.solved.row_eq hb⟩
  obtain ⟨st₁, r', st₂, hset, hres, hat⟩ := ha.arrive hst hbatch hc.batch_eq hc.packed
  obtain ⟨v, hv, -⟩ := hat.holding
  refine ⟨t, st₂, ?_, ⟨_, hv⟩, hsolved, fun {b} hb => ?_⟩
  · have hones : List.replicate batch.numel (1 : α) = (List.range batch.numel).map fun _ => 1 := by
      simp
    rw [hsearch, hones]
    refine LineSearch.trials_sufficient hn ht hset hres hat.residual.batch_eq
      hat.residual.packed (fun {b} hb => ?_) _
    rw [← Except.ok.inj (hat.residual.run_eq hb)]
    exact LineSearch.sufficient_of_solved (hsolved.row_eq hb) s _ 1
  · unfold LineSearch.meets LineSearch.stepLength
    rw [htrial hb]
    exact LineSearch.sufficient_of_solved (hx.solved.row_eq hb) s _ 1

/-- From a state that holds some vector the update makes the full step, where there is one. -/
def Steps (m : Memoryless sys) (it : Iteration σ Unit α) (a c : Tensor α) (n : Nat)
    (batch : Shape) : Prop :=
  ∀ {st : σ} {w : Option (Tensor α)} {u r j x u' : Tensor α}, m.holds st w →
    u.batch = batch → u.Packed n → r.batch = batch → r.Packed n →
    FullStep a c n batch u r j x u' →
      ∃ v st', it.update sys u r j (st, ()) = .ok v (st', ()) ∧ (∃ w, m.holds st' w) ∧
        Solved a c n batch v

omit [IsStrictOrderedRing α] in
theorem steps_newton (m : Memoryless sys) {s : Newton α} (hlin : s.linear = .dense) :
    m.Steps s.iteration a c n batch := by
  intro st w u r j x u' hst _ _ _ _ hx
  refine ⟨u', st, ?_, ⟨w, hst⟩, hx.solved⟩
  refine Update.bind_eq_ok.2 ⟨x, (st, ()), Update.lift_eq_ok.2 ⟨?_, rfl⟩,
    SolveError.lift_eq_ok.2 ⟨hx.sum, rfl⟩⟩
  rw [hlin]
  exact hx.step

theorem Affine.steps_lineSearch (ha : m.Affine a c n) (hn : 0 < n) {s : LineSearch α}
    (hlin : s.linear = .dense)
    (hbatch : Shape.broadcastAll [batch, a.batch, c.batch] = .ok batch) :
    m.Steps s.iteration a c n batch := by
  intro st w u r j x u' hst hub hu hrb hr hx
  obtain ⟨t, st', hsearch, hst', hsolved, -⟩ := ha.search hn hst hbatch hub hu hrb hr hx s
  refine ⟨t, st', ?_, hst', hsolved⟩
  refine Update.bind_eq_ok.2 ⟨x, (st, ()), Update.lift_eq_ok.2 ⟨?_, rfl⟩, ?_⟩
  · rw [hlin]
    exact hx.step
  · exact Update.bind_eq_ok.2 ⟨_, (st', ()), Update.onFirst_eq_ok.2 ⟨hsearch, rfl⟩, rfl⟩

/-- A pass ends at a solution. -/
theorem Affine.pass (ha : m.Affine a c n)
    (hfactor : ∀ {b : Index}, Shape.InBounds batch b →
      ∃ lu, Lu.factor? Lu.threshold (a.squareAt n b) = some lu)
    (hbatch : Shape.broadcastAll [batch, a.batch, c.batch] = .ok batch)
    {it : Iteration σ Unit α} (hit : m.Steps it a c n batch)
    (hu : m.AffineAt a c n batch st u r) :
    ∃ v r' st', it.pass sys u r (st, ()) = .ok (v, r') (st', ()) ∧
      m.AffineAt a c n batch st' v r' ∧ Solved a c n batch v := by
  obtain ⟨j, st₁, x, u', hjac, ⟨w, hw⟩, hx⟩ := ha.linearize hfactor hu
  obtain ⟨v, st₂, hupdate, ⟨w', hw'⟩, hv⟩ := hit hw hu.batch_eq hu.packed hu.residual.batch_eq
    hu.residual.packed hx
  obtain ⟨st₃, r', st₄, hset, hres, hat⟩ := ha.arrive hw' hbatch hv.batch_eq hv.packed
  exact ⟨v, r', st₄, Iteration.pass_eq_ok.2 ⟨j, st₁, st₂, st₃, hjac, hupdate, hset, hres⟩, hat, hv⟩

theorem Affine.finish (ha : m.Affine a c n)
    (hfactor : ∀ {b : Index}, Shape.InBounds batch b →
      ∃ lu, Lu.factor? Lu.threshold (a.squareAt n b) = some lu)
    (hbatch : Shape.broadcastAll [batch, a.batch, c.batch] = .ok batch)
    {it : Iteration σ Unit α} (hlin : it.linear = .dense) (hu : m.AffineAt a c n batch st u r)
    (i : Nat) :
    ∃ v st', it.finish sys u r i st = .ok ⟨.converged, v, i⟩ st' ∧ v.batch = batch ∧
      v.Packed n ∧ (Solved a c n batch u → Solved a c n batch v) := by
  cases hg : sys.requiresGradient st with
  | false =>
      exact ⟨u, st, Iteration.finish_eq_ok.2 (.inl ⟨hg, rfl, rfl⟩), hu.batch_eq, hu.packed, id⟩
  | true =>
      obtain ⟨j, st₁, x, u', hjac, ⟨w, hw⟩, hx⟩ := ha.linearize hfactor hu
      obtain ⟨st₂, -, -, hset, -, -⟩ := ha.arrive hw hbatch hx.solved.batch_eq hx.solved.packed
      refine ⟨u', st₂, Iteration.finish_eq_ok.2 (.inr ⟨hg, j, st₁, x, u', hjac, ?_, hx.sum, hset,
        rfl⟩), hx.solved.batch_eq, hx.solved.packed, fun _ => hx.solved⟩
      rw [hlin]
      exact hx.step

variable [Scalar α]

/-- A solve that succeeds at the guess where that passes, and elsewhere after one iteration with
an exact solution of every entry. -/
structure SolvedAtOnce (m : Memoryless sys) (t : Tolerances α) (a c guess : Tensor α) (n : Nat)
    (batch : Shape) (sol : Solution α) : Prop where
  converged : sol.outcome = .converged
  batch_eq : sol.value.batch = batch
  packed : sol.value.Packed n
  iterations : ∃ r, m.residual guess = .ok r ∧
    sol.iterations = if t.met r.rowNorms r.rowNorms then 0 else 1
  solved : sol.iterations = 1 → Solved a c n batch sol.value

theorem Affine.solve (ha : m.Affine a c n) (it : Iteration σ Unit α)
    (h0 : Scalar.sqrt (0 : α) = 0)
    (hfactor : ∀ {b : Index}, Shape.InBounds batch b →
      ∃ lu, Lu.factor? Lu.threshold (a.squareAt n b) = some lu)
    {w : Option (Tensor α)} (hst : m.holds st w) (hguess : guess.Packed n)
    (hbatch : Shape.broadcastAll [guess.batch, a.batch, c.batch] = .ok batch)
    (hv : it.validate = .ok ()) (hlin : it.linear = .dense)
    (hprepare : ∀ s u, it.prepare sys s u = .ok ()) (hit : m.Steps it a c n batch)
    (habs : 0 < it.tolerances.absolute) (hmax : 2 ≤ it.tolerances.maxIterations) :
    ∃ sol st', (it.solve sys guess).outcome st = (.ok sol, st') ∧
      m.SolvedAtOnce it.tolerances a c guess n batch sol := by
  have hcommon := broadcast_common hbatch
  obtain ⟨u, r, st₀, hstart, hr, hat⟩ := ha.start hst hguess hbatch
  have hhead : it.headAt sys guess st 0 = .ok ⟨st₀, .ok (), u, r⟩ := by
    unfold Iteration.headAt
    rw [hstart]
    dsimp only
    rw [hprepare st₀ u]
  cases hm : it.tolerances.met r.rowNorms r.rowNorms with
  | true =>
      obtain ⟨v, st', hfinish, hvb, hvp, -⟩ := ha.finish hfactor hcommon hlin hat 0
      have hsolve := Iteration.solve_of_first_met hv (by omega) hhead
        (fun i hi => absurd hi (Nat.not_lt_zero i)) hhead hm
      rw [Update.outcome_eq_ok.2 hfinish] at hsolve
      exact ⟨_, st', hsolve, rfl, hvb, hvp, ⟨r, hr, by rw [hm]; rfl⟩, fun h => by cases h⟩
  | false =>
      obtain ⟨v, r', st₁, hpass, hat', hsolved⟩ := ha.pass hfactor hcommon hit hat
      have hhead' : it.headAt sys guess st 1 = .ok ⟨st₁, .ok (), v, r'⟩ :=
        (Iteration.headAt_succ_of_ok hhead).trans (Iteration.headNext_of_pass_ok rfl hpass)
      have hpassed : it.Passed sys guess st r.rowNorms 0 := ⟨_, (), hhead, rfl, hm⟩
      obtain ⟨v', st', hfinish, hvb, hvp, hkeep⟩ := ha.finish hfactor hcommon hlin hat' 1
      have hsolve := Iteration.solve_of_first_met hv (by omega) hhead
        (fun i hi => Nat.lt_one_iff.1 hi ▸ hpassed) hhead'
        (hat'.met h0 habs hsolved hat.residual.packed)
      rw [Update.outcome_eq_ok.2 hfinish] at hsolve
      exact ⟨_, st', hsolve, rfl, hvb, hvp, ⟨r, hr, by rw [hm]; rfl⟩, fun _ => hkeep hsolved⟩

/-- Affine systems whose matrices have factors are solved at once, from every guess. Newton's
method and the line search succeed at the guess where that passes, and elsewhere after one
iteration, with an exact solution of every batch entry. The search along the first step ends with
its first trial: the full step is sufficient for every entry. -/
theorem affine_solved_at_once [BEq α] (h0 : Scalar.sqrt (0 : α) = 0) (ha : m.Affine a c n)
    (hn : 0 < n)
    (hfactor : ∀ {b : Index}, Shape.InBounds batch b →
      ∃ lu, Lu.factor? Lu.threshold (a.squareAt n b) = some lu)
    (hguess : guess.Packed n)
    (hbatch : Shape.broadcastAll [guess.batch, a.batch, c.batch] = .ok batch)
    {w : Option (Tensor α)} (hst : m.holds st w) :
    (∀ s : Newton α, s.linear = .dense → s.tolerances.validate = .ok () →
      0 < s.tolerances.absolute → 2 ≤ s.tolerances.maxIterations →
        ∃ sol st', ((Solver.newton s).solve sys guess).outcome st = (.ok sol, st') ∧
          m.SolvedAtOnce s.tolerances a c guess n batch sol) ∧
    ∀ s : LineSearch α, s.linear = .dense → s.validate = .ok () →
      0 < s.tolerances.absolute → 2 ≤ s.tolerances.maxIterations →
        (∃ sol st', ((Solver.lineSearch s).solve sys guess).outcome st = (.ok sol, st') ∧
          m.SolvedAtOnce s.tolerances a c guess n batch sol) ∧
        ∃ u r st₀ j st₁ x trial st₂, Iteration.start sys guess st = .ok (u, r) st₀ ∧
          sys.jacobian st₀ = .ok j st₁ ∧ s.linear.newtonStep r j = .ok x ∧
          s.search sys u r x st₁ = .ok (trial, List.replicate batch.numel 1) st₂ ∧
          Solved a c n batch trial ∧ ∀ {b : Index}, Shape.InBounds batch b →
            s.meets ((a.squareAt n b).affine (c.runAt n b))
              (.of (u.runAt n b) (r.runAt n b) (x.runAt n b)) 0 = true := by
  have hcommon := broadcast_common hbatch
  constructor
  · intro s hlin hv habs hmax
    exact ha.solve s.iteration h0 hfactor hst hguess hbatch hv hlin (fun _ _ => rfl)
      (m.steps_newton hlin) habs hmax
  · intro s hlin hv habs hmax
    refine ⟨ha.solve s.iteration h0 hfactor hst hguess hbatch hv hlin (fun _ _ => rfl)
      (ha.steps_lineSearch hn hlin hcommon) habs hmax, ?_⟩
    obtain ⟨u, r, st₀, hstart, -, hat⟩ := ha.start hst hguess hbatch
    obtain ⟨j, st₁, x, u', hjac, ⟨w₁, hw₁⟩, hx⟩ := ha.linearize hfactor hat
    obtain ⟨trial, st₂, hsearch, -, hsolved, hmeets⟩ := ha.search hn hw₁ hcommon hat.batch_eq
      hat.packed hat.residual.batch_eq hat.residual.packed hx s
    exact ⟨u, r, st₀, j, st₁, x, trial, st₂, hstart, hjac, by rw [hlin]; exact hx.step, hsearch,
      hsolved, hmeets⟩

/-- Two systems of two equations with a common right-hand side; the second one needs a pivot. -/
theorem two_systems_solved_at_once :
    let a : Tensor ℚ := ⟨[2], [], [2, 2], #[2, 1, 1, 1, 0, 1, 4, 0], rfl⟩
    let c : Tensor ℚ := ⟨[], [], [2], #[3, 2], rfl⟩
    let guess : Tensor ℚ := ⟨[], [], [2], #[0, 0], rfl⟩
    let sys := NonlinearSystem.ofFunctions (affineResidual a c 2) fun _ => .ok a
    let newton : Newton ℚ := ⟨.standard, .dense⟩
    let search : LineSearch ℚ := .standard .dense
    Scalar.sqrt (0 : ℚ) = 0 ∧ (0 < 2) ∧
      (∀ {b : Index}, Shape.InBounds [2] b →
        ∃ lu, Lu.factor? Lu.threshold (a.squareAt 2 b) = some lu) ∧
      guess.Packed 2 ∧ Shape.broadcastAll [guess.batch, a.batch, c.batch] = .ok [2] ∧
      newton.tolerances.validate = .ok () ∧ search.validate = .ok () ∧
      0 < newton.tolerances.absolute ∧ 2 ≤ newton.tolerances.maxIterations ∧
      (∃ sol st', ((Solver.newton newton).solve sys guess).outcome none = (.ok sol, st') ∧
        sol.outcome = .converged ∧ sol.iterations = 1 ∧ Solved a c 2 [2] sol.value) ∧
      (∃ sol st', ((Solver.lineSearch search).solve sys guess).outcome none = (.ok sol, st') ∧
        sol.outcome = .converged ∧ sol.iterations = 1 ∧ Solved a c 2 [2] sol.value) ∧
      ∃ u r st₀ j st₁ x trial st₂, Iteration.start sys guess none = .ok (u, r) st₀ ∧
        sys.jacobian st₀ = .ok j st₁ ∧ LinearSolver.dense.newtonStep r j = .ok x ∧
        search.search sys u r x st₁ = .ok (trial, [1, 1]) st₂ ∧ Solved a c 2 [2] trial := by
  intro a c guess sys newton search
  have h0 : Scalar.sqrt (0 : ℚ) = 0 := by decide +kernel
  have hfactor : ∀ {b : Index}, Shape.InBounds [2] b →
      ∃ lu, Lu.factor? Lu.threshold (a.squareAt 2 b) = some lu := by
    intro b hb
    have hall : ∀ k < 2, (Lu.factor? Lu.threshold (a.squareRun 2 k)).isSome = true := by
      decide +kernel
    rw [Tensor.squareAt_of_inBounds a 2 hb]
    exact Option.isSome_iff_exists.1 (hall _ (Shape.offset_lt hb))
  have hguess : guess.Packed 2 := ⟨rfl, rfl⟩
  have hbatch : Shape.broadcastAll [guess.batch, a.batch, c.batch] = .ok [2] := rfl
  have hnewton : newton.tolerances.validate = .ok () :=
    Tolerances.validate_eq_ok.2 (by decide +kernel)
  have hsearch : search.validate = .ok () :=
    LineSearch.validate_eq_ok.2 ⟨hnewton, by decide +kernel⟩
  have habs : 0 < newton.tolerances.absolute := by decide +kernel
  have hmax : 2 ≤ newton.tolerances.maxIterations := by decide
  have hone : ∀ s ∈ [Solver.newton newton, .lineSearch search],
      ((s.solve sys guess).outcome none).1.toOption.map (·.iterations) = some 1 := by
    decide +kernel
  obtain ⟨hn, hl⟩ := affine_solved_at_once h0 (affine_ofFunctions (a := a) ⟨rfl, rfl⟩ c)
    Nat.two_pos hfactor hguess hbatch (holds_ofFunctions (affineResidual a c 2) (fun _ => .ok a) none)
  obtain ⟨sol, st', hsolve, hsol⟩ := hn newton rfl hnewton habs hmax
  obtain ⟨⟨sol', st'', hsolve', hsol'⟩, u, r, st₀, j, st₁, x, trial, st₂, hstart, hjac, hstep,
    htrial, hsolved, -⟩ := hl search rfl hsearch habs hmax
  have hiterations : sol.iterations = 1 := by
    have h := hone _ List.mem_cons_self
    rw [hsolve] at h
    exact Option.some.inj h
  have hiterations' : sol'.iterations = 1 := by
    have h := hone (.lineSearch search) (by simp)
    rw [hsolve'] at h
    exact Option.some.inj h
  exact ⟨h0, Nat.two_pos, hfactor, hguess, hbatch, hnewton, hsearch, habs, hmax,
    ⟨sol, st', hsolve, hsol.converged, hiterations, hsol.solved hiterations⟩,
    ⟨sol', st'', hsolve', hsol'.converged, hiterations', hsol'.solved hiterations'⟩,
    u, r, st₀, j, st₁, x, trial, st₂, hstart, hjac, hstep, htrial, hsolved⟩

end Memoryless

end TieredCalculus
