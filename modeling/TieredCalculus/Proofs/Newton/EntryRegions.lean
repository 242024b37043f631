import TieredCalculus.Proofs.Newton.Direction
import TieredCalculus.Proofs.Newton.EntryMultipliers

/-! # Trust regions of single entries

A run of the trust region on a batch is a run on every entry in which the multipliers may be
iterated further than the entry asks for by itself. Nothing else passes from one entry to
another.
-/

namespace TieredCalculus

variable {σ α : Type} {batch : Shape} {n : Nat}

section Directions

variable [Zero α] [One α] [Neg α] [Add α] [Sub α] [Mul α] [Div α] [LT α] [DecidableLT α] [LE α]
  [DecidableLE α] [Scalar α] [OfScientific α]

/-! ## The direction of one entry -/

namespace QuadraticModel

/-- The constrained step for a multiplier. -/
def constrained (m : QuadraticModel α n) (y : α) : Except (SolveError α) (Vector α n) :=
  match m.step? Lu.threshold y with
  | some (q, _) => .ok q
  | none => .error (.singularMatrix 0)

/-- The direction of an entry with Newton step `p`, its multiplier iterated `extra` times more
than the entry asks for. -/
def direction (m : QuadraticModel α n) (t : Tolerances α) (p : Vector α n) (extra : Nat) :
    Except (SolveError α) (Vector α n) := do
  let (y, _) ← m.boundary.run Newton.entryNext (.replicate 1 0) (m.stop t + extra)
  if m.inside then return p else m.constrained (numberOf y)

variable {m : QuadraticModel α n} {t : Tolerances α} {p : Vector α n}

theorem direction_of_run {k : Nat} {y : Vector α 1 × Vector α 1} (hk : m.stop t ≤ k)
    (hy : m.boundary.run Newton.entryNext (.replicate 1 0) k = .ok y) :
    m.direction t p (k - m.stop t) = if m.inside then .ok p else m.constrained (numberOf y.1) := by
  rw [direction, Nat.add_sub_cancel' hk, hy]
  rfl

theorem direction_error {i : Nat} {e : SolveError α}
    (h : m.boundary.run Newton.entryNext (.replicate 1 0) i = .error e) :
    m.direction t p i = .error e := by
  rw [direction, EntryFunctions.run_error h (Nat.le_add_left i (m.stop t))]
  rfl

theorem direction_of_inside (h : m.inside = true) : m.direction t p 0 = .ok p := by
  have hrun : m.boundary.run Newton.entryNext (.replicate 1 0) 0 =
      .ok (.replicate 1 0, .replicate 1 0) := by
    rw [EntryFunctions.run, (Subproblem.boundary_eq_ok (Subproblem.equation_of_inside h _)).1]
    rfl
  have hk : m.stop t ≤ 0 := (stop_of_inside h).le
  refine (congrArg (m.direction t p) (by omega)).trans ((direction_of_run hk hrun).trans ?_)
  exact if_pos h

end QuadraticModel

namespace TrustRegion

/-- The radius of a batch entry. -/
def radiusAt (batch : Shape) (delta : List α) (b : Index) : α :=
  delta[batch.offset b]?.getD 0

omit [One α] [Neg α] [Add α] [Sub α] [Mul α] [Div α] [LT α] [DecidableLT α] [LE α]
  [DecidableLE α] [Scalar α] [OfScientific α] in
theorem radiusAt_mem {delta : List α} {b : Index} (h : delta.length = batch.numel)
    (hb : Shape.InBounds batch b) : radiusAt batch delta b ∈ delta := by
  have hlt := Shape.offset_lt hb
  rw [← h] at hlt
  unfold radiusAt
  rw [List.getElem?_eq_getElem hlt]
  exact List.getElem_mem hlt

omit [One α] [Neg α] [Add α] [Sub α] [Mul α] [Div α] [LT α] [DecidableLT α] [LE α]
  [DecidableLE α] [Scalar α] [OfScientific α] in
theorem radiusAt_zipWith {β : Type} {delta : List α} {g : Nat → β} {next : β → α → α} {b : Index}
    (h : delta.length = batch.numel) (hb : Shape.InBounds batch b) :
    radiusAt batch (List.zipWith next ((List.range batch.numel).map g) delta) b =
      next (g (batch.offset b)) (radiusAt batch delta b) := by
  have hlt := Shape.offset_lt hb
  have hlt' : batch.offset b < delta.length := by omega
  unfold radiusAt
  rw [List.getElem?_zipWith, List.getElem?_map, List.getElem?_range hlt,
    List.getElem?_eq_getElem hlt']
  rfl

def entryDirection (t : Tolerances α) (r : Vector α n) (j : Square α n) (d : α) (extra : Nat) :
    Except (SolveError α) (Vector α n) := do
  let p ← Lu.entryStep r j
  (QuadraticModel.ofEntry r j p d).direction t p extra

/-! ## The directions of a batch -/

variable {r j x : Tensor α} {delta : List α}

def modelAt (n : Nat) (batch : Shape) (r j x : Tensor α) (delta : List α) (b : Index) :
    QuadraticModel α n :=
  .ofEntry (r.runAt n b) (j.squareAt n b) (x.runAt n b) (radiusAt batch delta b)

omit [Neg α] [Sub α] [Div α] [LT α] [DecidableLT α] [OfScientific α] in
theorem create_entries (hrb : r.batch.expandsTo batch = true) (hr : r.Packed n)
    (hjb : j.batch.expandsTo batch = true) (hj : j.PackedSquare n)
    (hxb : x.batch.expandsTo batch = true) (hx : x.Packed n)
    (hdelta : delta.length = batch.numel) :
    ∃ newton models, x.expandBatch batch = .ok newton ∧ newton.batch = batch ∧
      newton.Packed n ∧ Subproblem.create batch r j newton delta = .ok ⟨batch, n, models⟩ ∧
      models.length = batch.numel ∧ ∀ {b : Index}, Shape.InBounds batch b →
        newton.vectorRun n (batch.offset b) = x.runAt n b ∧
          models[batch.offset b]? = some (modelAt n batch r j x delta b) := by
  have hself := Shape.expandsTo_refl batch
  obtain ⟨newton, hnewton⟩ := Tensor.expandBatch_isOk hxb
  obtain ⟨-, hnb, hnp, hnrun⟩ := hx.expandBatch hnewton
  obtain ⟨sub, hcreate⟩ := Subproblem.create_isOk (p := newton) hrb hjb (hnb ▸ hself) hdelta
  obtain ⟨r', j', p', models, hr', hj', hp', rfl, hlen, hmodels⟩ :=
    Subproblem.create_eq_ok hr hcreate
  obtain ⟨-, hrb', -, hrrun⟩ := hr.expandBatch hr'
  obtain ⟨-, hjb', -, hjrun⟩ := hj.expandBatch hj'
  obtain ⟨-, hpb', -, hprun⟩ := hnp.expandBatch hp'
  refine ⟨newton, models, hnewton, hnb, hnp, hcreate, hlen, fun {b} hb => ⟨?_, ?_⟩⟩
  · rw [← hnrun hself hb, Tensor.runAt_of_inBounds newton n (hnb ▸ hb), hnb]
  · rw [hmodels _ (Shape.offset_lt hb), modelAt, ← hrrun hself hb, ← hjrun hself hb,
      ← hnrun hself hb, ← hprun hself hb, Tensor.runAt_of_inBounds r' n (hrb' ▸ hb),
      Tensor.squareAt_of_inBounds j' n (hjb' ▸ hb), Tensor.runAt_of_inBounds p' n (hpb' ▸ hb),
      hrb', hjb', hpb']
    rfl

/-- The constrained steps of a batch are those of its entries for multipliers iterated no less
than each entry asks for, or fail as the direction of some entry does. -/
theorem constrained_entries {t : Tolerances α} {models : List (QuadraticModel α n)}
    {model : Index → QuadraticModel α n} {p : Index → Vector α n} (ht : t.validate = .ok ())
    (hlen : models.length = batch.numel)
    (hmodels : ∀ {b : Index}, Shape.InBounds batch b → models[batch.offset b]? = some (model b))
    {sol : Except (SolveError α) (Solution α)}
    (hsol : sol = (((⟨t, .dense⟩ : Newton α).iteration.solve
      (Subproblem.system ⟨batch, n, models⟩) (.zeros batch [] [1])).outcome none).1) :
    (∀ c, (sol >>= fun sol => Subproblem.step ⟨batch, n, models⟩ sol.value) = .ok c →
      ∃ extra : Index → Nat, ∀ {b : Index}, Shape.InBounds batch b →
        (batch.numel = 1 → (model b).inside = false → extra b = 0) ∧
        (model b).direction t (p b) (extra b) =
          .ok (if (model b).inside then p b else c.vectorRun n (batch.offset b))) ∧
    ∀ e, (sol >>= fun sol => Subproblem.step ⟨batch, n, models⟩ sol.value) = .error e →
      ∃ extra : Index → Nat, EntryFails batch
        (fun b => (model b).direction t (p b) (extra b)) e := by
  subst hsol
  obtain ⟨hsolved, hunsolved⟩ := Subproblem.solve_multipliers hlen ht
  constructor
  · intro c hc
    obtain ⟨sol, hsol, hstep⟩ := Update.except_bind_eq_ok.1 hc
    obtain ⟨hvb, hvp, k, hk⟩ := hsolved sol hsol
    obtain ⟨y, hy, -, -, hsteps⟩ := Subproblem.step_eq_ok hstep
    refine ⟨fun b => k - (model b).stop t, fun {b} hb => ?_⟩
    obtain ⟨hle, halone, q, hrun⟩ := hk hb (hmodels hb)
    refine ⟨fun hone hout => Nat.sub_eq_zero_of_le (halone hone hout).ge, ?_⟩
    rw [QuadraticModel.direction_of_run hle hrun]
    cases hin : (model b).inside with
    | true => rfl
    | false =>
        obtain ⟨lu, hlu⟩ := hsteps _ _ (hmodels hb) hin
        rw [hvp.number_expandBatch hy hb] at hlu
        simp only [Bool.false_eq_true, if_false]
        unfold QuadraticModel.constrained
        rw [hlu]
  · intro e he
    rcases Update.except_bind_eq_error.1 he with hsol | ⟨sol, hsol, hstep⟩
    · obtain ⟨i, b, e', hb, hrun, hraised⟩ := hunsolved e hsol
      dsimp only at hrun
      rw [Subproblem.boundaryAt_of_getElem (hmodels hb)] at hrun
      exact ⟨fun _ => i, b, e', hb, QuadraticModel.direction_error hrun, hraised⟩
    · obtain ⟨hvb, hvp, k, hk⟩ := hsolved sol hsol
      obtain ⟨y, hy⟩ := Tensor.expandBatch_of_batch_eq hvb
      obtain ⟨b, m, hb, hm, hout, hnone, rfl⟩ := Subproblem.step_eq_error hlen hy hstep
      cases (hmodels hb).symm.trans hm
      obtain ⟨hle, -, q, hrun⟩ := hk hb hm
      refine ⟨fun b => k - (model b).stop t, b, .singularMatrix 0, hb, ?_, .inr ⟨rfl, rfl⟩⟩
      rw [hvp.number_expandBatch hy hb] at hnone
      dsimp only
      rw [QuadraticModel.direction_of_run hle hrun, hout]
      simp only [Bool.false_eq_true, if_false]
      unfold QuadraticModel.constrained
      rw [hnone]

section Batch

variable {s : TrustRegion α} {newton : Tensor α} {models : List (QuadraticModel α n)}

def pickSteps (batch : Shape) (models : List (QuadraticModel α n)) (newton c : Tensor α) :
    Except (SolveError α) (Tensor α) :=
  Tensor.ofValues batch [] [newton.baseNumel]
    (((Subproblem.inside ⟨batch, n, models⟩).zipIdx.map fun x =>
      ((if x.1 then newton else c).vectorRun newton.baseNumel x.2).toArray).foldl (· ++ ·) #[])

omit [One α] [Neg α] [Add α] [Sub α] [Mul α] [Div α] [LT α] [DecidableLT α] [LE α]
  [DecidableLE α] [Scalar α] [OfScientific α] in
theorem pickSteps_rows {c : Tensor α} (hn : newton.Packed n)
    (hlen : models.length = batch.numel) :
    ∃ d, pickSteps batch models newton c = .ok d ∧ d.batch = batch ∧ d.Packed n ∧
      ∀ {b : Index} {m : QuadraticModel α n}, Shape.InBounds batch b →
        models[batch.offset b]? = some m → d.runAt n b =
          if m.inside then newton.vectorRun n (batch.offset b)
          else c.vectorRun n (batch.offset b) := by
  have hrows : ((Subproblem.inside ⟨batch, n, models⟩).zipIdx.map fun x =>
      (if x.1 then newton else c).vectorRun n x.2).length = batch.numel := by
    simp [Subproblem.inside, hlen]
  obtain ⟨d, hd⟩ := Tensor.ofValues_rows_isOk hrows
  obtain ⟨hdb, hdp, hrun⟩ := Tensor.ofValues_rows hd
  rw [← Tensor.foldl_rows] at hd
  refine ⟨d, ?_, hdb, hdp, fun {b m} hb hm => ?_⟩
  · rw [pickSteps, hn.baseNumel_eq]
    exact SolveError.ofTensor_eq_ok.2 hd
  · have hrow : d.vectorRun n (batch.offset b) =
        (if m.inside then newton else c).vectorRun n (batch.offset b) := by
      apply hrun
      rw [List.getElem?_map, List.getElem?_zipIdx, Subproblem.inside, List.getElem?_map, hm]
      simp
    rw [Tensor.runAt_of_inBounds d n (hdb ▸ hb), hdb, hrow]
    cases m.inside <;> rfl

theorem direction_eq (hlin : s.linear = .dense)
    (hx : (LinearSolver.dense : LinearSolver α).newtonStep r j = .ok x)
    (hnewton : x.expandBatch batch = .ok newton)
    (hcreate : Subproblem.create batch r j newton delta = .ok ⟨batch, n, models⟩) :
    s.direction batch r j delta =
      if (Subproblem.inside ⟨batch, n, models⟩).all id then .ok newton
      else ((((⟨s.subproblem, .dense⟩ : Newton α).iteration.solve
          (Subproblem.system ⟨batch, n, models⟩) (.zeros batch [] [1])).outcome none).1 >>=
        fun sol => Subproblem.step ⟨batch, n, models⟩ sol.value) >>=
          pickSteps batch models newton := by
  unfold direction
  rw [hlin, hx]
  show (liftM (x.expandBatch batch) >>= _ : Except (SolveError α) (Tensor α)) = _
  rw [hnewton]
  show (Subproblem.create batch r j newton delta >>= _) = _
  rw [hcreate, bind_assoc]
  rfl

omit [Zero α] [One α] [Neg α] [Add α] [Sub α] [Mul α] [Div α] [LT α] [DecidableLT α] [LE α]
  [DecidableLE α] [Scalar α] [OfScientific α] in
private theorem outside_of_one {m : QuadraticModel α n} {b : Index}
    (hlen : models.length = batch.numel) (hone : batch.numel = 1) (hb : Shape.InBounds batch b)
    (hm : models[batch.offset b]? = some m)
    (hall : ¬(Subproblem.inside ⟨batch, n, models⟩).all id = true) : m.inside = false := by
  obtain ⟨m', rfl⟩ := List.length_eq_one_iff.1 (hlen.trans hone)
  have hlt := Shape.offset_lt hb
  have hoff : batch.offset b = 0 := by omega
  rw [hoff] at hm
  cases hm
  simpa [Subproblem.inside] using hall

/-- The direction of a batch consists of directions of its entries, with no extra iterations in
a batch of one entry, or it fails as the direction of some entry does. -/
theorem direction_entries (hlin : s.linear = .dense) (hsub : s.subproblem.validate = .ok ())
    (hrb : r.batch = batch) (hr : r.Packed n) (hjb : j.batch.expandsTo batch = true)
    (hj : j.PackedSquare n) (hdelta : delta.length = batch.numel) :
    (∀ d, s.direction batch r j delta = .ok d → ∃ extra : Index → Nat,
      (batch.numel = 1 → ∀ {b : Index}, Shape.InBounds batch b → extra b = 0) ∧
      Collects batch (fun b => entryDirection s.subproblem (r.runAt n b) (j.squareAt n b)
        (radiusAt batch delta b) (extra b)) d) ∧
    ∀ e, s.direction batch r j delta = .error e → ∃ extra : Index → Nat,
      EntryFails batch (fun b => entryDirection s.subproblem (r.runAt n b) (j.squareAt n b)
        (radiusAt batch delta b) (extra b)) e := by
  obtain ⟨hok, herr⟩ := LinearSolver.newtonStep_entries hrb hr hjb hj
  cases hx : (LinearSolver.dense : LinearSolver α).newtonStep r j with
  | error e' =>
      have hdir : s.direction batch r j delta = .error e' := by
        unfold direction
        rw [hlin, hx]
        rfl
      rw [hdir]
      refine ⟨fun d h => (by cases h), fun e h => ⟨fun _ => 0, ?_⟩⟩
      cases h
      refine (herr e' hx).mono fun b e' _ he => ?_
      rw [entryDirection, he]
      rfl
  | ok x =>
  have hc := hok x hx
  have hself := Shape.expandsTo_refl batch
  obtain ⟨newton, models, hnewton, hnb, hnp, hcreate, hlen, hentry⟩ :=
    create_entries (hrb ▸ hself) hr hjb hj (hc.batch_eq ▸ hself) hc.packed hdelta
  have hmodels : ∀ {b : Index}, Shape.InBounds batch b →
      models[batch.offset b]? = some (modelAt n batch r j x delta b) := fun hb => (hentry hb).2
  have hdirection : ∀ {b : Index}, Shape.InBounds batch b → ∀ extra,
      entryDirection s.subproblem (r.runAt n b) (j.squareAt n b) (radiusAt batch delta b)
        extra = (modelAt n batch r j x delta b).direction s.subproblem (x.runAt n b) extra := by
    intro b hb extra
    rw [entryDirection, hc.run_eq hb]
    rfl
  rw [direction_eq hlin hx hnewton hcreate]
  by_cases hall : (Subproblem.inside ⟨batch, n, models⟩).all id = true
  · rw [if_pos hall]
    refine ⟨fun d h => ?_, fun e h => by cases h⟩
    cases h
    refine ⟨fun _ => 0, fun _ _ _ => rfl, hnb, hnp, fun {b} hb => ?_⟩
    have hin : (modelAt n batch r j x delta b).inside = true := by
      unfold Subproblem.inside at hall
      rw [List.all_map, List.all_eq_true] at hall
      exact hall _ (List.mem_of_getElem? (hmodels hb))
    rw [hdirection hb, QuadraticModel.direction_of_inside hin,
      Tensor.runAt_of_inBounds newton n (hnb ▸ hb), hnb, (hentry hb).1]
  rw [if_neg hall]
  obtain ⟨hstep, hfail⟩ := constrained_entries (p := fun b => x.runAt n b) hsub hlen hmodels rfl
  generalize (((⟨s.subproblem, .dense⟩ : Newton α).iteration.solve
    (Subproblem.system ⟨batch, n, models⟩) (.zeros batch [] [1])).outcome none).1 >>= (fun sol =>
      Subproblem.step ⟨batch, n, models⟩ sol.value) = constrained at hstep hfail ⊢
  cases constrained with
  | error e' =>
      refine ⟨fun d h => (by cases h), fun e h => ?_⟩
      cases h
      obtain ⟨extra, he⟩ := hfail e' rfl
      exact ⟨extra, he.mono fun b e' hb hd => (hdirection hb _).trans hd⟩
  | ok c =>
      obtain ⟨d, hd, hdb, hdp, hrow⟩ := pickSteps_rows (c := c) hnp hlen
      show (∀ d, pickSteps batch models newton c = .ok d → _) ∧
        ∀ e, pickSteps batch models newton c = .error e → _
      rw [hd]
      refine ⟨fun d' h => ?_, fun e h => by cases h⟩
      cases h
      obtain ⟨extra, hextra⟩ := hstep c rfl
      refine ⟨extra, fun hone {b} hb => (hextra hb).1 hone ?_, hdb, hdp, fun {b} hb => ?_⟩
      · exact outside_of_one hlen hone hb (hmodels hb) hall
      · rw [hdirection hb, (hextra hb).2, hrow hb (hmodels hb), (hentry hb).1]

end Batch

/-! ## Runs -/

variable [BEq α]

def entryJudge (s : TrustRegion α) (u r : Vector α n) (j : Square α n) (d : α)
    (p r₁ : Vector α n) : Vector α n × α :=
  let rho := ratio (predicted r j p) (actual r r₁)
  (if s.acceptFrom ≤ rho then Vector.zipWith (· + ·) u p else u, s.nextRadius rho d)

def entryNext (s : TrustRegion α) (f : EntryFunctions α n) (u r : Vector α n) (j : Square α n)
    (d : α) (extra : Nat) : Except (SolveError α) (Vector α n × α) := do
  let p ← entryDirection s.subproblem r j d extra
  let r₁ ← f.residual (Vector.zipWith (· + ·) u p)
  return s.entryJudge u r j d p r₁

/-- Iterate, residual and radius of one entry after a run of updates, each given by the extra
iterations of its multiplier, the last one first. -/
def entryRun (s : TrustRegion α) (f : EntryFunctions α n) (v : Vector α n) :
    List Nat → Except (SolveError α) (Vector α n × Vector α n × α)
  | [] => do
    let r ← f.residual v
    return (v, r, s.initialRadius)
  | extra :: rest => do
    let (u, r, d) ← s.entryRun f v rest
    let j ← f.jacobian u
    let (u, d) ← s.entryNext f u r j d extra
    let r ← f.residual u
    return (u, r, d)

variable {s : TrustRegion α} {f : Index → EntryFunctions α n}

def ratioAt (n : Nat) (r j d r₁ : Tensor α) (k : Nat) : α :=
  ratio (predicted (r.vectorRun n k) (j.squareRun n k) (d.vectorRun n k))
    (actual (r.vectorRun n k) (r₁.vectorRun n k))

theorem entryNext_of_direction {f : EntryFunctions α n} {u r p : Vector α n} {j : Square α n}
    {d : α} {extra : Nat} (h : entryDirection s.subproblem r j d extra = .ok p) :
    s.entryNext f u r j d extra = f.residual (Vector.zipWith (· + ·) u p) >>= fun r₁ =>
      pure (s.entryJudge u r j d p r₁) := by
  rw [entryNext, h]
  rfl

omit [OfScientific α] in
theorem judge_entries {u d m r₁ : Tensor α} (hub : u.batch = batch) (hu : u.Packed n)
    (hrb : r.batch = batch) (hjb : j.batch = batch) (hdb : d.batch = batch) (hmb : m.batch = batch)
    (hm : m.Packed n) (hr₁b : r₁.batch = batch) (hdelta : delta.length = batch.numel)
    (hmoved : ∀ {b : Index}, Shape.InBounds batch b →
      m.runAt n b = Vector.zipWith (· + ·) (u.runAt n b) (d.runAt n b)) :
    ∃ v, Tensor.ofValues batch [] [n] (u.data.mapIdx fun k x =>
        match ((List.range batch.numel).map (ratioAt n r j d r₁))[k / n]? with
        | some rho => if s.acceptFrom ≤ rho then m.data[k]?.getD x else x
        | none => x) = .ok v ∧ v.batch = batch ∧ v.Packed n ∧
      ∀ {b : Index}, Shape.InBounds batch b →
        s.entryJudge (u.runAt n b) (r.runAt n b) (j.squareAt n b) (radiusAt batch delta b)
          (d.runAt n b) (r₁.runAt n b) = (v.runAt n b, radiusAt batch (List.zipWith
            (fun rho d => s.nextRadius rho d) ((List.range batch.numel).map (ratioAt n r j d r₁))
            delta) b) := by
  obtain ⟨v, hv, hvb, hvp, hrun⟩ := hu.ofValues_choice hub hmb hm (ratioAt n r j d r₁)
    (s.acceptFrom ≤ ·)
  refine ⟨v, hv, hvb, hvp, fun {b} hb => ?_⟩
  have hratio : ratioAt n r j d r₁ (batch.offset b) =
      ratio (predicted (r.runAt n b) (j.squareAt n b) (d.runAt n b))
        (actual (r.runAt n b) (r₁.runAt n b)) := by
    rw [Tensor.runAt_of_inBounds r n (hrb ▸ hb), Tensor.squareAt_of_inBounds j n (hjb ▸ hb),
      Tensor.runAt_of_inBounds d n (hdb ▸ hb), Tensor.runAt_of_inBounds r₁ n (hr₁b ▸ hb), hrb, hjb,
      hdb, hr₁b, ratioAt]
  rw [hrun hb, radiusAt_zipWith hdelta hb, hratio, hmoved hb]
  rfl

/-- An update of a batch is one of each of its entries, with no extra iterations in a batch of
one entry, or it fails as the update of some entry does. -/
theorem update_entries (p : BatchProblem σ batch n f) (hlin : s.linear = .dense)
    (hsub : s.subproblem.validate = .ok ()) {u : Tensor α} {st : σ} {w : Option (Tensor α)}
    (hub : u.batch = batch) (hu : u.Packed n) (hrb : r.batch = batch) (hr : r.Packed n)
    (hjb : j.batch.expandsTo batch = true) (hj : j.PackedSquare n)
    (hdelta : delta.length = batch.numel) (hw : p.memoryless.holds st w) :
    (s.update p.sys u r j).Ensures (st, delta)
      (fun u' st' => u'.batch = batch ∧ u'.Packed n ∧ (∃ w, p.memoryless.holds st'.1 w) ∧
        st'.2.length = batch.numel ∧ ∃ extra : Index → Nat,
          (batch.numel = 1 → ∀ {b : Index}, Shape.InBounds batch b → extra b = 0) ∧
          ∀ {b : Index}, Shape.InBounds batch b →
            s.entryNext (f b) (u.runAt n b) (r.runAt n b) (j.squareAt n b)
              (radiusAt batch delta b) (extra b) = .ok (u'.runAt n b, radiusAt batch st'.2 b))
      (fun e => ∃ extra : Index → Nat, EntryFails batch
        (fun b => s.entryNext (f b) (u.runAt n b) (r.runAt n b) (j.squareAt n b)
          (radiusAt batch delta b) (extra b)) e) := by
  have hself := Shape.expandsTo_refl batch
  have hbatch : Shape.broadcastAll [u.batch, r.batch, j.batch] = .ok batch :=
    Shape.broadcastAll_of_mem (by simp [hub]) (by simp [hub, hrb, hjb, hself])
  obtain ⟨u', hu'⟩ := Tensor.expandBatch_of_batch_eq hub
  obtain ⟨r', hr'⟩ := Tensor.expandBatch_of_batch_eq hrb
  obtain ⟨j', hj'⟩ := Tensor.expandBatch_isOk hjb
  obtain ⟨-, hub', hup', hurun⟩ := hu.expandBatch hu'
  obtain ⟨-, hrb', hrp', hrrun⟩ := hr.expandBatch hr'
  obtain ⟨-, hjb', hjp', hjrun⟩ := hj.expandBatch hj'
  obtain ⟨hok, herr⟩ := direction_entries hlin hsub hrb hr hjb hj hdelta
  unfold update
  rw [hbatch]
  refine Update.Ensures.bind (Q := fun b st' => batch = b ∧ (st, delta) = st') ⟨rfl, rfl⟩ ?_
  rintro _ _ ⟨rfl, rfl⟩
  -- A list of one radius is the one entry's already.
  refine Update.Ensures.bind (Q := fun _ st' => (st, delta) = st') ?_ ?_
  · rcases delta with _ | ⟨d, _ | ⟨d', rest⟩⟩
    · rfl
    · show (st, [d]) = (st, List.replicate batch.numel d)
      rw [← hdelta]
      rfl
    · rfl
  rintro _ _ rfl
  show Update.Ensures (liftM (s.direction batch r j delta) >>= _) (st, delta) _ _
  cases hd : s.direction batch r j delta with
  | error e =>
      obtain ⟨extra, he⟩ := herr e hd
      refine ⟨extra, he.mono fun b e' hb hfail => ?_⟩
      rw [entryNext, hfail]
      rfl
  | ok d =>
  obtain ⟨extra, halone, hc⟩ := hok d hd
  obtain ⟨m, hm, hmb, hmp, hmrun⟩ := hu.zipWith_same (· + ·) hc.packed (hc.batch_eq.trans hub.symm)
  rw [hub] at hmb hmrun
  obtain ⟨m', hm'⟩ := Tensor.expandBatch_of_batch_eq hmb
  obtain ⟨-, hmb', hmp', hmrun'⟩ := hmp.expandBatch hm'
  have hmoved : ∀ {b : Index}, Shape.InBounds batch b →
      m'.runAt n b = Vector.zipWith (· + ·) (u.runAt n b) (d.runAt n b) := by
    intro b hb
    rw [hmrun' hself hb, hmrun hb]
  rw [hu', hr', hj']
  show Update.Ensures (liftM (u.add d) >>= _) (st, delta) _ _
  rw [Tensor.add, hm]
  show Update.Ensures (liftM (m.expandBatch batch) >>= _) (st, delta) _ _
  rw [hm']
  refine (p.sets hw hmp' (.inl hmb')).onFirst.bind ?_
  rintro _ ⟨st₁, _⟩ ⟨h₁, rfl⟩
  refine ((p.evaluates h₁ hmp' (.inl hmb')).mono (fun _ _ h => h) fun e he => ?_).onFirst.bind ?_
  · refine ⟨extra, he.mono fun b e' hb hres => ?_⟩
    rw [hmoved hb] at hres
    rw [entryNext_of_direction (hc.run_eq hb), hres]
    rfl
  rintro r₁ ⟨st₂, _⟩ ⟨⟨h₂, hr₁⟩, rfl⟩
  obtain ⟨r₂, hr₂⟩ := Tensor.expandBatch_of_batch_eq hr₁.batch_eq
  obtain ⟨-, hrb₂, -, hrrun₂⟩ := hr₁.packed.expandBatch hr₂
  obtain ⟨v, hv, hvb, hvp, hjudge⟩ := judge_entries (r := r') (j := j') (s := s) hub' hup' hrb'
    hjb' hc.batch_eq hmb' hmp' hrb₂ hdelta fun {b} hb => by rw [hmoved hb, hurun hself hb]
  rw [hr₂]
  refine Update.Ensures.bind (Q := fun b st' => r₂ = b ∧ (st₂, delta) = st') ⟨rfl, rfl⟩ ?_
  rintro _ _ ⟨rfl, rfl⟩
  rw [hup'.baseNumel_eq]
  refine Update.Ensures.bind (Q := fun _ st' => st' = (st₂, List.zipWith
    (fun rho d => s.nextRadius rho d) ((List.range batch.numel).map (ratioAt n r' j' d r₂))
    delta)) rfl ?_
  rintro _ _ rfl
  show Update.Ensures (liftM (Tensor.ofValues batch [] [n] (u'.data.mapIdx _))) _ _ _
  refine Update.ensures_lift (fun b hb => ?_) fun e he => ?_
  · cases (SolveError.ofTensor_eq_ok.2 hv).symm.trans hb
    refine ⟨hvb, hvp, ⟨some m', h₂⟩, by simp [hdelta], extra, halone, fun {b} hb => ?_⟩
    rw [entryNext_of_direction (hc.run_eq hb), ← hmoved hb, hr₁.run_eq hb, ← hjudge hb,
      hurun hself hb, hrrun hself hb, hjrun hself hb, hrrun₂ hself hb]
    rfl
  · cases (SolveError.ofTensor_eq_ok.2 hv).symm.trans he

section Runs

variable {f : EntryFunctions α n} {v u u' r r' : Vector α n} {d d' : α} {j : Square α n}
  {extra : List Nat} {k : Nat}

theorem entryRun_cons (h : s.entryRun f v extra = .ok (u, r, d)) (k : Nat) :
    s.entryRun f v (k :: extra) = f.jacobian u >>= fun j => s.entryNext f u r j d k >>= fun x =>
      f.residual x.1 >>= fun r => pure (x.1, r, x.2) := by
  rw [entryRun, h]
  rfl

theorem entryRun_cons_ok (h : s.entryRun f v extra = .ok (u, r, d)) (hj : f.jacobian u = .ok j)
    (hu : s.entryNext f u r j d k = .ok (u', d')) (hr : f.residual u' = .ok r') :
    s.entryRun f v (k :: extra) = .ok (u', r', d') := by
  rw [entryRun_cons h]
  apply Update.except_bind_eq_ok.2 ⟨j, hj, ?_⟩
  apply Update.except_bind_eq_ok.2 ⟨(u', d'), hu, ?_⟩
  exact Update.except_bind_eq_ok.2 ⟨r', hr, rfl⟩

theorem entryRun_cons_error {e : SolveError α} (h : s.entryRun f v extra = .ok (u, r, d))
    (hfail : f.jacobian u = .error e ∨ ∃ j, f.jacobian u = .ok j ∧
      (s.entryNext f u r j d k = .error e ∨
        ∃ u' d', s.entryNext f u r j d k = .ok (u', d') ∧ f.residual u' = .error e)) :
    s.entryRun f v (k :: extra) = .error e := by
  rw [entryRun_cons h, Update.except_bind_eq_error]
  refine hfail.imp_right fun ⟨j, hj, hnext⟩ => ⟨j, hj, ?_⟩
  rw [Update.except_bind_eq_error]
  refine hnext.imp_right fun ⟨u', d', hu, hr⟩ => ⟨(u', d'), hu, ?_⟩
  exact Update.except_bind_eq_error.2 (.inl hr)

theorem entryRun_error {e : SolveError α} (h : s.entryRun f v extra = .error e) (k : Nat) :
    s.entryRun f v (k :: extra) = .error e := by
  rw [entryRun, h]
  rfl

end Runs

/-- A head holds a run of each entry, with its radius and its extra iterations, of which there
are none in a batch of one entry. -/
structure HoldsRuns (s : TrustRegion α) (p : BatchProblem σ batch n f) (i : Nat)
    (h : Head σ (List α) α) (delta : List α) (extra : Index → List Nat) : Prop where
  reached : p.Reached h
  data : h.data = .ok delta
  radii : delta.length = batch.numel
  length : ∀ {b : Index}, Shape.InBounds batch b → (extra b).length = i
  alone : batch.numel = 1 → ∀ {b : Index}, Shape.InBounds batch b → ∀ k ∈ extra b, k = 0
  runs : ∀ {b : Index}, Shape.InBounds batch b → s.entryRun (f b) (p.guess.runAt n b) (extra b) =
    .ok (h.value.runAt n b, h.residual.runAt n b, radiusAt batch delta b)

theorem start_entries (p : BatchProblem σ batch n f) :
    (Iteration.start p.sys p.guess).Ensures p.state
      (fun q st => ∃ delta extra, s.HoldsRuns p 0
        ⟨st, (s.iteration : Iteration σ (List α) α).prepare p.sys st q.1, q.1, q.2⟩ delta extra)
      (fun e => ∃ extra : List Nat, extra.length = 0 ∧
        EntryFails batch (fun b => s.entryRun (f b) (p.guess.runAt n b) extra) e) := by
  refine (p.start_reached ((s.iteration : Iteration σ (List α) α).prepare p.sys)).mono
    (fun q st ⟨hq, hstart⟩ => ?_) fun e he => ⟨[], rfl, he.mono fun b e' _ hr => ?_⟩
  · have hbatch : q.1.batch = batch := hq.value_batch
    refine ⟨_, fun _ => [], hq, rfl, ?_, fun _ => rfl, fun _ _ _ k hk => (by cases hk),
      fun {b} hb => ?_⟩
    · rw [List.length_replicate, hbatch]
    · have hlt : batch.offset b < q.1.batch.numel := by
        rw [hbatch]
        exact Shape.offset_lt hb
      rw [entryRun, ← hstart hb, hq.residual.run_eq hb, radiusAt, List.getElem?_replicate,
        if_pos hlt]
      rfl
  · rw [entryRun, hr]
    rfl

theorem pass_entries (p : BatchProblem σ batch n f) (hlin : s.linear = .dense)
    (hsub : s.subproblem.validate = .ok ()) {i : Nat} {h : Head σ (List α) α}
    {extra : Index → List Nat} (hh : s.HoldsRuns p i h delta extra) :
    ((s.iteration : Iteration σ (List α) α).pass p.sys h.value h.residual).Ensures
      (h.state, delta)
      (fun q st => ∃ delta extra, s.HoldsRuns p (i + 1) ⟨st.1, .ok st.2, q.1, q.2⟩ delta extra)
      (fun e => ∃ extra : List Nat, extra.length = i + 1 ∧
        EntryFails batch (fun b => s.entryRun (f b) (p.guess.runAt n b) extra) e) := by
  have hlen : ∀ {b : Index}, Shape.InBounds batch b → ∀ k, (k :: extra b).length = i + 1 := by
    intro b hb k
    rw [List.length_cons, hh.length hb]
  have hr := hh.reached
  refine (p.pass_reached hr (C := fun u t => t.length = batch.numel ∧ ∃ k : Index → Nat,
      (batch.numel = 1 → ∀ {b : Index}, Shape.InBounds batch b → k b = 0) ∧
      ∀ {b : Index}, Shape.InBounds batch b → ∃ j, (f b).jacobian (h.value.runAt n b) = .ok j ∧
        s.entryNext (f b) (h.value.runAt n b) (h.residual.runAt n b) j (radiusAt batch delta b)
          (k b) = .ok (u.runAt n b, radiusAt batch t b))
    (fun e he => ?_) (fun j st w hj hw => ?_) fun u t hC e he => ?_).mono
    (fun q st ⟨hq, hC⟩ => ?_) fun e he => he
  · obtain ⟨b, e', hb, hjac, hraised⟩ := he
    exact ⟨0 :: extra b, hlen hb 0, b, e', hb,
      entryRun_cons_error (hh.runs hb) (.inl hjac), hraised⟩
  · refine (update_entries p hlin hsub hr.value_batch hr.value_packed hr.residual.batch_eq
      hr.residual.packed hj.expands hj.packed hh.radii hw).mono
      (fun u st ⟨hub, hup, hst, hut, k, halone, hnext⟩ => ?_) fun e he => ?_
    · exact ⟨hub, hup, hst, hut, k, halone,
        fun {b} hb => ⟨j.squareAt n b, hj.run_eq hb, hnext hb⟩⟩
    · obtain ⟨k, b, e', hb, hfail, hraised⟩ := he
      exact ⟨k b :: extra b, hlen hb (k b), b, e', hb,
        entryRun_cons_error (hh.runs hb) (.inr ⟨_, hj.run_eq hb, .inl hfail⟩), hraised⟩
  · obtain ⟨-, k, -, hnext⟩ := hC
    obtain ⟨b, e', hb, hres, hraised⟩ := he
    obtain ⟨j, hj, hu⟩ := hnext hb
    exact ⟨k b :: extra b, hlen hb (k b), b, e', hb,
      entryRun_cons_error (hh.runs hb) (.inr ⟨j, hj, .inr ⟨_, _, hu, hres⟩⟩), hraised⟩
  · obtain ⟨hradii, k, halone, hnext⟩ := hC
    refine ⟨st.2, fun b => k b :: extra b, hq, rfl, hradii, fun hb => hlen hb (k _),
      fun hone b hb m hm => ?_, fun {b} hb => ?_⟩
    · rcases List.mem_cons.1 hm with rfl | hm
      · exact halone hone hb
      · exact hh.alone hone hb m hm
    · obtain ⟨j, hj, hu⟩ := hnext hb
      exact entryRun_cons_ok (hh.runs hb) hj hu (hq.residual.run_eq hb)

/-- Every head of a run on a batch holds a run of each of its entries, and a head is not reached
only where such a run of some entry fails. -/
theorem headAt_entries (p : BatchProblem σ batch n f) (hlin : s.linear = .dense)
    (hsub : s.subproblem.validate = .ok ()) (i : Nat) :
    (∀ h, s.iteration.headAt p.sys p.guess p.state i = .ok h →
      ∃ delta extra, s.HoldsRuns p i h delta extra) ∧
    ∀ e, s.iteration.headAt p.sys p.guess p.state i = .error e →
      ∃ extra : List Nat, extra.length = i ∧
        EntryFails batch (fun b => s.entryRun (f b) (p.guess.runAt n b) extra) e := by
  apply Iteration.headAt_ensures
    (I := fun i h => ∃ delta extra, s.HoldsRuns p i h delta extra)
    (E := fun i e => ∃ extra : List Nat, extra.length = i ∧
      EntryFails batch (fun b => s.entryRun (f b) (p.guess.runAt n b) extra) e)
  · exact start_entries p
  · rintro i h ⟨delta, extra, hh⟩
    exact ⟨delta, hh.data, pass_entries p hlin hsub hh⟩
  · rintro i e ⟨extra, hlen, he⟩
    exact ⟨0 :: extra, by rw [List.length_cons, hlen], he.mono fun b e' _ hr => entryRun_error hr 0⟩

end TrustRegion

end Directions

end TieredCalculus
