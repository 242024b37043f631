import TieredCalculus.Proofs.Newton.Direction
import TieredCalculus.Proofs.Newton.Trials
import TieredCalculus.Proofs.Rational

/-! # Descent of the trust region

Where the residual of a batch entry is a function of that entry of the solution, the merit of
every entry falls or stays along a run of the trust region: the linear model never predicts
a growth, steps whose ratio is too small leave their entries alone, and the others do not
make the merit grow.
-/

namespace TieredCalculus

variable {σ α : Type}

/-- The residual of a system on `n` unknowns at a batch entry is a function of that entry of
the solution, whichever batch both are read in. -/
structure NonlinearSystem.EntryLaw [Zero α] (sys : NonlinearSystem σ α) (n : Nat) where
  law : Shape → Index → Vector α n → Vector α n
  packed : ∀ {u r : Tensor α} {s s₁ s₂ : σ}, u.Packed n → sys.setSolution u s = .ok () s₁ →
    sys.residual s₁ = .ok r s₂ → r.Packed n
  run_eq : ∀ {u r : Tensor α} {s s₁ s₂ : σ}, u.Packed n → sys.setSolution u s = .ok () s₁ →
    sys.residual s₁ = .ok r s₂ → ∀ {batch : Shape} {k : Index},
      u.batch.expandsTo batch = true → r.batch.expandsTo batch = true →
        Shape.InBounds batch k → r.runAt n k = law batch k (u.runAt n k)

namespace TrustRegion

/-! ## Moves -/

/-- What an update computes: the common batch, the radii, the direction, iterate, residual
and Jacobian on the batch, and the point moved to with its residual. -/
structure Move (α : Type) where
  batch : Shape
  radii : List α
  direction : Tensor α
  value : Tensor α
  residual : Tensor α
  jacobian : Tensor α
  moved : Tensor α
  movedResidual : Tensor α

namespace Move

section Ratio

variable [Zero α] [One α] [Neg α] [Add α] [Sub α] [Mul α] [Div α]

def predicted (m : Move α) (n b : Nat) : α :=
  TrustRegion.predicted (m.residual.vectorRun n b) (m.jacobian.squareRun n b)
    (m.direction.vectorRun n b)

def actual (m : Move α) (n b : Nat) : α :=
  TrustRegion.actual (m.residual.vectorRun n b) (m.movedResidual.vectorRun n b)

variable [LT α] [DecidableLT α] [LE α] [DecidableLE α] [Scalar α]

def ratio (m : Move α) (n b : Nat) : α := TrustRegion.ratio (m.predicted n b) (m.actual n b)

variable [OfScientific α]

/-- The move is the one that an update computes, which ends at `u'`. -/
structure Computed (m : Move α) (s : TrustRegion α) (sys : NonlinearSystem σ α)
    (u r j : Tensor α) (st st' : σ) (u' : Tensor α) : Prop where
  batch : Shape.broadcastAll [u.batch, r.batch, j.batch] = .ok m.batch
  direction : s.direction m.batch r j m.radii = .ok m.direction
  value : u.expandBatch m.batch = .ok m.value
  residual : r.expandBatch m.batch = .ok m.residual
  jacobian : j.expandBatch m.batch = .ok m.jacobian
  moved : ∃ w, u.add m.direction = .ok w ∧ w.expandBatch m.batch = .ok m.moved
  movedResidual : ∃ st₁ w, sys.setSolution m.moved st = .ok () st₁ ∧
    sys.residual st₁ = .ok w st' ∧ w.expandBatch m.batch = .ok m.movedResidual
  merged : Tensor.ofValues m.batch [] [m.value.baseNumel] (m.value.data.mapIdx fun k x =>
    match ((List.range m.batch.numel).map (m.ratio m.value.baseNumel))[k / m.value.baseNumel]? with
    | some rho => if s.acceptFrom ≤ rho then m.moved.data[k]?.getD x else x
    | none => x) = .ok u'

end Ratio

end Move

/-- An update that returns computes a move from the radii that it finds, and leaves every radius
judged by the ratio of its entry. -/
theorem update_eq_ok [Zero α] [One α] [Neg α] [Add α] [Sub α] [Mul α] [Div α] [LT α]
    [DecidableLT α] [LE α] [DecidableLE α] [Scalar α] [OfScientific α] [BEq α]
    {s : TrustRegion α} {sys : NonlinearSystem σ α} {u r j u' : Tensor α} {st st' : σ}
    {delta delta' : List α} (h : s.update sys u r j (st, delta) = .ok u' (st', delta')) :
    ∃ m : Move α, m.Computed s sys u r j st st' u' ∧ m.radii = repeatRadius m.batch.numel delta ∧
      delta' = List.zipWith (fun rho d => s.nextRadius rho d)
        ((List.range m.batch.numel).map (m.ratio m.value.baseNumel)) m.radii := by
  unfold update at h
  obtain ⟨batch, st₁, hbatch, h₁⟩ := Update.bind_eq_ok.1 h
  obtain ⟨hbatch', rfl⟩ := SolveError.lift_eq_ok.1 hbatch
  have h₃ := (repeatRadius_bind_apply _ _ st delta).symm.trans h₁
  obtain ⟨p, st₄, hp, h₄⟩ := Update.bind_eq_ok.1 h₃
  obtain ⟨u₀, st₅, hu, h₅⟩ := Update.bind_eq_ok.1 h₄
  obtain ⟨r₀, st₆, hr, h₆⟩ := Update.bind_eq_ok.1 h₅
  obtain ⟨j₀, st₇, hj, h₇⟩ := Update.bind_eq_ok.1 h₆
  obtain ⟨w, st₈, hw, h₈⟩ := Update.bind_eq_ok.1 h₇
  obtain ⟨moved, st₉, hmoved, h₉⟩ := Update.bind_eq_ok.1 h₈
  obtain ⟨hp', rfl⟩ := Update.lift_eq_ok.1 hp
  obtain ⟨hu', rfl⟩ := SolveError.lift_eq_ok.1 hu
  obtain ⟨hr', rfl⟩ := SolveError.lift_eq_ok.1 hr
  obtain ⟨hj', rfl⟩ := SolveError.lift_eq_ok.1 hj
  obtain ⟨hw', rfl⟩ := SolveError.lift_eq_ok.1 hw
  obtain ⟨hmoved', rfl⟩ := SolveError.lift_eq_ok.1 hmoved
  obtain ⟨_, ⟨st₁₀, d₁₀⟩, hset, h₁₀⟩ := Update.bind_eq_ok.1 h₉
  obtain ⟨r₁, ⟨st₁₁, d₁₁⟩, hres, h₁₁⟩ := Update.bind_eq_ok.1 h₁₀
  obtain ⟨r₂, st₁₂, hr₂, h₁₂⟩ := Update.bind_eq_ok.1 h₁₁
  obtain ⟨_, st₁₃, hmod', h₁₃⟩ := Update.bind_eq_ok.1 h₁₂
  obtain ⟨hset', rfl⟩ := Update.onFirst_eq_ok.1 hset
  obtain ⟨hres', rfl⟩ := Update.onFirst_eq_ok.1 hres
  obtain ⟨hr₂', rfl⟩ := SolveError.lift_eq_ok.1 hr₂
  cases hmod'
  obtain ⟨hvalues, hst⟩ := SolveError.lift_eq_ok.1 h₁₃
  cases hst
  exact ⟨⟨batch, _, p, u₀, r₀, j₀, moved, r₂⟩, ⟨hbatch', hp', hu', hr', hj', ⟨w, hw', hmoved'⟩,
    ⟨st₁₀, r₁, hset', hres', hr₂'⟩, hvalues⟩, rfl, rfl⟩

section Belongs

variable [Zero α] {sys : NonlinearSystem σ α} {n : Nat}

/-- The residual of a head belongs to its iterate, entry by entry. -/
structure Belongs (law : sys.EntryLaw n) (u r : Tensor α) : Prop where
  value : u.Packed n
  residual : r.Packed n
  run_eq : ∀ {batch : Shape} {k : Index}, u.batch.expandsTo batch = true →
    r.batch.expandsTo batch = true → Shape.InBounds batch k →
      r.runAt n k = law.law batch k (u.runAt n k)

theorem belongs_of_residual (law : sys.EntryLaw n) {u r : Tensor α} {st st₁ st₂ : σ}
    (hu : u.Packed n) (hset : sys.setSolution u st = .ok () st₁)
    (hr : sys.residual st₁ = .ok r st₂) : Belongs law u r :=
  ⟨hu, law.packed hu hset hr, law.run_eq hu hset hr⟩

theorem belongs_of_start (law : sys.EntryLaw n) {guess u r : Tensor α} {st st' : σ}
    (hguess : guess.Packed n) (h : Iteration.start sys guess st = .ok (u, r) st') :
    Belongs law u r := by
  obtain ⟨st₁, batch, hset, hr, hbatch, hu⟩ := Iteration.start_eq_ok.1 h
  have hg := belongs_of_residual law hguess hset hr
  obtain ⟨hexp, hub, hup, hrun⟩ := hguess.expandBatch hu
  refine ⟨hup, hg.residual, fun {larger k} hl hrl hk => ?_⟩
  rw [hub] at hl
  rw [hrun hl hk]
  exact hg.run_eq (Shape.expandsTo_trans hexp hl) hrl hk

end Belongs

section Descent

variable [Field α] [LinearOrder α] [Scalar α]

namespace Move

variable {m : Move α} {s : TrustRegion α} {sys : NonlinearSystem σ α} {u r j u' : Tensor α}
  {st st' : σ} {n : Nat}

theorem Computed.expandsTo (hm : m.Computed s sys u r j st st' u') :
    u.batch.expandsTo m.batch = true ∧ r.batch.expandsTo m.batch = true ∧
      j.batch.expandsTo m.batch = true := by
  have hall := Shape.broadcastAll_expandsTo hm.batch
  exact ⟨hall _ (by simp), hall _ (by simp), hall _ (by simp)⟩

theorem Computed.next_run (hm : m.Computed s sys u r j st st' u') (hu : u.Packed n)
    (hd : m.direction.Packed n) :
    u'.batch = m.batch ∧ u'.Packed n ∧ m.moved.batch = m.batch ∧ m.moved.Packed n ∧
      ∀ {k : Index}, Shape.InBounds m.batch k → u'.runAt n k =
        if s.acceptFrom ≤ m.ratio n (m.batch.offset k) then m.moved.runAt n k
        else m.value.runAt n k := by
  obtain ⟨w, hw, hmoved⟩ := hm.moved
  obtain ⟨-, hvb, hvp, -⟩ := hu.expandBatch hm.value
  obtain ⟨-, hmb, hmp, -⟩ := ((hu.zipWith _ hd).1 hw).2.1.expandBatch hmoved
  have hvalues := hm.merged
  rw [hvp.baseNumel_eq] at hvalues
  obtain ⟨v, hv, hvb', hvp', hrun⟩ := hvp.ofValues_choice hvb hmb hmp (m.ratio n)
    (s.acceptFrom ≤ ·)
  cases hvalues.symm.trans hv
  exact ⟨hvb', hvp', hmb, hmp, hrun⟩

end Move

/-! ## Runs -/

variable {s : TrustRegion α} {sys : NonlinearSystem σ α} {n : Nat}

theorem head_updates [BEq α] {guess : Tensor α} {st : σ} {i : Nat} {h h' : Head σ (List α) α}
    (hh : Iteration.headAt s.iteration sys guess st i = .ok h)
    (hh' : Iteration.headAt s.iteration sys guess st (i + 1) = .ok h') :
    ∃ (delta delta' : List α) (j : Tensor α) (st₁ st₂ st₃ : σ), h.data = .ok delta ∧
      h'.data = .ok delta' ∧ sys.jacobian h.state = .ok j st₁ ∧
      s.update sys h.value h.residual j (st₁, delta) = .ok h'.value (st₂, delta') ∧
      sys.setSolution h'.value st₂ = .ok () st₃ ∧ sys.residual st₃ = .ok h'.residual h'.state := by
  rw [Iteration.headAt_succ_of_ok hh] at hh'
  obtain ⟨delta, delta', hd, hd', hp⟩ := Iteration.headNext_eq_ok hh'
  obtain ⟨j, st₁, st₂, st₃, hj, hu, hset, hr⟩ := Iteration.pass_eq_ok.1 hp
  exact ⟨delta, delta', j, st₁, st₂, st₃, hd, hd', hj, hu, hset, hr⟩

/-- Between two heads lies one move, with the radii of the first head on the batch of the move. -/
theorem head_moves [BEq α] {guess : Tensor α} {st : σ} {i : Nat} {h h' : Head σ (List α) α}
    (hh : Iteration.headAt s.iteration sys guess st i = .ok h)
    (hh' : Iteration.headAt s.iteration sys guess st (i + 1) = .ok h') :
    ∃ (m : Move α) (delta : List α) (j : Tensor α) (st₁ st₂ st₃ : σ), h.data = .ok delta ∧
      sys.jacobian h.state = .ok j st₁ ∧
      m.Computed s sys h.value h.residual j st₁ st₂ h'.value ∧
      m.radii = repeatRadius m.batch.numel delta ∧
      sys.setSolution h'.value st₂ = .ok () st₃ ∧ sys.residual st₃ = .ok h'.residual h'.state := by
  obtain ⟨delta, _, j, st₁, st₂, st₃, hdata, -, hj, hu, hset, hr⟩ := head_updates hh hh'
  obtain ⟨m, hm, hradii, -⟩ := update_eq_ok hu
  exact ⟨m, delta, j, st₁, st₂, st₃, hdata, hj, hm, hradii, hset, hr⟩

variable [IsStrictOrderedRing α]

theorem Move.Computed.direction_packed {m : Move α} {u r j u' : Tensor α} {st st' : σ}
    (hm : m.Computed s sys u r j st st' u') (hlin : s.linear.Exact) (hr : r.Packed n) :
    j.PackedSquare n ∧ m.direction.batch = m.batch ∧ m.direction.Packed n ∧
      ∀ {k : Index}, Shape.InBounds m.batch k →
        IsStep (r.runAt n k) (j.squareAt n k) (m.direction.runAt n k) := by
  obtain ⟨n', hr', hj, hpb, hpp, hstep⟩ := direction_isStep hlin hm.direction
  have hn : [n'] = [n] := hr'.2.symm.trans hr.2
  cases hn
  exact ⟨hj, hpb, hpp, hstep⟩

theorem Move.Computed.predicted_nonneg {m : Move α} {u r j u' : Tensor α} {st st' : σ}
    (hm : m.Computed s sys u r j st st' u') (hlin : s.linear.Exact) (hr : r.Packed n)
    {k : Index} (hk : Shape.InBounds m.batch k) : 0 ≤ m.predicted n (m.batch.offset k) := by
  obtain ⟨hj, hpb, -, hstep⟩ := hm.direction_packed hlin hr
  obtain ⟨-, hrb, -, hrrun⟩ := hr.expandBatch hm.residual
  obtain ⟨-, hjb, -, hjrun⟩ := hj.expandBatch hm.jacobian
  have hself := Shape.expandsTo_refl m.batch
  have h := (hstep hk).predicted_nonneg
  rw [← hrrun hself hk, ← hjrun hself hk, Tensor.runAt_of_inBounds m.residual n (hrb ▸ hk),
    Tensor.squareAt_of_inBounds m.jacobian n (hjb ▸ hk),
    Tensor.runAt_of_inBounds m.direction n (hpb ▸ hk), hrb, hjb, hpb] at h
  exact h

/-- One update does not make the merit of any entry grow. -/
theorem Move.Computed.merit_le {m : Move α} {u r j u' r' : Tensor α} {st st' : σ}
    (hm : m.Computed s sys u r j st st' u') (law : sys.EntryLaw n) (hlin : s.linear.Exact)
    (haccept : 0 < s.acceptFrom) (heps : 0 < (Scalar.epsilon : α)) (hb : Belongs law u r)
    (hb' : Belongs law u' r') {batch : Shape} {k : Index} (hub : u'.batch.expandsTo batch = true)
    (hrb : r'.batch.expandsTo batch = true) (hk : Shape.InBounds batch k) :
    Linear.dot (r'.runAt n k).toList (r'.runAt n k).toList ≤
      Linear.dot (r.runAt n k).toList (r.runAt n k).toList := by
  obtain ⟨-, -, hd, -⟩ := hm.direction_packed hlin hb.residual
  obtain ⟨hu'b, hu'p, hmb, hmp, hnext⟩ := hm.next_run hb.value hd
  obtain ⟨hue, hre, -⟩ := hm.expandsTo
  obtain ⟨-, hvb, -, hvrun⟩ := hb.value.expandBatch hm.value
  obtain ⟨-, hr₀b, -, hr₀run⟩ := hb.residual.expandBatch hm.residual
  rw [hu'b] at hub
  have hlen : m.batch.length ≤ k.length := by
    rw [hk.length_eq]
    exact Shape.expandsTo_length hub
  have hin := Shape.project_inBounds hub hk
  have hself := Shape.expandsTo_refl m.batch
  have hu'run : u'.runAt n (m.batch.project k) = u'.runAt n k :=
    Tensor.runAt_project (hu'b ▸ hself) hlen
  have hrow := hnext hin
  rw [hu'run] at hrow
  rw [hb'.run_eq (hu'b ▸ hub) hrb hk, hrow]
  by_cases h : s.acceptFrom ≤ m.ratio n (m.batch.offset (m.batch.project k))
  · -- The entry moves, and its residual is the one evaluated at the point moved to.
    obtain ⟨st₁, w, hset, hres, hw⟩ := hm.movedResidual
    have hbw := belongs_of_residual law hmp hset hres
    obtain ⟨hwe, hwb, -, hwrun⟩ := hbw.residual.expandBatch hw
    have hmrun : m.moved.runAt n (m.batch.project k) = m.moved.runAt n k :=
      Tensor.runAt_project (hmb ▸ hself) hlen
    have hactual := actual_nonneg_of_ratio heps haccept
      (hm.predicted_nonneg hlin hb.residual hin) h
    have hle := actual_nonneg_iff.1 hactual
    rw [if_pos h, hmrun, ← hbw.run_eq (hmb ▸ hub) (Shape.expandsTo_trans hwe hub) hk,
      ← Tensor.runAt_project hwe hlen, ← Tensor.runAt_project hre hlen,
      ← hwrun hself hin, ← hr₀run hself hin,
      Tensor.runAt_of_inBounds m.movedResidual n (hwb ▸ hin),
      Tensor.runAt_of_inBounds m.residual n (hr₀b ▸ hin), hwb, hr₀b]
    exact hle
  · -- The entry stays, and so does its residual.
    rw [if_neg h, hvrun hself hin, Tensor.runAt_project hue hlen,
      ← hb.run_eq (Shape.expandsTo_trans hue hub) (Shape.expandsTo_trans hre hub) hk]

section Heads

variable [BEq α] {guess : Tensor α} {st : σ}

theorem headAt_belongs (law : sys.EntryLaw n) (hlin : s.linear.Exact) (hguess : guess.Packed n)
    {i : Nat} {h : Head σ (List α) α}
    (hh : Iteration.headAt s.iteration sys guess st i = .ok h) :
    Belongs law h.value h.residual := by
  induction i generalizing h with
  | zero => exact belongs_of_start law hguess (Iteration.headAt_zero_eq_ok hh).1
  | succ i ih =>
      obtain ⟨h₀, hh₀, -⟩ := Update.except_bind_eq_ok.1 hh
      obtain ⟨m, _, j, st₁, st₂, st₃, -, -, hm, -, hset, hr⟩ := head_moves hh₀ hh
      have hb := ih hh₀
      obtain ⟨-, -, hd, -⟩ := hm.direction_packed hlin hb.residual
      obtain ⟨-, hup, -⟩ := hm.next_run hb.value hd
      exact belongs_of_residual law hup hset hr

/-- Along a run of the trust region the moves are those of the radii at the heads, their
predicted reductions are not negative, entries whose ratio is too small keep their part of the
iterate, and the squared residual norm of no entry grows. Nothing is asked of the Jacobian, and
the linear solver may be any exact one. -/
theorem merit_descends (law : sys.EntryLaw n) (hlin : s.linear.Exact)
    (haccept : 0 < s.acceptFrom) (heps : 0 < (Scalar.epsilon : α)) (hguess : guess.Packed n)
    {i : Nat} {h h' : Head σ (List α) α}
    (hh : Iteration.headAt s.iteration sys guess st i = .ok h)
    (hh' : Iteration.headAt s.iteration sys guess st (i + 1) = .ok h') :
    (∃ (m : Move α) (delta : List α) (j : Tensor α) (st₁ st₂ : σ), h.data = .ok delta ∧
      sys.jacobian h.state = .ok j st₁ ∧
      m.Computed s sys h.value h.residual j st₁ st₂ h'.value ∧
      m.radii = repeatRadius m.batch.numel delta ∧
      ∀ {k : Index}, Shape.InBounds m.batch k → 0 ≤ m.predicted n (m.batch.offset k) ∧
        (m.ratio n (m.batch.offset k) < s.acceptFrom →
          h'.value.runAt n k = h.value.runAt n k)) ∧
    ∀ {batch : Shape} {k : Index}, h'.value.batch.expandsTo batch = true →
      h'.residual.batch.expandsTo batch = true → Shape.InBounds batch k →
        Linear.dot (h'.residual.runAt n k).toList (h'.residual.runAt n k).toList ≤
          Linear.dot (h.residual.runAt n k).toList (h.residual.runAt n k).toList := by
  obtain ⟨m, delta, j, st₁, st₂, st₃, hdata, hj, hm, hradii, hset, hr⟩ := head_moves hh hh'
  have hb := headAt_belongs law hlin hguess hh
  have hb' := headAt_belongs law hlin hguess hh'
  obtain ⟨-, -, hd, -⟩ := hm.direction_packed hlin hb.residual
  obtain ⟨-, -, -, -, hnext⟩ := hm.next_run hb.value hd
  obtain ⟨-, -, -, hvrun⟩ := hb.value.expandBatch hm.value
  refine ⟨⟨m, delta, j, st₁, st₂, hdata, hj, hm, hradii, fun {k} hk => ⟨?_, fun hrej => ?_⟩⟩,
    fun hub hrb hk => ?_⟩
  · exact hm.predicted_nonneg hlin hb.residual hk
  · rw [hnext hk, if_neg (not_le.2 hrej), hvrun (Shape.expandsTo_refl m.batch) hk]
  · exact hm.merit_le law hlin haccept heps hb hb' hub hrb hk

end Heads

end Descent

def entrywiseLaw [Zero α] (f : α → α) (j : Tensor α) (n : Nat) :
    (NonlinearSystem.entrywise f j).EntryLaw n where
  law := fun _ _ v => v.map f
  packed := by
    intro u r s s₁ s₂ hu hset hr
    cases hset
    cases hr
    exact hu
  run_eq := by
    intro u r s s₁ s₂ hu hset hr batch k hub hrb hk
    cases hset
    cases hr
    apply Vector.ext
    intro i hi
    show ((u.map f).runAt n k).get ⟨i, hi⟩ = ((u.runAt n k).map f).get ⟨i, hi⟩
    rw [hu.map_runAt f hub hk]
    exact (Vector.getElem_map ..).symm

def wide : TrustRegion ℚ := { standard .dense with initialRadius := 100, maxRadius := 100 }

/-- Two entries of `u - 1 = 0`, the first with a Jacobian four times too small. -/
def steep : NonlinearSystem (Option (Tensor ℚ)) ℚ :=
  .entrywise (· - 1) ⟨[2], [], [1, 1], #[1 / 4, 1], rfl⟩

/-- From zero the step of the first entry is rejected and that of the second is accepted. -/
theorem steep_descends :
    let guess : Tensor ℚ := ⟨[], [], [1], #[0], rfl⟩
    let it : Iteration (Option (Tensor ℚ)) (List ℚ) ℚ := wide.iteration
    guess.Packed 1 ∧ 0 < wide.acceptFrom ∧ 0 < (Scalar.epsilon : ℚ) ∧
      ∃ h h', it.headAt steep guess none 0 = .ok h ∧ it.headAt steep guess none 1 = .ok h' ∧
        h'.value.toList = [0, 1] ∧ ∀ {k : Index}, Shape.InBounds [2] k →
          Linear.dot (h'.residual.runAt 1 k).toList (h'.residual.runAt 1 k).toList ≤
            Linear.dot (h.residual.runAt 1 k).toList (h.residual.runAt 1 k).toList := by
  intro guess it
  have hguess : guess.Packed 1 := ⟨rfl, rfl⟩
  have haccept : 0 < wide.acceptFrom := by decide +kernel
  have heps : 0 < (Scalar.epsilon : ℚ) := by decide +kernel
  refine ⟨hguess, haccept, heps, ?_⟩
  have hfirst : ((it.headAt steep guess none 0).toOption.isSome) = true := by decide +kernel
  have hsecond : (it.headAt steep guess none 1).toOption.map (fun h => (h.value.batch,
      h.residual.batch, h.value.toList)) = some ([2], [2], [0, 1]) := by decide +kernel
  cases hh : it.headAt steep guess none 0 with
  | error e =>
      rw [hh] at hfirst
      cases hfirst
  | ok h =>
      cases hh' : it.headAt steep guess none 1 with
      | error e =>
          rw [hh'] at hsecond
          cases hsecond
      | ok h' =>
          rw [hh'] at hsecond
          obtain ⟨hvb, hrest⟩ := Prod.mk.inj (Option.some.inj hsecond)
          obtain ⟨hrb, hvalues⟩ := Prod.mk.inj hrest
          have hdesc := merit_descends (entrywiseLaw _ _ 1) LinearSolver.dense_exact haccept heps
            hguess hh hh'
          refine ⟨h, h', rfl, rfl, hvalues, fun {k} hk => hdesc.2 ?_ ?_ hk⟩
          · rw [hvb]
            exact Shape.expandsTo_refl [2]
          · rw [hrb]
            exact Shape.expandsTo_refl [2]

end TrustRegion

end TieredCalculus
