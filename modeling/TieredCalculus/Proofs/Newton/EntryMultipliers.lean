import TieredCalculus.Proofs.Newton.Convergence
import TieredCalculus.Proofs.Newton.EntrySteps

/-! # Multipliers of single entries

The subproblem of a batch is a system of its own, which acts on every entry separately: the
multiplier of an entry is iterated on the model of that entry alone. But the multipliers of
all entries are iterated until the last one has settled, so that an entry gets as many
iterations as it takes by itself, or more.
-/

namespace TieredCalculus

variable {α : Type} [Zero α] [One α] [Neg α] [Add α] [Sub α] [Mul α] [Div α] [LT α]
  [DecidableLT α] [LE α] [DecidableLE α] [Scalar α] [OfScientific α] {batch : Shape} {n : Nat}

/-! ## The solve of one entry -/

def QuadraticModel.boundary (m : QuadraticModel α n) : EntryFunctions α 1 where
  residual := fun v => do
    let q ← Subproblem.equation ⟨[], n, [m]⟩ m (numberOf v) 0
    return #v[q.1]
  jacobian := fun v => do
    let q ← Subproblem.equation ⟨[], n, [m]⟩ m (numberOf v) 0
    return .ofFn fun _ _ => q.2

/-- Whether a multiplier passes the test after `k` iterations. -/
def EntryFunctions.settled (f : EntryFunctions α 1) (t : Tolerances α) (k : Nat) : Bool :=
  match f.run Newton.entryNext (.replicate 1 0) 0, f.run Newton.entryNext (.replicate 1 0) k with
  | .ok (_, r₀), .ok (_, r) => t.met [Linear.norm r.toList] [Linear.norm r₀.toList]
  | _, _ => false

/-- The number of iterations of the multiplier that an entry takes by itself: none where its
Newton step lies inside the region, elsewhere up to the first that passes or the limit. -/
def QuadraticModel.stop (m : QuadraticModel α n) (t : Tolerances α) : Nat :=
  if m.inside then 0
  else ((List.range (t.maxIterations - 1)).find? (m.boundary.settled t)).getD
    (t.maxIterations - 1)

namespace QuadraticModel

variable {m : QuadraticModel α n} {t : Tolerances α} {k : Nat}

theorem stop_of_inside (h : m.inside = true) : m.stop t = 0 := if_pos h

theorem stop_le (h : m.boundary.settled t k = true ∨ k + 1 = t.maxIterations) :
    m.stop t ≤ k := by
  unfold stop
  split
  · exact Nat.zero_le k
  cases hfind : (List.range (t.maxIterations - 1)).find? (m.boundary.settled t) with
  | none =>
      rcases h with h | h
      · have hk : ¬k < t.maxIterations - 1 := by
          intro hk
          have hnone := List.find?_range_eq_none.1 hfind k hk
          simp [h] at hnone
        show t.maxIterations - 1 ≤ k
        omega
      · show t.maxIterations - 1 ≤ k
        omega
  | some i =>
      obtain ⟨-, hi, hbefore⟩ := List.find?_range_eq_some.1 hfind
      have hlt := List.mem_range.1 hi
      show i ≤ k
      rcases h with h | h
      · apply Nat.le_of_not_lt
        intro hk
        have hk' := hbefore k hk
        simp [h] at hk'
      · omega

theorem stop_eq (houtside : m.inside = false) (hbefore : ∀ i < k, m.boundary.settled t i = false)
    (hk : m.boundary.settled t k = true ∧ k < t.maxIterations ∨ k + 1 = t.maxIterations) :
    m.stop t = k := by
  have hle : m.stop t ≤ k := stop_le (hk.imp_left (·.1))
  apply Nat.le_antisymm hle
  unfold stop at hle ⊢
  rw [houtside] at hle ⊢
  simp only [Bool.false_eq_true, if_false] at hle ⊢
  cases hfind : (List.range (t.maxIterations - 1)).find? (m.boundary.settled t) with
  | none =>
      show k ≤ t.maxIterations - 1
      omega
  | some i =>
      rw [hfind] at hle
      obtain ⟨hi, -, -⟩ := List.find?_range_eq_some.1 hfind
      show k ≤ i
      apply Nat.le_of_not_lt
      intro hlt
      simp [hbefore i hlt] at hi

end QuadraticModel

/-! ## The solve of a batch -/

namespace Subproblem

theorem equation_eq_ok {models : List (QuadraticModel α n)} {m : QuadraticModel α n} {x : α}
    {k : Nat} {q : α × α} (h : equation ⟨batch, n, models⟩ m x k = .ok q) :
    equation ⟨[], n, [m]⟩ m x 0 = .ok q := by
  unfold equation entryStep at h ⊢
  cases hm : m.step? Lu.threshold x with
  | some p =>
    rw [hm] at h
    exact h
  | none =>
    rw [hm] at h
    cases hin : m.inside with
    | true =>
      rw [hin] at h
      exact h
    | false =>
      rw [hin] at h
      cases h

theorem equation_eq_error {models : List (QuadraticModel α n)} {m : QuadraticModel α n} {x : α}
    {k : Nat} {e : SolveError α} (h : equation ⟨batch, n, models⟩ m x k = .error e) :
    equation ⟨[], n, [m]⟩ m x 0 = .error (.singularMatrix 0) ∧ e = .singularMatrix k := by
  unfold equation entryStep at h ⊢
  cases hin : m.inside with
  | true =>
    rw [hin] at h
    cases h
  | false =>
    rw [hin] at h
    cases hm : m.step? Lu.threshold x with
    | some p =>
      rw [hm] at h
      cases h
    | none =>
      rw [hm] at h
      cases h
      exact ⟨rfl, rfl⟩

theorem equation_of_inside {m : QuadraticModel α n} (h : m.inside = true) (x : α) :
    equation ⟨[], n, [m]⟩ m x 0 = .ok (0, 1) := by
  unfold equation
  rw [h]
  rfl

theorem equation_of_step {m : QuadraticModel α n} {x : α} {p : Vector α n} {lu : Lu α n}
    (houtside : m.inside = false) (h : m.step? Lu.threshold x = some (p, lu)) :
    equation ⟨[], n, [m]⟩ m x 0 = .ok (1 / Linear.norm p.toList - 1 / m.radius,
      Linear.dot p.toList (lu.solve p).toList /
        (Linear.norm p.toList * Linear.norm p.toList * Linear.norm p.toList)) := by
  unfold equation entryStep
  rw [houtside, h]
  rfl

theorem boundary_eq_ok {m : QuadraticModel α n} {v : Vector α 1} {q : α × α}
    (h : equation ⟨[], n, [m]⟩ m (numberOf v) 0 = .ok q) :
    m.boundary.residual v = .ok #v[q.1] ∧ m.boundary.jacobian v = .ok (.ofFn fun _ _ => q.2) := by
  dsimp only [QuadraticModel.boundary]
  rw [h]
  exact ⟨rfl, rfl⟩

theorem boundary_eq_error {m : QuadraticModel α n} {v : Vector α 1} {e : SolveError α}
    (h : equation ⟨[], n, [m]⟩ m (numberOf v) 0 = .error e) :
    m.boundary.residual v = .error e ∧ m.boundary.jacobian v = .error e := by
  dsimp only [QuadraticModel.boundary]
  rw [h]
  exact ⟨rfl, rfl⟩

variable {models : List (QuadraticModel α n)}

def boundaryAt (batch : Shape) (models : List (QuadraticModel α n)) (b : Index) :
    EntryFunctions α 1 :=
  (models[batch.offset b]?).elim ⟨.ok, fun _ => .ok (.ofFn fun _ _ => 0)⟩ (·.boundary)

theorem boundaryAt_of_getElem {b : Index} {m : QuadraticModel α n}
    (h : models[batch.offset b]? = some m) : boundaryAt batch models b = m.boundary := by
  rw [boundaryAt, h]
  rfl

private theorem evaluate_eq {u u' : Tensor α} (h : u.expandBatch batch = .ok u') :
    evaluate ⟨batch, n, models⟩ (some u) =
      (models.zipIdx.mapM fun x =>
        equation ⟨batch, n, models⟩ x.1 (u'.data[x.2]?.getD 0) x.2) >>= fun equations => do
        let r ← Tensor.ofValues batch [] [1] (equations.map (·.1)).toArray
        let j ← Tensor.ofValues batch [] [1, 1] (equations.map (·.2)).toArray
        return (r, j) := by
  unfold evaluate
  dsimp only
  rw [h]
  rfl

private theorem equations_entries (hlen : models.length = batch.numel) {u u' : Tensor α}
    (hu : u.Packed 1) (hu' : u.expandBatch batch = .ok u') :
    (∀ equations, (models.zipIdx.mapM fun x =>
        equation ⟨batch, n, models⟩ x.1 (u'.data[x.2]?.getD 0) x.2) = .ok equations →
      equations.length = batch.numel ∧ ∀ {b : Index}, Shape.InBounds batch b → ∃ m q,
        models[batch.offset b]? = some m ∧ equations[batch.offset b]? = some q ∧
          equation ⟨[], n, [m]⟩ m (numberOf (u.runAt 1 b)) 0 = .ok q) ∧
    ∀ e, (models.zipIdx.mapM fun x =>
        equation ⟨batch, n, models⟩ x.1 (u'.data[x.2]?.getD 0) x.2) = .error e →
      ∃ b m, Shape.InBounds batch b ∧ models[batch.offset b]? = some m ∧
        equation ⟨[], n, [m]⟩ m (numberOf (u.runAt 1 b)) 0 = .error (.singularMatrix 0) ∧
          e = .singularMatrix (batch.offset b) := by
  constructor
  · intro equations heqs
    obtain ⟨hlength, hall⟩ := Update.except_mapM_eq_ok heqs
    rw [List.length_zipIdx, hlen] at hlength
    refine ⟨hlength, fun {b} hb => ?_⟩
    obtain ⟨m, hm⟩ : ∃ m, models[batch.offset b]? = some m :=
      ⟨_, List.getElem?_eq_getElem (hlen ▸ Shape.offset_lt hb)⟩
    obtain ⟨q, hq, hok⟩ := hall (batch.offset b) (m, batch.offset b) (by
      rw [List.getElem?_zipIdx, hm]
      simp)
    dsimp only at hok
    rw [hu.number_expandBatch hu' hb] at hok
    exact ⟨m, q, hm, hq, equation_eq_ok hok⟩
  · intro e heqs
    obtain ⟨⟨m, k⟩, hmem, he⟩ := Update.except_mapM_eq_error heqs
    have hk : models[k]? = some m := List.mem_zipIdx_iff_getElem?.1 hmem
    obtain ⟨b, hb, rfl⟩ := Shape.exists_offset_eq
      (hlen ▸ (List.getElem?_eq_some_iff.1 hk).1 : k < batch.numel)
    obtain ⟨hentry, rfl⟩ := equation_eq_error he
    dsimp only at hentry
    rw [hu.number_expandBatch hu' hb] at hentry
    exact ⟨b, m, hb, hk, hentry, rfl⟩

/-- The subproblem evaluates the equation of every entry, and fails as one of them does. -/
theorem evaluate_entries (hlen : models.length = batch.numel) {u : Tensor α}
    (hub : u.batch.expandsTo batch = true) (hu : u.Packed 1) :
    (∀ q, evaluate ⟨batch, n, models⟩ (some u) = .ok q →
      Collects batch (fun b => (boundaryAt batch models b).residual (u.runAt 1 b)) q.1 ∧
        CollectsSquare batch (fun b => (boundaryAt batch models b).jacobian (u.runAt 1 b)) q.2) ∧
    ∀ e, evaluate ⟨batch, n, models⟩ (some u) = .error e →
      EntryFails batch (fun b => (boundaryAt batch models b).residual (u.runAt 1 b)) e ∧
        EntryFails batch (fun b => (boundaryAt batch models b).jacobian (u.runAt 1 b)) e := by
  obtain ⟨u', hu'⟩ := Tensor.expandBatch_isOk hub
  obtain ⟨hok, herr⟩ := equations_entries hlen hu hu'
  rw [evaluate_eq hu']
  cases heqs : models.zipIdx.mapM fun x =>
      equation ⟨batch, n, models⟩ x.1 (u'.data[x.2]?.getD 0) x.2 with
  | error e' =>
    refine ⟨fun q h => (by cases h), fun e h => ?_⟩
    cases h
    obtain ⟨b, m, hb, hm, hentry, rfl⟩ := herr e' heqs
    obtain ⟨hres, hjac⟩ := boundary_eq_error hentry
    rw [← boundaryAt_of_getElem hm] at hres hjac
    exact ⟨⟨b, .singularMatrix 0, hb, hres, .inr ⟨rfl, rfl⟩⟩,
      ⟨b, .singularMatrix 0, hb, hjac, .inr ⟨rfl, rfl⟩⟩⟩
  | ok equations =>
    obtain ⟨hlength, hentry⟩ := hok equations heqs
    have hvalues : (equations.map (·.1)).length = batch.numel := by rw [List.length_map, hlength]
    have hslopes : (equations.map (·.2)).length = batch.numel := by rw [List.length_map, hlength]
    obtain ⟨r, hr, hrb, hrp, hrrun⟩ := Tensor.ofValues_numbers hvalues
    obtain ⟨j, hj, hjb, hjp, hjrun⟩ := Tensor.ofValues_numbersSquare hslopes
    have hvalue : (Except.ok equations >>= fun equations => do
        let r ← Tensor.ofValues batch [] [1] (equations.map (·.1)).toArray
        let j ← Tensor.ofValues batch [] [1, 1] (equations.map (·.2)).toArray
        return (r, j) : Except (SolveError α) (Tensor α × Tensor α)) = .ok (r, j) := by
      show (liftM (Tensor.ofValues batch [] [1] _) >>= _ : Except (SolveError α) _) = _
      rw [hr]
      show (liftM (Tensor.ofValues batch [] [1, 1] _) >>= _ : Except (SolveError α) _) = _
      rw [hj]
      rfl
    rw [hvalue]
    refine ⟨fun q h => ?_, fun e h => by cases h⟩
    cases h
    refine ⟨⟨hrb, hrp, fun {b} hb => ?_⟩, ⟨hjb ▸ Shape.expandsTo_refl j.batch, hjp,
      fun {b} hb => ?_⟩⟩
    all_goals
      obtain ⟨m, q, hm, hq, hequation⟩ := hentry hb
      obtain ⟨hres, hjac⟩ := boundary_eq_ok hequation
    · rw [hrrun hb, boundaryAt_of_getElem hm, List.getElem?_map, hq]
      exact hres
    · rw [hjrun hb, boundaryAt_of_getElem hm, List.getElem?_map, hq]
      exact hjac

omit [One α] [Neg α] [Add α] [Sub α] [Mul α] [Div α] [LT α] [DecidableLT α] [LE α]
  [DecidableLE α] [Scalar α] [OfScientific α] in
private theorem expandsTo_of_admitted {u : Tensor α}
    (h : u.batch = batch ∨ u = .zeros batch [] [1]) : u.batch.expandsTo batch = true := by
  rcases h with h | h
  · rw [h]
    exact Shape.expandsTo_refl batch
  · rw [h]
    exact Shape.expandsTo_refl batch

theorem gives_setSolution (s : Subproblem α) (w : Option (Tensor α)) (u : Tensor α) :
    (s.system.setSolution u).Gives w (.ok ()) (· = some u) := ⟨rfl, rfl⟩

def memoryless (s : Subproblem α) : Memoryless s.system where
  holds := Eq
  accept := fun _ => .ok ()
  residual := fun u => (·.1) <$> s.evaluate (some u)
  jacobian := fun u => (·.2) <$> s.evaluate (some u)
  gives_set := fun {w _} u _ => gives_setSolution s w u
  gives_residual := by
    rintro _ w rfl
    exact Update.gives_bind (Update.gives_lift (P := (· = some w)) (s.evaluate (some w)) rfl)
      fun q _ _ h => Update.gives_pure q.1 h
  gives_jacobian := by
    rintro _ w rfl
    exact Update.gives_bind (Update.gives_lift (P := (· = some w)) (s.evaluate (some w)) rfl)
      fun q _ _ h => Update.gives_pure q.2 h

/-- The subproblem acts on each entry separately, by the equation of that entry. -/
def problem (hlen : models.length = batch.numel) :
    BatchProblem (Option (Tensor α)) batch 1 (boundaryAt batch models) where
  sys := system ⟨batch, n, models⟩
  memoryless := memoryless ⟨batch, n, models⟩
  state := none
  held := none
  holds := rfl
  guess := .zeros batch [] [1]
  guess_packed := ⟨rfl, rfl⟩
  guess_expands := Shape.expandsTo_refl batch
  accept_ok := fun _ _ => rfl
  residual_ok := by
    intro u r hu hb h
    obtain ⟨q, hq, rfl⟩ := Update.except_map_eq_ok h
    exact ((evaluate_entries hlen (expandsTo_of_admitted hb) hu).1 q hq).1
  residual_error := by
    intro u e hu hb h
    exact ((evaluate_entries hlen (expandsTo_of_admitted hb) hu).2 e (Update.except_map_eq_error h)).1
  jacobian_ok := by
    intro u j hu hb h
    obtain ⟨q, hq, rfl⟩ := Update.except_map_eq_ok h
    exact ((evaluate_entries hlen (expandsTo_of_admitted hb) hu).1 q hq).2
  jacobian_error := by
    intro u e hu hb h
    exact ((evaluate_entries hlen (expandsTo_of_admitted hb) hu).2 e (Update.except_map_eq_error h)).2
  gradient_off := fun _ => rfl

theorem met_iff_settled {t : Tolerances α} {r₀ r : Tensor α} {k : Nat}
    {f : Index → EntryFunctions α 1} {v₀ v : Index → Vector α 1} (hb₀ : r₀.batch = batch)
    (hp₀ : r₀.Packed 1) (hb : r.batch = batch) (hp : r.Packed 1)
    (hfirst : ∀ {b : Index}, Shape.InBounds batch b →
      (f b).run Newton.entryNext (.replicate 1 0) 0 = .ok (v₀ b, r₀.runAt 1 b))
    (hrun : ∀ {b : Index}, Shape.InBounds batch b →
      (f b).run Newton.entryNext (.replicate 1 0) k = .ok (v b, r.runAt 1 b)) :
    t.met r.rowNorms r₀.rowNorms = true ↔
      ∀ {b : Index}, Shape.InBounds batch b → (f b).settled t k = true := by
  have hentry : ∀ {b : Index}, Shape.InBounds batch b → ((f b).settled t k = true ↔
      t.Passes (r.placeNorm 1 (batch.offset b)) (r₀.placeNorm 1 (batch.offset b))) := by
    intro b hin
    unfold EntryFunctions.settled Tensor.placeNorm
    rw [hfirst hin, hrun hin, if_neg Nat.one_ne_zero, if_neg Nat.one_ne_zero,
      Tensor.runAt_of_inBounds r 1 (hb ▸ hin), Tensor.runAt_of_inBounds r₀ 1 (hb₀ ▸ hin), hb, hb₀]
    simp [Tolerances.met, Tolerances.Passes]
  rw [Tolerances.met_rowNorms_iff hp hp₀, hb, hb₀]
  constructor
  · intro h b hin
    exact (hentry hin).2 (h _ (Shape.offset_lt hin) (Shape.offset_lt hin))
  · intro h p hlt _
    obtain ⟨b, hin, rfl⟩ := Shape.exists_offset_eq hlt
    exact (hentry hin).1 (h hin)

/-- The inner solve gives every entry its own multiplier after a common number of iterations,
no fewer than the entry takes by itself and, in a batch of one entry, just as many. It fails
only as the iteration for the multiplier of some entry does. -/
theorem solve_multipliers (hlen : models.length = batch.numel) {t : Tolerances α}
    (ht : t.validate = .ok ()) :
    (∀ sol, (((⟨t, .dense⟩ : Newton α).iteration.solve (system ⟨batch, n, models⟩)
        (.zeros batch [] [1])).outcome none).1 = .ok sol →
      sol.value.batch = batch ∧ sol.value.Packed 1 ∧ ∃ k, ∀ {b : Index} {m : QuadraticModel α n},
        Shape.InBounds batch b → models[batch.offset b]? = some m → m.stop t ≤ k ∧
          (batch.numel = 1 → m.inside = false → m.stop t = k) ∧
          ∃ r, m.boundary.run Newton.entryNext (.replicate 1 0) k = .ok (sol.value.runAt 1 b, r)) ∧
    ∀ e, (((⟨t, .dense⟩ : Newton α).iteration.solve (system ⟨batch, n, models⟩)
        (.zeros batch [] [1])).outcome none).1 = .error e →
      ∃ i, EntryFails batch
        (fun b => (boundaryAt batch models b).run Newton.entryNext (.replicate 1 0) i) e := by
  have hzero : ∀ b : Index, (problem hlen).guess.runAt 1 b = .replicate 1 0 :=
    Tensor.runAt_zeros batch [] [1] 1
  have hsteps : (problem hlen).StepsBy (⟨t, .dense⟩ : Newton α).iteration
      fun _ => Newton.entryNext := Newton.stepsBy (problem hlen) rfl
  have hheads := (problem hlen).headAt_entries (fun _ _ => rfl) hsteps
  have hdata : ∀ i h, (⟨t, .dense⟩ : Newton α).iteration.headAt (problem hlen).sys
      (problem hlen).guess (problem hlen).state i = .ok h → ∃ d, h.data = .ok d :=
    fun i h hh => ⟨(), ((hheads i).1 h hh).1⟩
  obtain ⟨hok, herr⟩ := Iteration.solve_heads ht (Tolerances.validate_eq_ok.1 ht).2.2 hdata
    (problem hlen).gradient_off
  refine ⟨fun sol hsol => ?_, fun e he => ?_⟩
  · obtain ⟨k, first, h, hfirst, hh, hv, hbefore, hstop⟩ := hok sol hsol
    obtain ⟨-, hfr, hfruns⟩ := (hheads 0).1 first hfirst
    have hruns : ∀ {i : Nat} {h : Head (Option (Tensor α)) Unit α},
        (⟨t, .dense⟩ : Newton α).iteration.headAt (problem hlen).sys (problem hlen).guess
          (problem hlen).state i = .ok h → ∀ {b : Index}, Shape.InBounds batch b →
        (boundaryAt batch models b).run Newton.entryNext (.replicate 1 0) i =
          .ok (h.value.runAt 1 b, h.residual.runAt 1 b) := by
      intro i h hh b hb
      rw [← hzero b]
      exact ((hheads i).1 h hh).2.2 hb
    have hmet : ∀ {i : Nat} {h : Head (Option (Tensor α)) Unit α},
        (⟨t, .dense⟩ : Newton α).iteration.headAt (problem hlen).sys (problem hlen).guess
          (problem hlen).state i = .ok h →
        (t.met h.residual.rowNorms first.residual.rowNorms = true ↔ ∀ {b : Index},
          Shape.InBounds batch b → (boundaryAt batch models b).settled t i = true) := by
      intro i h hh
      obtain ⟨-, hr, -⟩ := (hheads i).1 h hh
      exact met_iff_settled hfr.residual.batch_eq hfr.residual.packed hr.residual.batch_eq
        hr.residual.packed (hruns hfirst) (hruns hh)
    obtain ⟨-, hr, -⟩ := (hheads k).1 h hh
    rw [hv]
    refine ⟨hr.value_batch, hr.value_packed, k, fun {b m} hb hm => ?_⟩
    have hentry := boundaryAt_of_getElem hm
    have hself : m.boundary.settled t k = true ∧ k < t.maxIterations ∨
        k + 1 = t.maxIterations := by
      refine hstop.imp_left fun ⟨hk, hlt⟩ => ⟨?_, hlt⟩
      rw [← hentry]
      exact (hmet hh).1 hk hb
    refine ⟨QuadraticModel.stop_le (hself.imp_left (·.1)), fun hone houtside => ?_,
      h.residual.runAt 1 b, hentry ▸ hruns hh hb⟩
    refine QuadraticModel.stop_eq houtside (fun i hi => eq_false_of_ne_true fun hs => ?_) hself
    -- In a batch of one entry the test of the batch is that of the entry.
    obtain ⟨h', _, hh', -, hm'⟩ := hbefore i hi
    have hall := (hmet hh').2 fun {b'} hb' => by
      have hoff : batch.offset b' = batch.offset b := by
        have hlt := Shape.offset_lt hb
        have hlt' := Shape.offset_lt hb'
        omega
      rw [boundaryAt_of_getElem (hoff ▸ hm)]
      exact hs
    exact Bool.false_ne_true (hm'.symm.trans hall)
  · obtain ⟨i, -, hi⟩ := herr e he
    refine ⟨i, ((hheads i).2 e hi).mono fun b e' hb hr => ?_⟩
    rw [← hzero b]
    exact hr

end Subproblem

end TieredCalculus
