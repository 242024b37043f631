import TieredCalculus.Newton.Solver
import TieredCalculus.Proofs.Newton.Memoryless

/-! # Trial points

The updates of the family move the system to trial points. What they return depends on a
system without memory through its three functions alone: the same update on the system whose
state is the tensor held returns the same. Hence each member of the family has a pure reading.
-/

namespace TieredCalculus

variable {σ ρ τ α : Type}

namespace Update

/-! ## Updates in step -/

variable {ε β γ : Type}

/-- From related states the two updates return the same and leave related states, or fail
alike. -/
def InStep (R : σ → ρ → Prop) (x : Update ε σ β) (y : Update ε ρ β) : Prop :=
  ∀ s w, R s w →
    (∀ b s', x s = .ok b s' → ∃ w', y w = .ok b w' ∧ R s' w') ∧
      ∀ e s', x s = .error e s' → ∃ w', y w = .error e w'

def withEqual (R : σ → ρ → Prop) (s : σ × τ) (w : ρ × τ) : Prop := R s.1 w.1 ∧ s.2 = w.2

variable {R : σ → ρ → Prop}

theorem inStep_pure (b : β) : InStep R (pure b : Update ε σ β) (pure b) := by
  intro s w hr
  refine ⟨fun b' s' h => ?_, fun e s' h => by cases h⟩
  cases h
  exact ⟨w, rfl, hr⟩

theorem inStep_ofExcept (y : Except ε β) :
    InStep R (ofExcept y : Update ε σ β) (ofExcept y : Update ε ρ β) := by
  intro s w hr
  cases y with
  | ok b =>
      refine ⟨fun b' s' h => ?_, fun e s' h => by cases h⟩
      cases h
      exact ⟨w, rfl, hr⟩
  | error e =>
      refine ⟨fun b s' h => (by cases h), fun e' s' h => ?_⟩
      cases h
      exact ⟨w, rfl⟩

theorem inStep_bind {x : Update ε σ β} {y : Update ε ρ β} {f : β → Update ε σ γ}
    {g : β → Update ε ρ γ} (hx : InStep R x y) (hf : ∀ b, InStep R (f b) (g b)) :
    InStep R (x >>= f) (y >>= g) := by
  intro s w hr
  obtain ⟨hok, herr⟩ := hx s w hr
  constructor
  · intro c s'' h
    obtain ⟨b, s', hb, hc⟩ := bind_eq_ok.1 h
    obtain ⟨w', hw, hr'⟩ := hok b s' hb
    obtain ⟨w'', hw', hr''⟩ := (hf b s' w' hr').1 c s'' hc
    exact ⟨w'', bind_eq_ok.2 ⟨b, w', hw, hw'⟩, hr''⟩
  · intro e s'' h
    obtain hb | ⟨b, s', hb, hc⟩ := bind_eq_error.1 h
    · obtain ⟨w', hw⟩ := herr e s'' hb
      exact ⟨w', bind_eq_error.2 (.inl hw)⟩
    · obtain ⟨w', hw, hr'⟩ := hok b s' hb
      obtain ⟨w'', hw'⟩ := (hf b s' w' hr').2 e s'' hc
      exact ⟨w'', bind_eq_error.2 (.inr ⟨b, w', hw, hw'⟩)⟩

theorem inStep_onFirst {x : Update ε σ β} {y : Update ε ρ β} (hx : InStep R x y) :
    InStep (withEqual R) (x.onFirst : Update ε (σ × τ) β) y.onFirst := by
  rintro ⟨s, t⟩ ⟨w, _⟩ ⟨hr, rfl⟩
  obtain ⟨hok, herr⟩ := hx s w hr
  constructor
  · rintro b ⟨s', t'⟩ h
    obtain ⟨hb, rfl⟩ := onFirst_eq_ok.1 h
    obtain ⟨w', hw, hr'⟩ := hok b s' hb
    exact ⟨(w', t'), onFirst_eq_ok.2 ⟨hw, rfl⟩, hr', rfl⟩
  · rintro e ⟨s', t'⟩ h
    obtain ⟨hb, rfl⟩ := onFirst_eq_error.1 h
    obtain ⟨w', hw⟩ := herr e s' hb
    exact ⟨(w', t'), onFirst_eq_error.2 ⟨hw, rfl⟩⟩

theorem inStep_get {f : σ → Update ε σ β} {g : ρ → Update ε ρ β}
    (h : ∀ s w, R s w → InStep R (f s) (g w)) : InStep R (get >>= f) (get >>= g) := by
  intro s w hr
  exact h s w hr s w hr

theorem inStep_modifySecond {f : σ × τ → σ × τ} {g : ρ × τ → ρ × τ} (k : τ → τ)
    (hf : ∀ s t, f (s, t) = (s, k t)) (hg : ∀ w t, g (w, t) = (w, k t)) :
    InStep (withEqual R) (modify f : Update ε (σ × τ) PUnit) (modify g) := by
  rintro ⟨s, t⟩ ⟨w, _⟩ ⟨hr, rfl⟩
  refine ⟨fun b s' h => ?_, fun e s' h => by cases h⟩
  cases h
  refine ⟨(w, k t), congrArg _ (hg w t), ?_⟩
  rw [hf]
  exact ⟨hr, rfl⟩

theorem inStep_beside {x : Update ε (σ × τ) β} {y : Update ε (ρ × τ) β}
    (h : InStep (withEqual R) x y) (t : τ) : InStep R (x.beside t) (y.beside t) := by
  intro s w hr
  obtain ⟨hok, herr⟩ := h (s, t) (w, t) ⟨hr, rfl⟩
  constructor
  · intro b s' hb
    obtain ⟨t', hx⟩ := beside_eq_ok.1 hb
    obtain ⟨⟨w', _⟩, hy, hr', -⟩ := hok b (s', t') hx
    exact ⟨w', beside_eq_ok.2 ⟨_, hy⟩, hr'⟩
  · intro e s' he
    obtain ⟨t', hx⟩ := beside_eq_error.1 he
    obtain ⟨⟨w', _⟩, hy⟩ := herr e (s', t') hx
    exact ⟨w', beside_eq_error.2 ⟨_, hy⟩⟩

end Update

open Update

/-- From related states two systems are set to a tensor and evaluated there alike. -/
structure TriedAlike (R : σ → ρ → Prop) (sys : NonlinearSystem σ α) (sys' : NonlinearSystem ρ α) :
    Prop where
  setSolution : ∀ u, InStep R (sys.setSolution u) (sys'.setSolution u)
  residual : InStep R sys.residual sys'.residual

/-! ## The system of the tensor held -/

namespace Memoryless

variable {sys : NonlinearSystem σ α} (m : Memoryless sys)

/-- The system whose state is the tensor held. -/
def heldSystem : NonlinearSystem (Tensor α) α where
  unknownAxis := sys.unknownAxis
  residualAxis := sys.residualAxis
  setSolution := fun u => do
    m.accept u
    set u
  solution := some
  residual := fun w => ofExcept (m.residual w) w
  jacobian := fun w => ofExcept (m.jacobian w) w

def Holds (s : σ) (w : Tensor α) : Prop := m.holds s (some w)

variable {m}

theorem inStep_of_gives {β : Type} {x : Update (SolveError α) σ β}
    {y : Tensor α → Except (SolveError α) β}
    (h : ∀ s w, m.Holds s w → x.Gives s (y w) (m.Holds · w)) :
    InStep m.Holds x (fun w => (Update.ofExcept (y w) : Update (SolveError α) (Tensor α) β) w) := by
  intro s w hr
  refine ⟨fun b s' hx => ?_, fun e s' hx => ?_⟩
  · obtain ⟨hy, hr'⟩ := (h s w hr).of_ok hx
    refine ⟨w, ?_, hr'⟩
    dsimp only
    rw [hy]
    rfl
  · refine ⟨w, ?_⟩
    dsimp only
    rw [(h s w hr).of_error hx]
    rfl

theorem inStep_setSolution (u : Tensor α) :
    InStep m.Holds (sys.setSolution u) (m.heldSystem.setSolution u) := by
  intro s w hr
  refine ⟨fun b s' hx => ?_, fun e s' hx => ?_⟩
  · obtain ⟨hy, hr'⟩ := (m.gives_set u hr).of_ok hx
    refine ⟨u, ?_, hr'⟩
    simp only [heldSystem, hy, lift_ok_bind]
    rfl
  · refine ⟨w, ?_⟩
    simp only [heldSystem, (m.gives_set u hr).of_error hx, lift_error_bind_apply]

theorem triedAlike : TriedAlike m.Holds sys m.heldSystem :=
  ⟨inStep_setSolution, inStep_of_gives fun _ _ h => m.gives_residual h⟩

end Memoryless

/-- The reading of an iteration through the same iteration on the system of the tensor held. -/
def Iteration.Reading.ofInStep {sys : NonlinearSystem σ α} {m : Memoryless sys}
    {it : Iteration σ τ α} (it' : Iteration (Tensor α) τ α)
    (hprepare : ∀ s w u, m.Holds s w → it.prepare sys s u = it'.prepare m.heldSystem w u)
    (h : ∀ u r j, InStep (withEqual m.Holds) (it.update sys u r j)
      (it'.update m.heldSystem u r j)) : it.Reading m where
  prepared := it'.prepare m.heldSystem
  next := fun w t u r j =>
    match it'.update m.heldSystem u r j (w, t) with
    | .ok v st => .ok (v, st.2)
    | .error e _ => .error e
  prepares := hprepare _ _ _
  returns := by
    intro s w t t' u r j v s' hs hu
    obtain ⟨⟨w', _⟩, hu', hr, rfl⟩ := (h u r j (s, t) (w, t) ⟨hs, rfl⟩).1 v _ hu
    rw [hu']
    exact ⟨rfl, w', hr⟩
  fails := by
    intro s w t u r j e st hs hu
    obtain ⟨w', hu'⟩ := (h u r j (s, t) (w, t) ⟨hs, rfl⟩).2 e st hu
    rw [hu']

/-! ## Updates of the family -/

section Family

variable {R : σ → ρ → Prop} {sys : NonlinearSystem σ α} {sys' : NonlinearSystem ρ α}

section Newton

variable [Zero α] [One α] [Add α] [Neg α] [Mul α] [LE α] [DecidableLE α]

theorem Newton.inStep_update (s : Newton α) (u r j : Tensor α) :
    InStep (withEqual R) ((s.iteration : Iteration σ Unit α).update sys u r j)
      ((s.iteration : Iteration ρ Unit α).update sys' u r j) := by
  unfold Newton.iteration
  refine inStep_bind (inStep_ofExcept _) fun step => ?_
  exact inStep_ofExcept _

def Newton.reading (m : Memoryless sys) (s : Newton α) :
    (s.iteration : Iteration σ Unit α).Reading m :=
  .ofInStep s.iteration (fun _ _ _ _ => rfl) s.inStep_update

end Newton

section LineSearch

variable [Zero α] [One α] [Add α] [Sub α] [Neg α] [Mul α] [Div α] [LT α] [DecidableLT α] [LE α]
  [DecidableLE α] [Scalar α]

namespace LineSearch

variable (s : LineSearch α) (st : Start α)

def attempt (sys : NonlinearSystem σ α) (lengths : List α)
    (next : Tensor α → List Bool → Update (SolveError α) σ (Tensor α × List α)) :
    Update (SolveError α) σ (Tensor α × List α) := do
  let trial ← Tensor.ofValues st.batch [] [st.width] (st.trialValues lengths).toArray
  sys.setSolution trial
  let r ← (← sys.residual).expandBatch st.batch
  let verdicts := s.verdicts st lengths r
  if verdicts.all id then return (trial, lengths) else next trial verdicts

omit [Neg α] [LT α] [DecidableLT α] [Scalar α]

theorem trials_zero (sys : NonlinearSystem σ α) (lengths : List α) :
    s.trials sys st 0 lengths = s.attempt st sys lengths fun trial _ => pure (trial, lengths) :=
  rfl

theorem trials_succ (sys : NonlinearSystem σ α) (retries : Nat) (lengths : List α) :
    s.trials sys st (retries + 1) lengths =
      s.attempt st sys lengths fun _ verdicts => s.trials sys st retries (s.cut lengths verdicts) :=
  rfl

omit [Div α] in
theorem inStep_attempt (hsys : TriedAlike R sys sys') (lengths : List α)
    {next : Tensor α → List Bool → Update (SolveError α) σ (Tensor α × List α)}
    {next' : Tensor α → List Bool → Update (SolveError α) ρ (Tensor α × List α)}
    (h : ∀ trial verdicts, InStep R (next trial verdicts) (next' trial verdicts)) :
    InStep R (s.attempt st sys lengths next) (s.attempt st sys' lengths next') := by
  unfold attempt
  refine inStep_bind (inStep_ofExcept _) fun trial => ?_
  refine inStep_bind (hsys.setSolution trial) fun _ => ?_
  refine inStep_bind hsys.residual fun r => ?_
  refine inStep_bind (inStep_ofExcept _) fun r => ?_
  dsimp only
  split
  · exact inStep_pure _
  · exact h trial _

theorem inStep_trials (hsys : TriedAlike R sys sys') (retries : Nat) (lengths : List α) :
    InStep R (s.trials sys st retries lengths) (s.trials sys' st retries lengths) := by
  induction retries generalizing lengths with
  | zero =>
      rw [trials_zero, trials_zero]
      exact s.inStep_attempt st hsys lengths fun trial _ => inStep_pure _
  | succ retries ih =>
      rw [trials_succ, trials_succ]
      exact s.inStep_attempt st hsys lengths fun _ verdicts => ih (s.cut lengths verdicts)

end LineSearch

omit [Neg α] [LT α] [DecidableLT α] [Scalar α] in
theorem LineSearch.inStep_search (s : LineSearch α) (hsys : TriedAlike R sys sys')
    (u r d : Tensor α) : InStep R (s.search sys u r d) (s.search sys' u r d) := by
  unfold LineSearch.search
  refine inStep_bind (inStep_ofExcept _) fun batch => ?_
  refine inStep_bind (inStep_ofExcept _) fun u => ?_
  refine inStep_bind (inStep_ofExcept _) fun d => ?_
  refine inStep_bind (inStep_ofExcept _) fun r => ?_
  exact s.inStep_trials _ hsys _ _

omit [Scalar α] in
theorem LineSearch.inStep_update (s : LineSearch α) (hsys : TriedAlike R sys sys')
    (u r j : Tensor α) :
    InStep (withEqual R) ((s.iteration : Iteration σ Unit α).update sys u r j)
      ((s.iteration : Iteration ρ Unit α).update sys' u r j) := by
  unfold LineSearch.iteration
  refine inStep_bind (inStep_ofExcept _) fun step => ?_
  refine inStep_bind (inStep_onFirst ?_) fun q => inStep_pure _
  exact s.inStep_search hsys u r step

def LineSearch.reading (m : Memoryless sys) (s : LineSearch α) :
    (s.iteration : Iteration σ Unit α).Reading m :=
  .ofInStep s.iteration (fun _ _ _ _ => rfl) (s.inStep_update m.triedAlike)

end LineSearch

section TrustRegion

variable [Zero α] [One α] [Neg α] [Add α] [Sub α] [Mul α] [Div α] [BEq α] [LT α] [DecidableLT α]
  [LE α] [DecidableLE α] [Scalar α] [OfScientific α]

/-- One radius for all entries as one for each. -/
def repeatRadius (entries : Nat) : List α → List α
  | [d] => List.replicate entries d
  | delta => delta

omit [Zero α] [One α] [Neg α] [Add α] [Sub α] [Mul α] [Div α] [BEq α] [LT α] [DecidableLT α]
  [LE α] [DecidableLE α] [Scalar α] [OfScientific α] in
theorem mem_of_mem_repeatRadius {entries : Nat} {delta : List α} {d : α}
    (h : d ∈ repeatRadius entries delta) : d ∈ delta := by
  unfold repeatRadius at h
  split at h
  · rw [(List.mem_replicate.1 h).2]
    exact List.mem_singleton.2 rfl
  · exact h

omit [Zero α] [One α] [Neg α] [Add α] [Sub α] [Mul α] [Div α] [BEq α] [LT α] [DecidableLT α]
  [LE α] [DecidableLE α] [Scalar α] [OfScientific α] in
/-- An update reads its radii after one of them is repeated for every entry. -/
theorem repeatRadius_bind_apply {ε β : Type} (entries : Nat)
    (f : σ × List α → Update ε (σ × List α) β) (st : σ) (delta : List α) :
    ((modify fun (st, delta) =>
        match delta with
        | [d] => (st, List.replicate entries d)
        | _ => (st, delta)) >>= fun _ : PUnit => get >>= f) (st, delta) =
      f (st, repeatRadius entries delta) (st, repeatRadius entries delta) := by
  rcases delta with _ | ⟨d, _ | ⟨d', rest⟩⟩ <;> rfl

theorem TrustRegion.inStep_update (s : TrustRegion α) (hsys : TriedAlike R sys sys')
    (u r j : Tensor α) :
    InStep (withEqual R) ((s.iteration : Iteration σ (List α) α).update sys u r j)
      ((s.iteration : Iteration ρ (List α) α).update sys' u r j) := by
  change InStep _ (s.update sys u r j) (s.update sys' u r j)
  unfold TrustRegion.update
  refine inStep_bind (inStep_ofExcept _) fun batch => ?_
  refine inStep_bind (inStep_modifySecond (repeatRadius batch.numel) ?_ ?_) fun _ => ?_
  · intro s t
    rcases t with _ | ⟨d, _ | _⟩ <;> rfl
  · intro s t
    rcases t with _ | ⟨d, _ | _⟩ <;> rfl
  refine inStep_get ?_
  rintro ⟨_, delta⟩ ⟨_, _⟩ ⟨-, rfl⟩
  dsimp only
  refine inStep_bind (inStep_ofExcept _) fun p => ?_
  refine inStep_bind (inStep_ofExcept _) fun u₀ => ?_
  refine inStep_bind (inStep_ofExcept _) fun r₀ => ?_
  refine inStep_bind (inStep_ofExcept _) fun j₀ => ?_
  refine inStep_bind (inStep_ofExcept _) fun moved => ?_
  refine inStep_bind (inStep_ofExcept _) fun moved => ?_
  refine inStep_bind (inStep_onFirst (hsys.setSolution moved)) fun _ => ?_
  refine inStep_bind (inStep_onFirst hsys.residual) fun r₁ => ?_
  refine inStep_bind (inStep_ofExcept _) fun r₁ => ?_
  refine inStep_bind (inStep_modifySecond _ (fun _ _ => rfl) fun _ _ => rfl) fun _ => ?_
  exact inStep_ofExcept _

def TrustRegion.reading (m : Memoryless sys) (s : TrustRegion α) :
    (s.iteration : Iteration σ (List α) α).Reading m :=
  .ofInStep s.iteration (fun _ _ _ _ => rfl) (s.inStep_update m.triedAlike)

end TrustRegion

end Family

end TieredCalculus
