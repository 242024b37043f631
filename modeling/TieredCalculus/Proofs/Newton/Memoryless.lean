import TieredCalculus.Proofs.Newton.Run

/-! # Systems without memory

A system has no memory when residual and Jacobian depend only on the tensor last set. Seen
from outside it is then three pure functions, and the heads of a run are a pure sequence of
points: every point carries the tensor at which its residual was evaluated, which is the
iterate itself or, at the first point, the guess that the first iterate expands.
-/

namespace TieredCalculus

variable {σ τ α : Type}

/-! ## Updates with a pure reading -/

/-- The update has the result or error `y`, and where it returns the state satisfies `P`. -/
def Update.Gives {ε β : Type} (x : Update ε σ β) (s : σ) (y : Except ε β) (P : σ → Prop) : Prop :=
  match x s with
  | .ok b s' => y = .ok b ∧ P s'
  | .error e _ => y = .error e

namespace Update

variable {ε ρ β γ : Type} {P : σ → Prop} {Q : ρ → Prop}

theorem Gives.of_ok {x : Update ε σ β} {s s' : σ} {y : Except ε β} {b : β}
    (h : x.Gives s y P) (hx : x s = .ok b s') : y = .ok b ∧ P s' := by
  unfold Gives at h
  rw [hx] at h
  exact h

theorem Gives.of_error {x : Update ε σ β} {s s' : σ} {y : Except ε β} {e : ε}
    (h : x.Gives s y P) (hx : x s = .error e s') : y = .error e := by
  unfold Gives at h
  rw [hx] at h
  exact h

theorem Gives.exists_ok {x : Update ε σ β} {s : σ} {b : β} (h : x.Gives s (.ok b) P) :
    ∃ s', x s = .ok b s' ∧ P s' := by
  cases hx : x s with
  | ok b' s' =>
      obtain ⟨hb, hp⟩ := h.of_ok hx
      cases hb
      exact ⟨s', rfl, hp⟩
  | error e s' => cases h.of_error hx

theorem Gives.outcome {x : Update ε σ β} {s : σ} {y : Except ε β} (h : x.Gives s y P) :
    (x.outcome s).1 = y := by
  unfold Update.outcome
  cases hx : x s with
  | ok b s' => exact (h.of_ok hx).1.symm
  | error e s' => exact (h.of_error hx).symm

theorem gives_pure {s : σ} (b : β) (h : P s) : (pure b : Update ε σ β).Gives s (.ok b) P :=
  ⟨rfl, h⟩

theorem gives_lift {s : σ} (y : Except ε β) (h : P s) :
    (liftM y : Update ε σ β).Gives s y P := by
  cases y with
  | ok b => exact ⟨rfl, h⟩
  | error e => exact rfl

theorem gives_liftTensor {s : σ} (y : Except TensorError β) (h : P s) :
    (liftM y : Update (SolveError α) σ β).Gives s (liftM y) P :=
  gives_lift (SolveError.ofTensor y) h

theorem gives_bind {x : Update ε σ β} {f : β → Update ε σ γ} {s : σ} {y : Except ε β}
    {g : β → Except ε γ} {R : σ → Prop} (hx : x.Gives s y P)
    (hf : ∀ b s', y = .ok b → P s' → (f b).Gives s' (g b) R) :
    (x >>= f).Gives s (y >>= g) R := by
  unfold Gives
  rw [bind_apply]
  cases h : x s with
  | ok b s' =>
      obtain ⟨rfl, hp⟩ := hx.of_ok h
      exact hf b s' rfl hp
  | error e s' =>
      rw [hx.of_error h]
      rfl

end Update

/-! ## Pure functions of a system -/

/-- Residual and Jacobian of a system as functions of the tensor last set. `holds s w` says
that `w` was last set in state `s`, where `none` stands for nothing set yet. -/
structure Memoryless (sys : NonlinearSystem σ α) where
  holds : σ → Option (Tensor α) → Prop
  accept : Tensor α → Except (SolveError α) Unit
  residual : Tensor α → Except (SolveError α) (Tensor α)
  jacobian : Tensor α → Except (SolveError α) (Tensor α)
  gives_set : ∀ {s w} u, holds s w → (sys.setSolution u).Gives s (accept u) (holds · (some u))
  gives_residual : ∀ {s w}, holds s (some w) → sys.residual.Gives s (residual w) (holds · (some w))
  gives_jacobian : ∀ {s w}, holds s (some w) → sys.jacobian.Gives s (jacobian w) (holds · (some w))

/-- The system of two functions, whose state is the tensor last set. -/
def NonlinearSystem.ofFunctions (residual jacobian : Tensor α → Except (SolveError α) (Tensor α)) :
    NonlinearSystem (Option (Tensor α)) α where
  unknownAxis := default
  residualAxis := default
  setSolution := fun u => set (some u)
  solution := id
  residual := fun w => match w with
    | some u => Update.ofExcept (residual u) w
    | none => .error (.missingInput .root) w
  jacobian := fun w => match w with
    | some u => Update.ofExcept (jacobian u) w
    | none => .error (.missingInput .root) w

/-- The system of one function of a number, entry by entry, with a constant Jacobian. -/
def NonlinearSystem.entrywise (f : α → α) (j : Tensor α) :
    NonlinearSystem (Option (Tensor α)) α :=
  .ofFunctions (fun u => .ok (u.map f)) fun _ => .ok j

def Memoryless.ofFunctions (residual jacobian : Tensor α → Except (SolveError α) (Tensor α)) :
    Memoryless (NonlinearSystem.ofFunctions residual jacobian) where
  holds := Eq
  accept := fun _ => .ok ()
  residual := residual
  jacobian := jacobian
  gives_set := fun _ _ => ⟨rfl, rfl⟩
  gives_residual := by
    rintro _ w rfl
    exact Update.gives_lift (P := (· = some w)) (residual w) rfl
  gives_jacobian := by
    rintro _ w rfl
    exact Update.gives_lift (P := (· = some w)) (jacobian w) rfl

theorem Memoryless.holds_ofFunctions
    (residual jacobian : Tensor α → Except (SolveError α) (Tensor α)) (w : Option (Tensor α)) :
    (Memoryless.ofFunctions residual jacobian).holds w w := rfl

/-- An iteration that sees of a system only what the system holds: its data at the start and
what its update returns are functions of the tensor held, of its own data and of their
arguments. An update may leave the system holding any tensor. -/
structure Iteration.Reading {sys : NonlinearSystem σ α} (it : Iteration σ τ α)
    (m : Memoryless sys) where
  prepared : Tensor α → Tensor α → Except (SolveError α) τ
  next : Tensor α → τ → Tensor α → Tensor α → Tensor α → Except (SolveError α) (Tensor α × τ)
  prepares : ∀ {s w u}, m.holds s (some w) → it.prepare sys s u = prepared w u
  returns : ∀ {s w t t' u r j v s'}, m.holds s (some w) →
    it.update sys u r j (s, t) = .ok v (s', t') →
      next w t u r j = .ok (v, t') ∧ ∃ w', m.holds s' w'
  fails : ∀ {s w t u r j e st}, m.holds s (some w) →
    it.update sys u r j (s, t) = .error e st → next w t u r j = .error e

/-- One element of the pure sequence: the tensor at which the residual was evaluated, the data
for the next update, the iterate and the residual. -/
structure Point (τ α : Type) where
  held : Tensor α
  data : Except (SolveError α) τ
  value : Tensor α
  residual : Tensor α

namespace Memoryless

variable {sys : NonlinearSystem σ α} (m : Memoryless sys)

def start [Zero α] (guess : Tensor α) : Except (SolveError α) (Tensor α × Tensor α) := do
  m.accept guess
  let r ← m.residual guess
  let batch ← Shape.broadcast guess.batch r.batch
  let u ← guess.expandBatch batch
  return (u, r)

def advance {it : Iteration σ τ α} (rd : it.Reading m) (p : Point τ α) :
    Except (SolveError α) (Point τ α) := do
  let t ← p.data
  let j ← m.jacobian p.held
  let (u, t) ← rd.next p.held t p.value p.residual j
  m.accept u
  let r ← m.residual u
  return ⟨u, .ok t, u, r⟩

/-- The points of a run from a guess, each an update of the one before it. -/
def points [Zero α] {it : Iteration σ τ α} (rd : it.Reading m) (guess : Tensor α) :
    Nat → Except (SolveError α) (Point τ α)
  | 0 => do
    let (u, r) ← m.start guess
    return ⟨guess, rd.prepared guess u, u, r⟩
  | i + 1 => points rd guess i >>= m.advance rd

def finish [Zero α] [One α] [Add α] [Neg α] [Mul α] (linear : LinearSolver α)
    (gradient : Bool) (p : Point τ α) (i : Nat) : Except (SolveError α) (Solution α) :=
  if gradient then do
    let j ← m.jacobian p.held
    let step ← linear.newtonStep p.residual j
    let u ← p.value.add step
    m.accept u
    return ⟨.converged, u, i⟩
  else return ⟨.converged, p.value, i⟩

/-! ## Heads are points -/

structure Realises (h : Head σ τ α) (p : Point τ α) : Prop where
  holds : m.holds h.state (some p.held)
  data : h.data = p.data
  value : h.value = p.value
  residual : h.residual = p.residual

section Simulation

variable {m : Memoryless sys} {it : Iteration σ τ α} {rd : it.Reading m}

theorem gives_start [Zero α] {s : σ} {w : Option (Tensor α)} (hs : m.holds s w) (guess : Tensor α) :
    (Iteration.start sys guess).Gives s (m.start guess) (m.holds · (some guess)) := by
  refine Update.gives_bind (m.gives_set guess hs) fun _ s₁ _ h₁ => ?_
  refine Update.gives_bind (m.gives_residual h₁) fun r s₂ _ h₂ => ?_
  refine Update.gives_bind (Update.gives_liftTensor (P := (m.holds · (some guess))) _ h₂)
    fun batch s₃ _ h₃ => ?_
  refine Update.gives_bind (Update.gives_liftTensor (P := (m.holds · (some guess))) _ h₃)
    fun u s₄ _ h₄ => ?_
  exact Update.gives_pure _ h₄

/-- A pass from a state that holds the point's tensor is the step of the pure sequence, and
leaves the system holding the new iterate. -/
theorem headNext_ok_realises {h h' : Head σ τ α} {p : Point τ α} (hr : m.Realises h p)
    (hn : it.headNext sys h = .ok h') : ∃ p', m.advance rd p = .ok p' ∧ m.Realises h' p' := by
  obtain ⟨hh, hd, hv, hres⟩ := hr
  obtain ⟨t, t', ht, ht', hp⟩ := Iteration.headNext_eq_ok hn
  obtain ⟨j, s₁, s₂, s₃, hj, hu, hset, hr⟩ := Iteration.pass_eq_ok.1 hp
  obtain ⟨hj', h₁⟩ := (m.gives_jacobian hh).of_ok hj
  obtain ⟨hu', w, h₂⟩ := rd.returns h₁ hu
  obtain ⟨hset', h₃⟩ := (m.gives_set _ h₂).of_ok hset
  obtain ⟨hr', h₄⟩ := (m.gives_residual h₃).of_ok hr
  rw [hv, hres] at hu'
  refine ⟨⟨h'.value, .ok t', h'.value, h'.residual⟩, ?_, h₄, ht', rfl, rfl⟩
  simp only [advance, ← hd, ht, hj', hu', hset', hr', bind, Except.bind, pure, Except.pure]

theorem headNext_error_realises {h : Head σ τ α} {p : Point τ α} {e : SolveError α}
    (hr : m.Realises h p) (hn : it.headNext sys h = .error e) : m.advance rd p = .error e := by
  obtain ⟨hh, hd, hv, hres⟩ := hr
  cases ht : h.data with
  | error e' =>
      simp only [Iteration.headNext, ht, bind, Except.bind, Except.error.injEq] at hn
      simp only [advance, ← hd, ht, hn, bind, Except.bind]
  | ok t =>
      cases hp : it.pass sys h.value h.residual (h.state, t) with
      | ok q st =>
          obtain ⟨u, r⟩ := q
          obtain ⟨s', t'⟩ := st
          simp [Iteration.headNext_of_pass_ok ht hp] at hn
      | error e' st =>
          rw [Iteration.headNext_of_pass_error ht hp, Except.error.injEq] at hn
          subst hn
          simp only [advance, ← hd, ht, ← hv, ← hres, bind, Except.bind]
          obtain ⟨_, hj⟩ | ⟨j, s₁, hj, hrest⟩ := Iteration.pass_eq_error hp
          · simp only [(m.gives_jacobian hh).of_error hj]
          obtain ⟨hj', h₁⟩ := (m.gives_jacobian hh).of_ok hj
          simp only [hj']
          obtain ⟨_, hu⟩ | ⟨u', s₂, t', hu, hrest⟩ := hrest
          · simp only [rd.fails h₁ hu]
          obtain ⟨hu', w, h₂⟩ := rd.returns h₁ hu
          simp only [hu']
          obtain ⟨_, hset⟩ | ⟨s₃, _, hset, hres'⟩ := hrest
          · simp only [(m.gives_set u' h₂).of_error hset]
          obtain ⟨hset', h₃⟩ := (m.gives_set u' h₂).of_ok hset
          simp only [hset', (m.gives_residual h₃).of_error hres']

/-- Head `i` of a run realises point `i` of the pure sequence, and both fail alike. -/
theorem headAt_realises [Zero α] {s : σ} {w : Option (Tensor α)} (hs : m.holds s w)
    (guess : Tensor α) (i : Nat) :
    (∀ h, it.headAt sys guess s i = .ok h → ∃ p, m.points rd guess i = .ok p ∧ m.Realises h p) ∧
      ∀ e, it.headAt sys guess s i = .error e → m.points rd guess i = .error e := by
  induction i with
  | zero =>
      unfold Iteration.headAt points
      cases hst : Iteration.start sys guess s with
      | error e s' => simp [(gives_start hs guess).of_error hst, bind, Except.bind]
      | ok q s' =>
          obtain ⟨u, r⟩ := q
          obtain ⟨hst', hh⟩ := (gives_start hs guess).of_ok hst
          simp only [hst', bind, Except.bind, pure, Except.pure, Except.ok.injEq, forall_eq']
          exact ⟨⟨_, rfl, hh, rd.prepares hh, rfl, rfl⟩, fun e he => by cases he⟩
  | succ i ih =>
      cases hh : it.headAt sys guess s i with
      | error e =>
          simp [Iteration.headAt, points, hh, ih.2 e hh, bind, Except.bind]
      | ok h =>
          obtain ⟨p, hp, hr⟩ := ih.1 h hh
          rw [Iteration.headAt_succ_of_ok hh, points, hp]
          exact ⟨fun h' => headNext_ok_realises hr, fun e => headNext_error_realises hr⟩

theorem gives_finish [Zero α] [One α] [Add α] [Neg α] [Mul α] [Div α] [LT α] [DecidableLT α]
    [Scalar α] {h : Head σ τ α} {p : Point τ α} (hr : m.Realises h p) (i : Nat) :
    (it.finish sys h.value h.residual i).Gives h.state
      (m.finish it.linear (sys.requiresGradient h.state) p i) fun s => ∃ w, m.holds s w := by
  obtain ⟨hh, hd, hv, hres⟩ := hr
  unfold Iteration.finish Memoryless.finish
  change Update.Gives (if sys.requiresGradient h.state then _ else _) h.state _ _
  rw [hv, hres]
  by_cases hg : sys.requiresGradient h.state = true
  · rw [if_pos hg, if_pos hg]
    refine Update.gives_bind (m.gives_jacobian hh) fun j s₁ _ h₁ => ?_
    refine Update.gives_bind (Update.gives_lift (P := (m.holds · (some p.held))) _ h₁)
      fun step s₂ _ h₂ => ?_
    refine Update.gives_bind (Update.gives_liftTensor (P := (m.holds · (some p.held))) _ h₂)
      fun u s₃ _ h₃ => ?_
    refine Update.gives_bind (m.gives_set u h₃) fun _ s₄ _ h₄ => ?_
    exact Update.gives_pure _ ⟨_, h₄⟩
  · rw [if_neg hg, if_neg hg]
    exact Update.gives_pure _ ⟨_, hh⟩

end Simulation

end Memoryless

end TieredCalculus
