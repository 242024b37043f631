import TieredCalculus.Proofs.Linear.Batched
import TieredCalculus.Proofs.Newton.Memoryless

/-! # Batch entries that run on their own

A problem acts on its batch entries separately when residual and Jacobian of an entry are
functions of that entry of the solution. Where a solver's update treats every entry on its
own too, a run on the batch is the runs on its entries side by side, and a batch fails only
as one of its entries does.
-/

namespace TieredCalculus

variable {σ τ α : Type}

/-! ## Results and errors of updates -/

namespace Update

variable {ε β γ : Type}

/-- From a state the update returns with `Q` of its result and of the state it leaves, or
fails with an error for which `E` holds. -/
def Ensures (x : Update ε σ β) (s : σ) (Q : β → σ → Prop) (E : ε → Prop) : Prop :=
  match x s with
  | .ok b s' => Q b s'
  | .error e _ => E e

variable {x : Update ε σ β} {s : σ} {Q : β → σ → Prop} {E : ε → Prop}

theorem Ensures.of_ok {s' : σ} {b : β} (h : x.Ensures s Q E) (hx : x s = .ok b s') : Q b s' := by
  unfold Ensures at h
  rw [hx] at h
  exact h

theorem Ensures.of_error {s' : σ} {e : ε} (h : x.Ensures s Q E) (hx : x s = .error e s') :
    E e := by
  unfold Ensures at h
  rw [hx] at h
  exact h

theorem ensures_intro (hok : ∀ b s', x s = .ok b s' → Q b s')
    (herr : ∀ e s', x s = .error e s' → E e) : x.Ensures s Q E := by
  unfold Ensures
  cases hx : x s with
  | ok b s' => exact hok b s' hx
  | error e s' => exact herr e s' hx

theorem ensures_pure {b : β} (h : Q b s) : (pure b : Update ε σ β).Ensures s Q E := h

theorem Ensures.bind {f : β → Update ε σ γ} {R : γ → σ → Prop} (hx : x.Ensures s Q E)
    (hf : ∀ b s', Q b s' → (f b).Ensures s' R E) : (x >>= f).Ensures s R E := by
  unfold Ensures
  rw [bind_apply]
  cases h : x s with
  | ok b s' => exact hf b s' (hx.of_ok h)
  | error e s' => exact hx.of_error h

theorem Ensures.mono {R : β → σ → Prop} {F : ε → Prop} (hx : x.Ensures s Q E)
    (hQ : ∀ b s', Q b s' → R b s') (hE : ∀ e, E e → F e) : x.Ensures s R F :=
  ensures_intro (fun b s' h => hQ b s' (hx.of_ok h)) fun e _ h => hE e (hx.of_error h)

theorem Ensures.onFirst {t : τ} (hx : x.Ensures s Q E) :
    (x.onFirst : Update ε (σ × τ) β).Ensures (s, t) (fun b st => Q b st.1 ∧ t = st.2) E := by
  refine ensures_intro (fun b st h => ?_) fun e st h => ?_
  · obtain ⟨hb, ht⟩ := onFirst_eq_ok.1 h
    exact ⟨hx.of_ok hb, ht.symm⟩
  · exact hx.of_error (onFirst_eq_error.1 h).1

theorem ensures_lift {y : Except ε β} (hok : ∀ b, y = .ok b → Q b s)
    (herr : ∀ e, y = .error e → E e) : (liftM y : Update ε σ β).Ensures s Q E := by
  cases y with
  | ok b => exact hok b rfl
  | error e => exact herr e rfl

theorem Gives.ensures {y : Except ε β} {P : σ → Prop} (h : x.Gives s y P)
    (hok : ∀ b s', y = .ok b → P s' → Q b s') (herr : ∀ e, y = .error e → E e) :
    x.Ensures s Q E := by
  refine ensures_intro (fun b s' hx => ?_) fun e s' hx => herr e (h.of_error hx)
  obtain ⟨hy, hp⟩ := h.of_ok hx
  exact hok b s' hy hp

end Update

namespace Iteration

variable {it : Iteration σ τ α} {sys : NonlinearSystem σ α} {guess : Tensor α} {s : σ}

/-- What holds of the first head and is kept by every pass holds of every head, and likewise
for the errors that keep a head from being reached. -/
theorem headAt_ensures [Zero α] {I : Nat → Head σ τ α → Prop} {E : Nat → SolveError α → Prop}
    (hstart : (start sys guess).Ensures s (fun q s' => I 0 ⟨s', it.prepare sys s' q.1, q.1, q.2⟩)
      (E 0))
    (hpass : ∀ i h, I i h → ∃ t, h.data = .ok t ∧
      (it.pass sys h.value h.residual).Ensures (h.state, t)
        (fun q st => I (i + 1) ⟨st.1, .ok st.2, q.1, q.2⟩) (E (i + 1)))
    (hkeep : ∀ i e, E i e → E (i + 1) e) (i : Nat) :
    (∀ h, it.headAt sys guess s i = .ok h → I i h) ∧
      ∀ e, it.headAt sys guess s i = .error e → E i e := by
  induction i with
  | zero =>
      unfold headAt
      cases hs : start sys guess s with
      | ok q s' =>
          refine ⟨fun h hh => ?_, fun e he => by cases he⟩
          cases hh
          exact hstart.of_ok hs
      | error e s' =>
          refine ⟨fun h hh => (by cases hh), fun e' he => ?_⟩
          cases he
          exact hstart.of_error hs
  | succ i ih =>
      cases hh : it.headAt sys guess s i with
      | error e =>
          have hsucc : it.headAt sys guess s (i + 1) = .error e := by
            rw [headAt, hh]
            rfl
          rw [hsucc]
          refine ⟨fun h hh' => (by cases hh'), fun e' he => ?_⟩
          cases he
          exact hkeep i e (ih.2 e hh)
      | ok h =>
          obtain ⟨t, ht, hp⟩ := hpass i h (ih.1 h hh)
          rw [headAt_succ_of_ok hh]
          cases hq : it.pass sys h.value h.residual (h.state, t) with
          | ok q st =>
              rw [headNext_of_pass_ok ht hq]
              refine ⟨fun h' hh' => ?_, fun e he => by cases he⟩
              cases hh'
              exact hp.of_ok hq
          | error e st =>
              rw [headNext_of_pass_error ht hq]
              refine ⟨fun h' hh' => (by cases hh'), fun e' he => ?_⟩
              cases he
              exact hp.of_error hq

/-- Where heads have data and no further update is asked for, a solve returns the iterate of
the first head that passes the test, or of the last one below the limit, and fails only because
some head is not reached. -/
theorem solve_heads [Zero α] [One α] [Add α] [Neg α] [Mul α] [Div α] [LT α] [DecidableLT α]
    [Scalar α] (hv : it.validate = .ok ()) (hmax : 0 < it.tolerances.maxIterations)
    (hdata : ∀ i h, it.headAt sys guess s i = .ok h → ∃ t, h.data = .ok t)
    (hgradient : ∀ s, sys.requiresGradient s = false) :
    (∀ sol, ((it.solve sys guess).outcome s).1 = .ok sol →
      ∃ i first h, it.headAt sys guess s 0 = .ok first ∧ it.headAt sys guess s i = .ok h ∧
        sol.value = h.value ∧ (∀ m < i, it.Passed sys guess s first.residual.rowNorms m) ∧
        (it.tolerances.met h.residual.rowNorms first.residual.rowNorms = true ∧
            i < it.tolerances.maxIterations ∨ i + 1 = it.tolerances.maxIterations)) ∧
    ∀ e, ((it.solve sys guess).outcome s).1 = .error e →
      ∃ i < it.tolerances.maxIterations, it.headAt sys guess s i = .error e := by
  obtain ⟨k, initial, hinit, hbefore, hend⟩ := solve_endsAt sys guess s hv hmax
  generalize (it.solve sys guess).outcome s = x at hend
  cases hend with
  | @converged i last hi hh hm =>
      obtain ⟨first, hfirst⟩ := exists_headAt_of_le (Nat.zero_le k) hh
      rw [hinit first hfirst] at hbefore hm
      have hfinish : it.finish sys last.value last.residual k last.state =
          .ok ⟨.converged, last.value, k⟩ last.state := by
        unfold finish
        rw [Update.get_bind_apply, hgradient]
        rfl
      rw [Update.outcome_eq_ok.2 hfinish]
      refine ⟨fun sol h => ?_, fun e h => by cases h⟩
      cases h
      exact ⟨k, first, last, hfirst, hh, rfl, hbefore, .inl ⟨hm, hi⟩⟩
  | @limit i last hi hh =>
      obtain ⟨first, hfirst⟩ := exists_headAt_of_le (Nat.zero_le i) hh
      rw [hinit first hfirst] at hbefore
      refine ⟨fun sol h => ?_, fun e h => by cases h⟩
      cases h
      exact ⟨i, first, last, hfirst, hh, rfl, fun m hm => hbefore m (by omega), .inr hi⟩
  | failed hi hh =>
      refine ⟨fun sol h => (by cases h), fun e h => ?_⟩
      cases h
      exact ⟨k, hi, hh⟩
  | unprepared hh hm hd =>
      obtain ⟨t, ht⟩ := hdata 0 _ hh
      rw [ht] at hd
      cases hd

end Iteration

/-! ## Entries -/

/-- What a system is on one batch entry. -/
structure EntryFunctions (α : Type) (n : Nat) where
  residual : Vector α n → Except (SolveError α) (Vector α n)
  jacobian : Vector α n → Except (SolveError α) (Square α n)

/-- The error `e` of a batch is the error of its entry number `k` on its own: a singular matrix
is then that of entry `k`, and any other error is the same. -/
def SolveError.RaisedAs (e' : SolveError α) (k : Nat) (e : SolveError α) : Prop :=
  e = e' ∨ e' = .singularMatrix 0 ∧ e = .singularMatrix k

/-- A batch fails with the error of one of its entries. -/
def EntryFails {β : Type} (batch : Shape) (g : Index → Except (SolveError α) β)
    (e : SolveError α) : Prop :=
  ∃ b e', Shape.InBounds batch b ∧ g b = .error e' ∧ e'.RaisedAs (batch.offset b) e

theorem EntryFails.mono {β γ : Type} {batch : Shape} {g : Index → Except (SolveError α) β}
    {g' : Index → Except (SolveError α) γ} {e : SolveError α} (h : EntryFails batch g e)
    (hg : ∀ b e', Shape.InBounds batch b → g b = .error e' → g' b = .error e') :
    EntryFails batch g' e := by
  obtain ⟨b, e', hb, he, hr⟩ := h
  exact ⟨b, e', hb, hg b e' hb he, hr⟩

section Problems

variable [Zero α] {batch : Shape} {n : Nat}

/-- The packed tensor holds one result per batch entry. -/
structure Collects (batch : Shape) (g : Index → Except (SolveError α) (Vector α n))
    (t : Tensor α) : Prop where
  batch_eq : t.batch = batch
  packed : t.Packed n
  run_eq : ∀ {b : Index}, Shape.InBounds batch b → g b = .ok (t.runAt n b)

structure CollectsSquare (batch : Shape) (g : Index → Except (SolveError α) (Square α n))
    (t : Tensor α) : Prop where
  expands : t.batch.expandsTo batch = true
  packed : t.PackedSquare n
  run_eq : ∀ {b : Index}, Shape.InBounds batch b → g b = .ok (t.squareAt n b)

/-- A system without memory, in some state and with a guess, that acts on each entry of a batch
separately: from the guess and from every solution of that batch, an entry of the residual and
of the Jacobian is a function of that entry of the solution, and an evaluation fails only as it
does for some entry. No outer differentiation is asked for. -/
structure BatchProblem (σ : Type) (batch : Shape) (n : Nat)
    (f : Index → EntryFunctions α n) where
  sys : NonlinearSystem σ α
  memoryless : Memoryless sys
  state : σ
  held : Option (Tensor α)
  holds : memoryless.holds state held
  guess : Tensor α
  guess_packed : guess.Packed n
  guess_expands : guess.batch.expandsTo batch = true
  accept_ok : ∀ {u : Tensor α}, u.Packed n → u.batch = batch ∨ u = guess →
    memoryless.accept u = .ok ()
  residual_ok : ∀ {u r : Tensor α}, u.Packed n → u.batch = batch ∨ u = guess →
    memoryless.residual u = .ok r → Collects batch (fun b => (f b).residual (u.runAt n b)) r
  residual_error : ∀ {u : Tensor α} {e : SolveError α}, u.Packed n →
    u.batch = batch ∨ u = guess → memoryless.residual u = .error e →
      EntryFails batch (fun b => (f b).residual (u.runAt n b)) e
  jacobian_ok : ∀ {u j : Tensor α}, u.Packed n → u.batch = batch ∨ u = guess →
    memoryless.jacobian u = .ok j → CollectsSquare batch (fun b => (f b).jacobian (u.runAt n b)) j
  jacobian_error : ∀ {u : Tensor α} {e : SolveError α}, u.Packed n →
    u.batch = batch ∨ u = guess → memoryless.jacobian u = .error e →
      EntryFails batch (fun b => (f b).jacobian (u.runAt n b)) e
  gradient_off : ∀ s, sys.requiresGradient s = false

namespace BatchProblem

variable {f : Index → EntryFunctions α n} (p : BatchProblem σ batch n f)

/-! ## Calls of the system -/

theorem sets {s : σ} {w : Option (Tensor α)} {u : Tensor α} {E : SolveError α → Prop}
    (hs : p.memoryless.holds s w) (hu : u.Packed n) (hb : u.batch = batch ∨ u = p.guess) :
    (p.sys.setSolution u).Ensures s (fun _ s' => p.memoryless.holds s' (some u)) E := by
  refine (p.memoryless.gives_set u hs).ensures (fun _ s' _ h => h) fun e he => ?_
  rw [p.accept_ok hu hb] at he
  cases he

theorem evaluates {s : σ} {u : Tensor α} (hs : p.memoryless.holds s (some u)) (hu : u.Packed n)
    (hb : u.batch = batch ∨ u = p.guess) :
    p.sys.residual.Ensures s
      (fun r s' => p.memoryless.holds s' (some u) ∧
        Collects batch (fun b => (f b).residual (u.runAt n b)) r)
      (EntryFails batch fun b => (f b).residual (u.runAt n b)) :=
  (p.memoryless.gives_residual hs).ensures (fun _ _ hr h => ⟨h, p.residual_ok hu hb hr⟩)
    fun _ he => p.residual_error hu hb he

theorem linearizes {s : σ} {u : Tensor α} (hs : p.memoryless.holds s (some u)) (hu : u.Packed n)
    (hb : u.batch = batch ∨ u = p.guess) :
    p.sys.jacobian.Ensures s
      (fun j s' => p.memoryless.holds s' (some u) ∧
        CollectsSquare batch (fun b => (f b).jacobian (u.runAt n b)) j)
      (EntryFails batch fun b => (f b).jacobian (u.runAt n b)) :=
  (p.memoryless.gives_jacobian hs).ensures (fun _ _ hj h => ⟨h, p.jacobian_ok hu hb hj⟩)
    fun _ he => p.jacobian_error hu hb he

/-! ## Heads -/

/-- A head of a run on the batch: its residual belongs to its iterate entry by entry, and the
system holds the iterate or the guess that the first iterate expands. -/
structure Reached (h : Head σ τ α) : Prop where
  value_batch : h.value.batch = batch
  value_packed : h.value.Packed n
  residual : Collects batch (fun b => (f b).residual (h.value.runAt n b)) h.residual
  holding : ∃ w, p.memoryless.holds h.state (some w) ∧ w.Packed n ∧
    (w.batch = batch ∨ w = p.guess) ∧ ∀ {b : Index}, Shape.InBounds batch b →
      w.runAt n b = h.value.runAt n b

theorem start_reached (d : σ → Tensor α → Except (SolveError α) τ) :
    (Iteration.start p.sys p.guess).Ensures p.state
      (fun q s' => p.Reached ⟨s', d s' q.1, q.1, q.2⟩ ∧ ∀ {b : Index}, Shape.InBounds batch b →
        q.1.runAt n b = p.guess.runAt n b)
      (EntryFails batch fun b => (f b).residual (p.guess.runAt n b)) := by
  have hguess : p.guess.batch = batch ∨ p.guess = p.guess := .inr rfl
  refine (p.sets p.holds p.guess_packed hguess).bind fun _ s₁ h₁ => ?_
  refine (p.evaluates h₁ p.guess_packed hguess).bind fun r s₂ ⟨h₂, hr⟩ => ?_
  have hbatch := Shape.broadcast_of_expandsTo p.guess_expands
  obtain ⟨u, hu⟩ := Tensor.expandBatch_isOk p.guess_expands
  obtain ⟨-, hub, hup, hrun⟩ := p.guess_packed.expandBatch hu
  have hruns : ∀ {b : Index}, Shape.InBounds batch b → u.runAt n b = p.guess.runAt n b :=
    fun hb => hrun (Shape.expandsTo_refl batch) hb
  rw [hr.batch_eq, hbatch]
  show Update.Ensures (liftM (p.guess.expandBatch batch) >>= _) s₂ _ _
  rw [hu]
  refine Update.ensures_pure ⟨⟨hub, hup, ⟨hr.batch_eq, hr.packed, fun hb => ?_⟩, ?_⟩, hruns⟩
  · rw [hruns hb]
    exact hr.run_eq hb
  · exact ⟨p.guess, h₂, p.guess_packed, hguess, fun hb => (hruns hb).symm⟩

/-- A pass keeps heads reached where the update stays on the batch. Errors of the pass are
errors of the update or of evaluating some entry. -/
theorem pass_reached {it : Iteration σ τ α} {h : Head σ τ α} {t : τ} (hh : p.Reached h)
    {C : Tensor α → τ → Prop} {E : SolveError α → Prop}
    (hjacobian : ∀ e, EntryFails batch (fun b => (f b).jacobian (h.value.runAt n b)) e → E e)
    (hupdate : ∀ j s w, CollectsSquare batch (fun b => (f b).jacobian (h.value.runAt n b)) j →
      p.memoryless.holds s w → (it.update p.sys h.value h.residual j).Ensures (s, t)
        (fun u st => u.batch = batch ∧ u.Packed n ∧ (∃ w, p.memoryless.holds st.1 w) ∧ C u st.2) E)
    (hresidual : ∀ u t', C u t' → ∀ e,
      EntryFails batch (fun b => (f b).residual (u.runAt n b)) e → E e) :
    (it.pass p.sys h.value h.residual).Ensures (h.state, t)
      (fun q st => p.Reached (τ := τ) ⟨st.1, .ok st.2, q.1, q.2⟩ ∧ C q.1 st.2) E := by
  obtain ⟨w, hw, hwp, hwb, hrun⟩ := hh.holding
  have hfails : ∀ e, EntryFails batch (fun b => (f b).jacobian (w.runAt n b)) e → E e := by
    refine fun e he => hjacobian e (he.mono fun b e' hb hj => ?_)
    rw [← hrun hb]
    exact hj
  refine ((p.linearizes hw hwp hwb).mono (fun _ _ hj => hj) hfails).onFirst.bind ?_
  rintro j ⟨s₁, _⟩ ⟨⟨h₁, hj⟩, rfl⟩
  have hj' : CollectsSquare batch (fun b => (f b).jacobian (h.value.runAt n b)) j := by
    refine ⟨hj.expands, hj.packed, fun hb => ?_⟩
    rw [← hrun hb]
    exact hj.run_eq hb
  refine (hupdate j s₁ (some w) hj' h₁).bind ?_
  rintro u ⟨s₂, t₂⟩ ⟨hub, hup, ⟨w₂, h₂⟩, hC⟩
  refine (p.sets h₂ hup (.inl hub)).onFirst.bind ?_
  rintro _ ⟨s₃, _⟩ ⟨h₃, rfl⟩
  refine ((p.evaluates h₃ hup (.inl hub)).mono (fun _ _ hr => hr)
    (hresidual u _ hC)).onFirst.bind ?_
  rintro r ⟨s₄, _⟩ ⟨⟨h₄, hr⟩, rfl⟩
  exact Update.ensures_pure ⟨⟨hub, hup, hr, u, h₄, hup, .inl hub, fun _ => rfl⟩, hC⟩

end BatchProblem

/-! ## Runs side by side -/

abbrev EntryStep (α : Type) (n : Nat) : Type :=
  Vector α n → Vector α n → Square α n → Except (SolveError α) (Vector α n)

namespace EntryFunctions

/-- One update of an entry that steps on its own. -/
def update (f : EntryFunctions α n) (next : EntryStep α n) (u r : Vector α n) :
    Except (SolveError α) (Vector α n) := do
  let j ← f.jacobian u
  next u r j

/-- Iterate and residual of an entry on its own after `i` updates. -/
def run (f : EntryFunctions α n) (next : EntryStep α n) (v : Vector α n) :
    Nat → Except (SolveError α) (Vector α n × Vector α n)
  | 0 => do
    let r ← f.residual v
    return (v, r)
  | i + 1 => do
    let (u, r) ← f.run next v i
    let u ← f.update next u r
    let r ← f.residual u
    return (u, r)

omit [Zero α] in
theorem run_succ {f : EntryFunctions α n} {next : EntryStep α n} {v u r : Vector α n} {i : Nat}
    (h : f.run next v i = .ok (u, r)) : f.run next v (i + 1) =
      f.update next u r >>= fun u => f.residual u >>= fun r => pure (u, r) := by
  rw [run, h]
  rfl

omit [Zero α] in
theorem run_error {f : EntryFunctions α n} {next : EntryStep α n} {v : Vector α n} {i k : Nat}
    {e : SolveError α} (h : f.run next v i = .error e) (hk : i ≤ k) :
    f.run next v k = .error e := by
  induction k, hk using Nat.le_induction with
  | base => exact h
  | succ k _ ih =>
      rw [run, ih]
      rfl

end EntryFunctions

/-- From every state the update treats each entry as `next` does. -/
def BatchProblem.StepsBy {f : Index → EntryFunctions α n} (p : BatchProblem σ batch n f)
    (it : Iteration σ Unit α) (next : Index → EntryStep α n) : Prop :=
  ∀ {u r j : Tensor α} {s : σ} {w : Option (Tensor α)}, u.batch = batch → u.Packed n →
    r.batch = batch → r.Packed n → j.batch.expandsTo batch = true → j.PackedSquare n →
    p.memoryless.holds s w →
      (it.update p.sys u r j).Ensures (s, ())
        (fun u' st => Collects batch
            (fun b => next b (u.runAt n b) (r.runAt n b) (j.squareAt n b)) u' ∧
          ∃ w, p.memoryless.holds st.1 w)
        (EntryFails batch fun b => next b (u.runAt n b) (r.runAt n b) (j.squareAt n b))

theorem BatchProblem.StepsBy.pass {f : Index → EntryFunctions α n} {p : BatchProblem σ batch n f}
    {it : Iteration σ Unit α} {next : Index → EntryStep α n} (hnext : p.StepsBy it next) {i : Nat}
    {h : Head σ Unit α} (hh : p.Reached h)
    (hruns : ∀ {b : Index}, Shape.InBounds batch b → (f b).run (next b) (p.guess.runAt n b) i =
      .ok (h.value.runAt n b, h.residual.runAt n b)) :
    (it.pass p.sys h.value h.residual).Ensures (h.state, ())
      (fun q st => p.Reached (τ := Unit) ⟨st.1, .ok st.2, q.1, q.2⟩ ∧
        ∀ {b : Index}, Shape.InBounds batch b → (f b).run (next b) (p.guess.runAt n b) (i + 1) =
          .ok (q.1.runAt n b, q.2.runAt n b))
      (EntryFails batch fun b => (f b).run (next b) (p.guess.runAt n b) (i + 1)) := by
  refine (p.pass_reached hh (C := fun u _ => ∀ {b : Index}, Shape.InBounds batch b →
      (f b).update (next b) (h.value.runAt n b) (h.residual.runAt n b) = .ok (u.runAt n b))
    (fun e he => he.mono fun b e' hb hj => ?_) (fun j s w hj hs => ?_)
    fun u _ hu e he => he.mono fun b e' hb hr => ?_).mono
    (fun q st ⟨hq, hu⟩ => ⟨hq, fun {b} hb => ?_⟩) fun e he => he
  · rw [EntryFunctions.run_succ (hruns hb), EntryFunctions.update, hj]
    rfl
  · have hstep : ∀ {b : Index}, Shape.InBounds batch b →
        (f b).update (next b) (h.value.runAt n b) (h.residual.runAt n b) =
          next b (h.value.runAt n b) (h.residual.runAt n b) (j.squareAt n b) := by
      intro b hb
      rw [EntryFunctions.update, hj.run_eq hb]
      rfl
    refine (hnext hh.value_batch hh.value_packed hh.residual.batch_eq hh.residual.packed
      hj.expands hj.packed hs).mono (fun u st ⟨hu, hst⟩ => ?_) fun e he => ?_
    · refine ⟨hu.batch_eq, hu.packed, hst, fun {b} hb => ?_⟩
      rw [hstep hb]
      exact hu.run_eq hb
    · refine he.mono fun b e' hb hn => ?_
      rw [EntryFunctions.run_succ (hruns hb), hstep hb, hn]
      rfl
  · rw [EntryFunctions.run_succ (hruns hb), Update.except_bind_eq_error]
    exact .inr ⟨_, hu hb, Update.except_bind_eq_error.2 (.inl hr)⟩
  · rw [EntryFunctions.run_succ (hruns hb), Update.except_bind_eq_ok]
    exact ⟨_, hu hb, Update.except_bind_eq_ok.2 ⟨_, hq.residual.run_eq hb, rfl⟩⟩

/-- Where the update treats each entry on its own, every head holds the runs of all entries,
and a head is not reached only where the run of some entry fails. -/
theorem BatchProblem.headAt_entries {f : Index → EntryFunctions α n}
    (p : BatchProblem σ batch n f) {it : Iteration σ Unit α} {next : Index → EntryStep α n}
    (hprepare : ∀ s u, it.prepare p.sys s u = .ok ()) (hnext : p.StepsBy it next) (i : Nat) :
    (∀ h, it.headAt p.sys p.guess p.state i = .ok h → h.data = .ok () ∧ p.Reached h ∧
      ∀ {b : Index}, Shape.InBounds batch b → (f b).run (next b) (p.guess.runAt n b) i =
        .ok (h.value.runAt n b, h.residual.runAt n b)) ∧
    ∀ e, it.headAt p.sys p.guess p.state i = .error e →
      EntryFails batch (fun b => (f b).run (next b) (p.guess.runAt n b) i) e := by
  apply Iteration.headAt_ensures
    (I := fun i h => h.data = .ok () ∧ p.Reached h ∧
      ∀ {b : Index}, Shape.InBounds batch b → (f b).run (next b) (p.guess.runAt n b) i =
        .ok (h.value.runAt n b, h.residual.runAt n b))
    (E := fun i => EntryFails batch fun b => (f b).run (next b) (p.guess.runAt n b) i)
  · refine (p.start_reached (it.prepare p.sys)).mono
      (fun q s' ⟨hq, hstart⟩ => ⟨hprepare s' q.1, hq, ?_⟩)
      fun e he => he.mono fun b e' _ hr => ?_
    · intro b hb
      rw [EntryFunctions.run, ← hstart hb, hq.residual.run_eq hb]
      rfl
    · rw [EntryFunctions.run, hr]
      rfl
  · rintro i h ⟨hd, hh, hruns⟩
    exact ⟨(), hd, (hnext.pass hh hruns).mono (fun _ _ hq => ⟨rfl, hq⟩) fun _ he => he⟩
  · intro i e he
    exact he.mono fun b e' _ hr => EntryFunctions.run_error hr (Nat.le_succ i)

end Problems

end TieredCalculus
