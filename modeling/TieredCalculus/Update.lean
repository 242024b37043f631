/-! # Updates that keep what they changed

An update changes a value of a type `σ` and either returns a result or fails. What it
changed before failing stays changed: the state is part of both outcomes. The equations at
the end run updates that are put together from others, one part after the other.
-/

namespace TieredCalculus

/-- A change of a `σ` with result `β` that may fail with an `ε`. -/
abbrev Update (ε σ β : Type) : Type := EStateM ε σ β

namespace Update

variable {ε ε' σ τ β γ : Type}

/-- The result or the error of an update, with the state it leaves behind. -/
def outcome (x : Update ε σ β) (s : σ) : Except ε β × σ :=
  match x s with
  | .ok b s' => (.ok b, s')
  | .error e s' => (.error e, s')

def ofExcept : Except ε β → Update ε σ β
  | .ok b => fun s => .ok b s
  | .error e => fun s => .error e s

instance : MonadLift (Except ε) (EStateM ε σ) := ⟨ofExcept⟩

def mapError (f : ε → ε') (x : Update ε σ β) : Update ε' σ β := fun s =>
  match x s with
  | .ok b s' => .ok b s'
  | .error e s' => .error (f e) s'

/-- Runs an update on a part of the state, storing the part back in both outcomes. -/
def onPart (get : σ → τ) (put : σ → τ → σ) (x : Update ε τ β) : Update ε σ β := fun s =>
  match x (get s) with
  | .ok b t => .ok b (put s t)
  | .error e t => .error e (put s t)

def onFirst (x : Update ε σ β) : Update ε (σ × τ) β :=
  onPart (·.1) (fun s t => (t, s.2)) x

/-- Runs an update beside a second state that starts as `t` and is dropped at the end. -/
def beside (t : τ) (x : Update ε (σ × τ) β) : Update ε σ β := fun s =>
  match x (s, t) with
  | .ok b s' => .ok b s'.1
  | .error e s' => .error e s'.1

@[simp] theorem outcome_ofExcept (x : Except ε β) (s : σ) : (ofExcept x).outcome s = (x, s) := by
  cases x <;> rfl

theorem outcome_eq_ok {x : Update ε σ β} {s s' : σ} {b : β} :
    x.outcome s = (.ok b, s') ↔ x s = .ok b s' := by
  unfold outcome
  cases x s <;> simp

theorem outcome_eq_error {x : Update ε σ β} {s s' : σ} {e : ε} :
    x.outcome s = (.error e, s') ↔ x s = .error e s' := by
  unfold outcome
  cases x s <;> simp

/-! ## Sequences -/

theorem except_bind_eq_ok {x : Except ε β} {f : β → Except ε γ} {c : γ} :
    (x >>= f) = .ok c ↔ ∃ b, x = .ok b ∧ f b = .ok c := by
  cases x with
  | ok b => simp [bind, Except.bind]
  | error e => simp [bind, Except.bind]

theorem except_bind_eq_error {x : Except ε β} {f : β → Except ε γ} {e : ε} :
    (x >>= f) = .error e ↔ x = .error e ∨ ∃ b, x = .ok b ∧ f b = .error e := by
  cases x with
  | ok b => simp [bind, Except.bind]
  | error e' => simp [bind, Except.bind]

theorem except_map_eq_ok {x : Except ε β} {f : β → γ} {c : γ} (h : f <$> x = .ok c) :
    ∃ b, x = .ok b ∧ f b = c := by
  cases x with
  | ok b => exact ⟨b, rfl, Except.ok.inj h⟩
  | error e => cases h

theorem except_map_eq_error {x : Except ε β} {f : β → γ} {e : ε} (h : f <$> x = .error e) :
    x = .error e := by
  cases x with
  | ok b => cases h
  | error e' => exact congrArg Except.error (Except.error.inj h)

theorem exists_of_toOption_map {x : Except ε β} {f : β → γ} {c : γ}
    (h : (x.map f).toOption = some c) : ∃ b, x = .ok b ∧ f b = c := by
  cases x with
  | ok b => exact ⟨b, rfl, Option.some.inj h⟩
  | error e => cases h

theorem except_mapM_eq_ok {f : γ → Except ε β} {xs : List γ} {ys : List β}
    (h : xs.mapM f = .ok ys) :
    ys.length = xs.length ∧
      ∀ (k : Nat) (x : γ), xs[k]? = some x → ∃ y, ys[k]? = some y ∧ f x = .ok y := by
  induction xs generalizing ys with
  | nil =>
      cases h
      exact ⟨rfl, fun k x hx => by simp at hx⟩
  | cons a xs ih =>
      rw [List.mapM_cons] at h
      obtain ⟨b, hb, hrest⟩ := except_bind_eq_ok.1 h
      obtain ⟨bs, hbs, hys⟩ := except_bind_eq_ok.1 hrest
      cases hys
      obtain ⟨hlen, hall⟩ := ih hbs
      refine ⟨by rw [List.length_cons, List.length_cons, hlen], fun k x hx => ?_⟩
      cases k with
      | zero =>
          cases hx
          exact ⟨b, rfl, hb⟩
      | succ k => exact hall k x hx

/-- A list of computations fails as the first of its members that does. -/
theorem except_mapM_eq_error_iff {f : γ → Except ε β} {xs : List γ} {e : ε} :
    xs.mapM f = .error e ↔ ∃ (k : Nat) (x : γ), xs[k]? = some x ∧ f x = .error e ∧
      ∀ i < k, ∀ y, xs[i]? = some y → ∃ b, f y = .ok b := by
  induction xs with
  | nil => simp [pure, Except.pure]
  | cons a xs ih =>
      rw [List.mapM_cons, except_bind_eq_error]
      constructor
      · rintro (ha | ⟨b, ha, hrest⟩)
        · exact ⟨0, a, rfl, ha, fun i hi => absurd hi (Nat.not_lt_zero i)⟩
        · rcases except_bind_eq_error.1 hrest with hxs | ⟨bs, -, hend⟩
          · obtain ⟨k, x, hx, he, hbefore⟩ := ih.1 hxs
            refine ⟨k + 1, x, hx, he, fun i hi y hy => ?_⟩
            cases i with
            | zero =>
                cases hy
                exact ⟨b, ha⟩
            | succ i => exact hbefore i (Nat.lt_of_succ_lt_succ hi) y hy
          · cases hend
      · rintro ⟨_ | k, x, hx, he, hbefore⟩
        · cases hx
          exact .inl he
        · obtain ⟨b, hb⟩ := hbefore 0 (Nat.succ_pos k) a rfl
          have hxs := ih.2 ⟨k, x, hx, he, fun i hi => hbefore (i + 1) (Nat.succ_lt_succ hi)⟩
          exact .inr ⟨b, hb, except_bind_eq_error.2 (.inl hxs)⟩

theorem except_mapM_eq_error {f : γ → Except ε β} {xs : List γ} {e : ε}
    (h : xs.mapM f = .error e) : ∃ x ∈ xs, f x = .error e := by
  obtain ⟨k, x, hx, he, -⟩ := except_mapM_eq_error_iff.1 h
  exact ⟨x, List.mem_of_getElem? hx, he⟩

@[simp] theorem pure_apply (b : β) (s : σ) : (pure b : Update ε σ β) s = .ok b s := rfl

@[simp] theorem get_apply (s : σ) : (get : Update ε σ σ) s = .ok s s := rfl

@[simp] theorem modify_apply (f : σ → σ) (s : σ) :
    (modify f : Update ε σ PUnit) s = .ok ⟨⟩ (f s) := rfl

@[simp] theorem throw_apply (e : ε) (s : σ) : (throw e : Update ε σ β) s = .error e s := rfl

theorem bind_apply (x : Update ε σ β) (f : β → Update ε σ γ) (s : σ) :
    (x >>= f) s = match x s with
      | .ok b s' => f b s'
      | .error e s' => .error e s' := rfl

theorem get_bind_apply (f : σ → Update ε σ γ) (s : σ) : (get >>= f) s = f s s := rfl

/-- A sequence returns exactly when both of its parts do, the second from the state that the
first one leaves. -/
theorem bind_eq_ok {x : Update ε σ β} {f : β → Update ε σ γ} {s s'' : σ} {c : γ} :
    (x >>= f) s = .ok c s'' ↔ ∃ b s', x s = .ok b s' ∧ f b s' = .ok c s'' := by
  rw [bind_apply]
  cases h : x s with
  | ok b s' =>
      constructor
      · intro hf
        exact ⟨b, s', rfl, hf⟩
      · rintro ⟨_, _, hx, hf⟩
        cases hx
        exact hf
  | error e s' => simp

@[simp] theorem lift_ok_bind (b : β) (f : β → Update ε σ γ) :
    ((liftM (Except.ok b : Except ε β) : Update ε σ β) >>= f) = f b := rfl

@[simp] theorem lift_error_bind_apply (e : ε) (f : β → Update ε σ γ) (s : σ) :
    ((liftM (Except.error e : Except ε β) : Update ε σ β) >>= f) s = .error e s := rfl

theorem lift_eq_ok {x : Except ε β} {b : β} {s s' : σ} :
    (liftM x : Update ε σ β) s = .ok b s' ↔ x = .ok b ∧ s' = s := by
  cases x with
  | ok c =>
      constructor
      · intro h
        cases h
        exact ⟨rfl, rfl⟩
      · rintro ⟨h, rfl⟩
        cases h
        rfl
  | error e =>
      constructor
      · intro h
        cases h
      · rintro ⟨h, -⟩
        cases h

theorem lift_eq_error {x : Except ε β} {e : ε} {s s' : σ} :
    (liftM x : Update ε σ β) s = .error e s' ↔ x = .error e ∧ s' = s := by
  cases x with
  | ok c =>
      constructor
      · intro h
        cases h
      · rintro ⟨h, -⟩
        cases h
  | error e' =>
      constructor
      · intro h
        cases h
        exact ⟨rfl, rfl⟩
      · rintro ⟨h, rfl⟩
        cases h
        rfl

theorem bind_eq_error {x : Update ε σ β} {f : β → Update ε σ γ} {s s'' : σ} {e : ε} :
    (x >>= f) s = .error e s'' ↔
      x s = .error e s'' ∨ ∃ b s', x s = .ok b s' ∧ f b s' = .error e s'' := by
  rw [bind_apply]
  cases h : x s with
  | ok b s' =>
      constructor
      · intro hf
        exact .inr ⟨b, s', rfl, hf⟩
      · rintro (hx | ⟨_, _, hx, hf⟩)
        · cases hx
        · cases hx
          exact hf
  | error e s' => simp

/-! ## Parts of the state -/

theorem onPart_eq_ok {get : σ → τ} {put : σ → τ → σ} {x : Update ε τ β} {s s' : σ} {b : β} :
    onPart get put x s = .ok b s' ↔ ∃ t, x (get s) = .ok b t ∧ s' = put s t := by
  unfold onPart
  cases x (get s) <;> simp [eq_comm, and_assoc]

theorem onFirst_eq_ok {x : Update ε σ β} {s s' : σ} {t t' : τ} {b : β} :
    (x.onFirst : Update ε (σ × τ) β) (s, t) = .ok b (s', t') ↔ x s = .ok b s' ∧ t' = t := by
  unfold onFirst onPart
  cases x s <;> simp [eq_comm, and_assoc]

theorem onFirst_eq_error {x : Update ε σ β} {s : σ} {t : τ} {st : σ × τ} {e : ε} :
    (x.onFirst : Update ε (σ × τ) β) (s, t) = .error e st ↔
      x s = .error e st.1 ∧ st.2 = t := by
  unfold onFirst onPart
  obtain ⟨s', t'⟩ := st
  cases x s <;> simp [eq_comm, and_assoc]

theorem beside_eq_ok {t : τ} {x : Update ε (σ × τ) β} {s s' : σ} {b : β} :
    x.beside t s = .ok b s' ↔ ∃ t', x (s, t) = .ok b (s', t') := by
  unfold beside
  cases h : x (s, t) with
  | ok b' st => simp [Prod.ext_iff]
  | error e st => simp

theorem beside_eq_error {t : τ} {x : Update ε (σ × τ) β} {s s' : σ} {e : ε} :
    x.beside t s = .error e s' ↔ ∃ t', x (s, t) = .error e (s', t') := by
  unfold beside
  cases h : x (s, t) with
  | ok b st => simp
  | error e' st => simp [Prod.ext_iff]

@[simp] theorem beside_onFirst (t : τ) (x : Update ε σ β) : (x.onFirst).beside t = x := by
  funext s
  unfold beside onFirst onPart
  cases x s <;> rfl

theorem beside_bind_apply (t : τ) (x : Update ε (σ × τ) β) (f : β → Update ε (σ × τ) γ) (s : σ) :
    (x >>= f).beside t s = match x (s, t) with
      | .ok b (s', t') => (f b).beside t' s'
      | .error e s' => .error e s'.1 := by
  unfold beside
  rw [bind_apply]
  cases x (s, t) <;> rfl

end Update

end TieredCalculus
