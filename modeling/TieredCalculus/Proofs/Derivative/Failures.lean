import TieredCalculus.Proofs.Derivative.Shaped

/-! # Failed updates of a derivative

Assignment stores nothing before all of its checks have passed, so an assignment that fails
leaves the derivative as it was. The other updates change it between their checks. A sum that
fails has already taken the stored value out, and the count of another derivative is taken over
before the other derivative is read.
-/

namespace TieredCalculus.Derivative

section Failures

variable {α : Type} [Zero α] {n : Nat} {d d' other : Derivative α n} {t : Tensor α}
  {e : TensorError}

theorem assign_eq_error : assign t d = .error e d' ↔ d.withValue t = .error e ∧ d' = d := by
  rw [assign_apply]
  cases d.withValue t <;> simp [eq_comm]

/-- An accumulation fails where an assignment does, without a change, or in the sum, when the
stored value is gone. -/
theorem accumulate_eq_error [Add α] : accumulate t d = .error e d' ↔
    d.withValue t = .error e ∧ d' = d ∨
      ∃ v w, d.value = some v ∧ d.withValue t = .ok { d with value := some w } ∧
        v.add w = .error e ∧ d' = d.clear := by
  rw [accumulate_apply, withValue]
  cases d.checkBase t with
  | error e' => simp [bind, Except.bind, eq_comm]
  | ok _ =>
    cases d.expandIntrinsic t with
    | error e' => simp [bind, Except.bind, eq_comm]
    | ok w =>
      cases hv : d.value with
      | none => simp [bind, Except.bind, pure, Except.pure]
      | some v => cases hr : v.add w <;> simp [bind, Except.bind, pure, Except.pure, hr, eq_comm]

theorem accumulateDerivative_eq_error [Add α] [Scalar α]
    (h : accumulateDerivative other d = .error e d') :
    d.isDefined = true ∧ d.intrinsic ≠ other.intrinsic ∧ d' = d ∨
      (d.isDefined = true → d.intrinsic = other.intrinsic) ∧
        (other.tensor = .error e ∧ d' = { d with intrinsic := other.intrinsic } ∨
          ∃ t, other.tensor = .ok t ∧
            accumulate t { d with intrinsic := other.intrinsic } = .error e d') := by
  rw [accumulateDerivative_apply] at h
  by_cases hmismatch : (d.isDefined && d.intrinsic ≠ other.intrinsic) = true
  · rw [if_pos hmismatch] at h
    cases h
    left
    simpa using hmismatch
  · rw [if_neg hmismatch] at h
    right
    refine ⟨by simpa using hmismatch, ?_⟩
    cases hother : other.tensor with
    | error e' =>
      simp only [hother] at h
      cases h
      exact .inl ⟨rfl, rfl⟩
    | ok t =>
      simp only [hother] at h
      exact .inr ⟨t, rfl, h⟩

omit [Zero α] in
theorem clear_ne_self {v : Tensor α} (h : d.value = some v) : d.clear ≠ d := by
  intro heq
  rw [← heq] at h
  cases h

omit [Zero α] in
theorem recount_eq_self_iff {m : Nat} : { d with intrinsic := m } = d ↔ d.intrinsic = m := by
  cases d
  simp [eq_comm]

omit [Zero α] in
theorem recount_eq_self_or {m : Nat} (h : d.isDefined = true → d.intrinsic = m) :
    { d with intrinsic := m } = d ∨
      { d with intrinsic := m } = { d with intrinsic := m, value := none } := by
  cases hvalue : d.value with
  | none => exact .inr rfl
  | some v => exact .inl (hvalue ▸ recount_eq_self_iff.2 (h (by simp [isDefined, hvalue])))

/-- A failed assignment leaves the derivative as it was. A failed accumulation does exactly where
assigning the value fails; where its sum fails, no value is left. A failed accumulation of another
derivative does where the counts of two values differ, or where they agree and the other value is
missing, not finite or refused; elsewhere no value is left, and the count is the other one. -/
theorem failed_update_untouched_iff [Add α] [Scalar α] (d other d' : Derivative α n)
    (t : Tensor α) (e : TensorError) :
    ((assign t).outcome d = (.error e, d') → d' = d) ∧
    ((accumulate t).outcome d = (.error e, d') →
      (d' = d ↔ d.withValue t = .error e) ∧ (d' = d ∨ d' = d.clear)) ∧
    ((accumulateDerivative other).outcome d = (.error e, d') →
      (d' = d ↔ d.isDefined = true ∧ d.intrinsic ≠ other.intrinsic ∨
        d.intrinsic = other.intrinsic ∧
          (other.tensor = .error e ∨ ∃ t, other.tensor = .ok t ∧ d.withValue t = .error e)) ∧
      (d' = d ∨ d' = { d with intrinsic := other.intrinsic, value := none })) := by
  rw [Update.outcome_eq_error, Update.outcome_eq_error, Update.outcome_eq_error]
  refine ⟨fun h => (assign_eq_error.1 h).2, fun h => ?_, fun h => ?_⟩
  · rcases accumulate_eq_error.1 h with ⟨hvalue, rfl⟩ | ⟨v, w, hv, hvalue, -, rfl⟩
    · simp [hvalue]
    · simp [hvalue, clear_ne_self hv]
  · rcases accumulateDerivative_eq_error h with ⟨hdefined, hcount, rfl⟩ | ⟨hcount, hrest⟩
    · simp [hdefined, hcount]
    · have hkept : (d.intrinsic = other.intrinsic →
          other.tensor = .error e ∨ ∃ t, other.tensor = .ok t ∧ d.withValue t = .error e) →
          ({ d with intrinsic := other.intrinsic } = d ↔
            d.isDefined = true ∧ d.intrinsic ≠ other.intrinsic ∨
              d.intrinsic = other.intrinsic ∧ (other.tensor = .error e ∨
                ∃ t, other.tensor = .ok t ∧ d.withValue t = .error e)) := by
        intro hread
        rw [recount_eq_self_iff]
        constructor
        · exact fun heq => .inr ⟨heq, hread heq⟩
        · rintro (⟨hdefined, hne⟩ | ⟨heq, -⟩)
          · exact absurd (hcount hdefined) hne
          · exact heq
      rcases hrest with ⟨hother, rfl⟩ | ⟨t', hother, hacc⟩
      · exact ⟨hkept fun _ => .inl hother, recount_eq_self_or hcount⟩
      · rcases accumulate_eq_error.1 hacc with ⟨hvalue, rfl⟩ | ⟨v, w, hv, hvalue, -, rfl⟩
        · refine ⟨hkept fun heq => .inr ⟨t', hother, ?_⟩, recount_eq_self_or hcount⟩
          rwa [recount_eq_self_iff.2 heq] at hvalue
        · change d.value = some v at hv
          have heq : d.intrinsic = other.intrinsic := hcount (by simp [isDefined, hv])
          rw [recount_eq_self_iff.2 heq] at hvalue ⊢
          refine ⟨iff_of_false (clear_ne_self hv) ?_, .inr ?_⟩
          · simp [heq, hother, hvalue]
          · rw [clear, heq]

end Failures

def pairedValue : Derivative ℚ 1 :=
  ⟨0, ⟨"y", [], 0, []⟩, #v[⟨"x", [], 0, []⟩], some ⟨[2], [], [], #[8, 9], rfl⟩⟩

def vectorValue : Tensor ℚ := ⟨[], [], [1], #[7], rfl⟩

theorem pairedValue_untouched :
    ∃ d₁ d₂ d₃ e₁ e₂ e₃,
      (assign vectorValue).outcome pairedValue = (.error e₁, d₁) ∧
      (accumulate vectorValue).outcome pairedValue = (.error e₂, d₂) ∧
      (accumulateDerivative { pairedValue with intrinsic := 1 }).outcome pairedValue =
        (.error e₃, d₃) ∧
      d₁ = pairedValue ∧ d₂ = pairedValue ∧ d₃ = pairedValue := by
  have hassign : (assign vectorValue).outcome pairedValue =
      (.error (.baseShapeMismatch pairedValue.name [] [1]), pairedValue) := rfl
  have haccumulate : (accumulate vectorValue).outcome pairedValue =
      (.error (.baseShapeMismatch pairedValue.name [] [1]), pairedValue) := rfl
  have hother : (accumulateDerivative { pairedValue with intrinsic := 1 }).outcome pairedValue =
      (.error (.invalidDerivative pairedValue.name (.intrinsicMismatch 1 0)), pairedValue) := rfl
  refine ⟨_, _, _, _, _, _, hassign, haccumulate, hother, ?_, ?_, ?_⟩
  · exact (failed_update_untouched_iff pairedValue pairedValue _ vectorValue _).1 hassign
  · exact ((failed_update_untouched_iff pairedValue pairedValue _ vectorValue _).2.1
      haccumulate).1.2 rfl
  · exact ((failed_update_untouched_iff pairedValue _ _ vectorValue _).2.2 hother).1.2
      (.inl ⟨rfl, by decide⟩)

/-- A value for a batch of three cannot be added to one for a batch of two, and the sum that fails
loses the one that was there. -/
theorem pairedValue_lost :
    (∃ d₀, declare 0 pairedValue.target pairedValue.arguments = .ok d₀ ∧
      (assign (⟨[2], [], [], #[8, 9], rfl⟩ : Tensor ℚ)).outcome d₀ = (.ok (), pairedValue)) ∧
    ∃ e, (accumulate ⟨[3], [], [], #[1, 4, 9], rfl⟩).outcome pairedValue =
      (.error e, pairedValue.clear) ∧ pairedValue.clear ≠ pairedValue := by
  refine ⟨⟨_, rfl, rfl⟩, .notBroadcastable [2] [3], rfl, ?_⟩
  exact clear_ne_self rfl

end TieredCalculus.Derivative
