import TieredCalculus.Derivative.Compose
import TieredCalculus.Proofs.Derivative.Shaped

/-! # Derivatives that can be reached

A derivative is declared and then changed by updates, which may fail, or it is promoted or
composed from others. Whatever its history, the value that it stores ends in the block of its
form.
-/

namespace TieredCalculus

namespace Derivative

variable {α : Type} [Zero α] {d d' outer inner : Derivative α 1} {t : Tensor α} {k : Nat}

/-! ## Promotion -/

def promoted {α : Type} (d : Derivative α 1) (k : Nat) : Derivative α 1 :=
  ⟨d.intrinsic + k, d.target.promote k, #v[d.argument.promote k], none⟩

theorem promote_eq_ok [Scalar α] (h : d.promote k = .ok d') :
    ∃ t, d.tensor = .ok t ∧ d.intrinsicShape?.getD [] = d.target.intrinsicShape ∧
      d.target.intrinsic + k ≤ d.target.middle.length ∧
      d.argument.intrinsic + k ≤ d.argument.middle.length ∧
      (d.promoted k).withValue t = .ok d' := by
  have harguments : d.arguments.map (·.promote k) = #v[d.argument.promote k] := by
    apply Vector.ext
    intro i hi
    obtain rfl : i = 0 := by omega
    rw [Vector.getElem_map]
    rfl
  have hlist : (#v[d.argument.promote k] : Vector Quantity 1).toList =
    [d.argument.promote k] := rfl
  obtain ⟨t, ht, h₁⟩ := Update.except_bind_eq_ok.1 h
  rw [harguments] at h₁
  dsimp only at h₁
  rw [hlist] at h₁
  split at h₁
  · cases h₁
  · next hown =>
    cases hcheck : checkDeclaration (d.intrinsic + k) (d.target.promote k)
        [d.argument.promote k] with
    | error fault =>
      rw [hcheck] at h₁
      cases h₁
    | ok _ =>
      rw [hcheck] at h₁
      obtain ⟨hy, hx, -⟩ := checkDeclaration_eq_ok.1 hcheck
      exact ⟨t, ht, not_not.1 hown, hy, hx, h₁⟩

/-! ## Composition -/

theorem composeAligned_eq_ok [Add α] [Mul α] [BEq α] [Scalar α]
    (h : outer.composeAligned inner = .ok d) :
    ∃ s t, outer.tensor = .ok s ∧ inner.tensor = .ok t ∧ ∃ m y x result w,
      declareFirst m y x = .ok result ∧ result.withValue w = .ok d := by
  obtain ⟨_, -, h₁⟩ := Update.except_bind_eq_ok.1 h
  obtain ⟨left, hleft, h₂⟩ := Update.except_bind_eq_ok.1 h₁
  obtain ⟨right, hright, h₃⟩ := Update.except_bind_eq_ok.1 h₂
  obtain ⟨product, -, h₄⟩ := Update.except_bind_eq_ok.1 h₃
  obtain ⟨summed, -, h₅⟩ := Update.except_bind_eq_ok.1 h₄
  obtain ⟨result, hresult, h₆⟩ := Update.except_bind_eq_ok.1 h₅
  obtain ⟨w, -, h₇⟩ := Update.except_bind_eq_ok.1 h₆
  obtain ⟨s, hs, -⟩ := Update.except_bind_eq_ok.1 hleft
  obtain ⟨t, ht, -⟩ := Update.except_bind_eq_ok.1 hright
  exact ⟨s, t, hs, ht, _, _, _, result, w, hresult, h₇⟩

theorem compose_eq_ok [Add α] [Mul α] [BEq α] [Scalar α] (h : outer.compose inner = .ok d) :
    ∃ outer' inner', outer'.composeAligned inner' = .ok d ∧
      (outer' = outer ∨ ∃ k, outer.promote k = .ok outer') ∧
      (inner' = inner ∨ ∃ k, inner.promote k = .ok inner') := by
  unfold compose at h
  dsimp only at h
  split at h
  · obtain ⟨inner', hinner, haligned⟩ := Update.except_bind_eq_ok.1 h
    exact ⟨outer, inner', haligned, .inl rfl, .inr ⟨_, hinner⟩⟩
  · split at h
    · obtain ⟨outer', houter, haligned⟩ := Update.except_bind_eq_ok.1 h
      exact ⟨outer', inner, haligned, .inr ⟨_, houter⟩, .inl rfl⟩
    · exact ⟨outer, inner, h, .inl rfl, .inl rfl⟩

theorem tensors_of_compose [Add α] [Mul α] [BEq α] [Scalar α] (h : outer.compose inner = .ok d) :
    ∃ s t, outer.tensor = .ok s ∧ inner.tensor = .ok t := by
  have hown : ∀ {d d' : Derivative α 1} {t : Tensor α},
      (d' = d ∨ ∃ k, d.promote k = .ok d') → d'.tensor = .ok t → ∃ s, d.tensor = .ok s := by
    rintro d d' t (rfl | ⟨k, hpromote⟩) ht
    · exact ⟨t, ht⟩
    · obtain ⟨s, hs, -⟩ := promote_eq_ok hpromote
      exact ⟨s, hs⟩
  obtain ⟨outer', inner', haligned, houter, hinner⟩ := compose_eq_ok h
  obtain ⟨s', t', hs', ht', -⟩ := composeAligned_eq_ok haligned
  obtain ⟨s, hs⟩ := hown houter hs'
  obtain ⟨t, ht⟩ := hown hinner ht'
  exact ⟨s, t, hs, ht⟩

/-! ## Stored values -/

omit [Zero α] in
theorem value_of_tensor [Scalar α] (h : d.tensor = .ok t) : d.value = some t := by
  unfold tensor at h
  split at h
  · cases h
  · next v hv =>
    split at h
    · cases h
      exact hv
    · cases h

/-- No quantity has more intrinsic dimensions than intermediate ones, and a stored value ends
in the block of the form. -/
structure WellFormed (d : Derivative α 1) : Prop where
  target_le : d.target.intrinsic ≤ d.target.middle.length
  argument_le : d.argument.intrinsic ≤ d.argument.middle.length
  keeps : ∀ {t}, d.value = some t → ∃ tier, d.Keeps t tier

omit [Zero α] in
theorem wellFormed_of_sound {y : Quantity} {xs : Vector Quantity 1} (h : Sound y xs d) :
    d.WellFormed := by
  have hranks := h.ranked
  rw [Ranked, arguments_eq] at hranks
  exact ⟨hranks _ (by simp), hranks _ (by simp), fun ht => (h.shaped ht).exists_keeps h.ranked ht⟩

omit [Zero α] in
theorem WellFormed.sound (h : d.WellFormed) : Sound d.target d.arguments d := by
  refine ⟨rfl, rfl, ?_, fun ht => ?_⟩
  · rw [Ranked, arguments_eq]
    simpa using ⟨h.target_le, h.argument_le⟩
  · obtain ⟨tier, hkeeps⟩ := h.keeps ht
    exact hkeeps.shaped

omit [Zero α] in
theorem wellFormed_of_declareFirst {m : Nat} {y x : Quantity}
    (h : declareFirst m y x = .ok d) : d.WellFormed :=
  wellFormed_of_sound (sound_of_declare h)

omit [Zero α] in
theorem WellFormed.clear (h : d.WellFormed) : d.clear.WellFormed :=
  wellFormed_of_sound h.sound.clear

theorem WellFormed.withValue (h : d.WellFormed) (hd : d.withValue t = .ok d') :
    d'.WellFormed :=
  wellFormed_of_sound (h.sound.withValue hd)

theorem WellFormed.assign (h : d.WellFormed) (t : Tensor α) :
    ((assign t).outcome d).2.WellFormed :=
  wellFormed_of_sound (h.sound.assign t)

theorem WellFormed.accumulate [Add α] (h : d.WellFormed) (t : Tensor α) :
    ((accumulate t).outcome d).2.WellFormed :=
  wellFormed_of_sound (h.sound.accumulate t)

theorem WellFormed.accumulateDerivative [Add α] [Scalar α] (h : d.WellFormed)
    (other : Derivative α 1) : ((accumulateDerivative other).outcome d).2.WellFormed :=
  wellFormed_of_sound (h.sound.accumulateDerivative other)

theorem wellFormed_of_promote [Scalar α] (h : d.promote k = .ok d') : d'.WellFormed := by
  obtain ⟨t, -, -, hy, hx, hvalue⟩ := promote_eq_ok h
  have hdeclared : (d.promoted k).WellFormed := ⟨hy, hx, fun ht => nomatch ht⟩
  exact hdeclared.withValue hvalue

theorem wellFormed_of_compose [Add α] [Mul α] [BEq α] [Scalar α]
    (h : outer.compose inner = .ok d) : d.WellFormed := by
  obtain ⟨outer', inner', haligned, -, -⟩ := compose_eq_ok h
  obtain ⟨-, -, -, -, m, y, x, result, w, hresult, hvalue⟩ := composeAligned_eq_ok haligned
  exact (wellFormed_of_declareFirst hresult).withValue hvalue

/-! ## Histories -/

/-- The derivatives that can be reached: declared ones, what an update leaves behind whether it
fails or not, and the results of promotion and of the chain rule. -/
inductive Reached [Add α] [Mul α] [BEq α] [Scalar α] : Derivative α 1 → Prop where
  | declared {m : Nat} {y x : Quantity} {d : Derivative α 1} :
      declareFirst m y x = .ok d → Reached d
  | assigned {d : Derivative α 1} (t : Tensor α) :
      Reached d → Reached ((assign t).outcome d).2
  | accumulated {d : Derivative α 1} (t : Tensor α) :
      Reached d → Reached ((accumulate t).outcome d).2
  | accumulatedDerivative {d other : Derivative α 1} :
      Reached d → Reached other → Reached ((accumulateDerivative other).outcome d).2
  | cleared {d : Derivative α 1} : Reached d → Reached d.clear
  | promoted {d d' : Derivative α 1} {k : Nat} :
      Reached d → d.promote k = .ok d' → Reached d'
  | composed {outer inner d : Derivative α 1} :
      Reached outer → Reached inner → outer.compose inner = .ok d → Reached d

section Reached

variable [Add α] [Mul α] [BEq α] [Scalar α]

theorem Reached.wellFormed (h : d.Reached) : d.WellFormed := by
  induction h with
  | declared h => exact wellFormed_of_declareFirst h
  | assigned t _ ih => exact ih.assign t
  | accumulated t _ ih => exact ih.accumulate t
  | accumulatedDerivative _ _ ih _ => exact ih.accumulateDerivative _
  | cleared _ ih => exact ih.clear
  | promoted _ h _ => exact wellFormed_of_promote h
  | composed _ _ h _ _ => exact wellFormed_of_compose h

/-- The value of a reached derivative ends in the block of its form. -/
theorem Reached.exists_keeps (h : d.Reached) (ht : d.tensor = .ok t) : ∃ tier, d.Keeps t tier :=
  h.wellFormed.keeps (value_of_tensor ht)

end Reached

end Derivative

end TieredCalculus
