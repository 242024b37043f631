import TieredCalculus.Proofs.Derivative.Stored
import TieredCalculus.Proofs.Rational
import TieredCalculus.Proofs.Tensor.Entrywise

/-! # Shapes of stored values

Updates of a derivative check what they store against its declaration, and a sum of two stored
values keeps the base and the intrinsic block that both have. So whatever is stored after any
sequence of updates, failed ones included, has the shape that the declaration and the stored
count ask for. A failed update leaves no value of another shape behind: it keeps the value or
none.
-/

namespace TieredCalculus

namespace Tensor

variable {α : Type} [Zero α]

theorem zipWith_tiers {f : α → α → α} {s t r : Tensor α} {a b block : Shape}
    (h : zipWith f s t = .ok r) (hbase : s.base = t.base) (hs : s.middle = a ++ block)
    (ht : t.middle = b ++ block) : r.base = t.base ∧ ∃ tier, r.middle = tier ++ block := by
  obtain ⟨batch, middle, hjoin, v⟩ := (zipWith_eq_ok hbase).1 h
  have hmiddle : Shape.broadcast (a ++ block) (b ++ block) = .ok middle := by
    rw [← hs, ← ht, ← Shape.broadcastAll_pair]
    exact hjoin.middle
  obtain ⟨tier, -, rfl⟩ := (Shape.broadcast_append_stretches (.refl block)).1 hmiddle
  exact ⟨v.base_eq, tier, v.middle_eq⟩

end Tensor

namespace Derivative

variable {α : Type} {n : Nat}

/-! ## Updates -/

theorem assign_apply [Zero α] (d : Derivative α n) (t : Tensor α) :
    assign t d = match d.withValue t with
      | .ok d' => .ok () d'
      | .error e => .error e d := by
  unfold assign
  rw [Update.get_bind_apply]
  cases d.withValue t with
  | error e => rfl
  | ok d' => rfl

/-- Accumulation checks the value as assignment does; where there is a stored one, it is lost
if the sum fails. -/
theorem accumulate_apply [Zero α] [Add α] (d : Derivative α n) (t : Tensor α) :
    accumulate t d = match d.checkBase t, d.expandIntrinsic t with
      | .error e, _ => .error e d
      | .ok _, .error e => .error e d
      | .ok _, .ok w => match d.value with
        | none => .ok () { d with value := some w }
        | some v => match v.add w with
          | .error e => .error e d.clear
          | .ok r => .ok () { d with value := some r } := by
  unfold accumulate
  rw [Update.get_bind_apply]
  cases d.checkBase t with
  | error e => rfl
  | ok _ =>
    rw [Update.lift_ok_bind]
    cases d.expandIntrinsic t with
    | error e => rfl
    | ok w =>
      rw [Update.lift_ok_bind, Update.bind_apply, Update.modify_apply]
      dsimp only
      cases d.value with
      | none => rfl
      | some v =>
        dsimp only
        cases v.add w with
        | error e => rfl
        | ok r => rfl

theorem accumulateDerivative_apply [Zero α] [Add α] [Scalar α] (d other : Derivative α n) :
    accumulateDerivative other d =
      if d.isDefined && d.intrinsic ≠ other.intrinsic then
        .error (.invalidDerivative d.name (.intrinsicMismatch other.intrinsic d.intrinsic)) d
      else match other.tensor with
        | .error e => .error e { d with intrinsic := other.intrinsic }
        | .ok t => accumulate t { d with intrinsic := other.intrinsic } := by
  unfold accumulateDerivative
  rw [Update.get_bind_apply]
  by_cases h : (d.isDefined && d.intrinsic ≠ other.intrinsic) = true
  · rw [if_pos h, if_pos h]
    rfl
  · rw [if_neg h, if_neg h]
    cases other.tensor with
    | error e => rfl
    | ok t => rfl

/-! ## The invariant -/

theorem Shaped.add [Zero α] [Add α] {d : Derivative α n} {v w r : Tensor α} (hv : d.Shaped v)
    (hw : d.Shaped w) (hr : v.add w = .ok r) : d.Shaped r := by
  obtain ⟨tier, htier⟩ := hv.middle_eq
  obtain ⟨tier', htier'⟩ := hw.middle_eq
  obtain ⟨hbase, hmiddle⟩ :=
    Tensor.zipWith_tiers hr (hv.base_eq.trans hw.base_eq.symm) htier htier'
  exact ⟨hv.count, hbase.trans hw.base_eq, hmiddle⟩

/-- What declaring and updating a derivative keep: the declaration, and the shape of whatever is
stored. Where nothing is stored the count is free. -/
structure Sound (y : Quantity) (xs : Vector Quantity n) (d : Derivative α n) : Prop where
  target_eq : d.target = y
  arguments_eq : d.arguments = xs
  ranked : d.Ranked
  shaped : ∀ {t}, d.value = some t → d.Shaped t

section Sound

variable {y : Quantity} {xs : Vector Quantity n} {d d' : Derivative α n} {t w : Tensor α}

theorem sound_of_declare {m : Nat} (h : declare m y xs = .ok d) : Sound y xs d := by
  obtain ⟨hcheck, rfl⟩ := declare_eq_ok.1 h
  exact ⟨rfl, rfl, (checkDeclaration_eq_ok_iff.1 hcheck).1, fun ht => nomatch ht⟩

theorem Sound.store (h : Sound y xs d) (hw : d.Shaped w) :
    Sound y xs { d with value := some w } := by
  refine ⟨h.target_eq, h.arguments_eq, h.ranked, fun ht => ?_⟩
  cases ht
  exact ⟨hw.count, hw.base_eq, hw.middle_eq⟩

theorem Sound.clear (h : Sound y xs d) : Sound y xs d.clear :=
  ⟨h.target_eq, h.arguments_eq, h.ranked, fun ht => nomatch ht⟩

theorem Sound.recount (h : Sound y xs d) (hnone : d.value = none) (m : Nat) :
    Sound y xs { d with intrinsic := m } := by
  refine ⟨h.target_eq, h.arguments_eq, h.ranked, fun ht => ?_⟩
  change d.value = some _ at ht
  rw [hnone] at ht
  cases ht

variable [Zero α]

theorem Sound.withValue (h : Sound y xs d) (hd : d.withValue t = .ok d') : Sound y xs d' := by
  obtain ⟨hbase, w, hw, rfl⟩ := withValue_eq_ok.1 hd
  exact h.store (h.ranked.shaped_of_expandIntrinsic hbase hw)

theorem Sound.assign (h : Sound y xs d) (t : Tensor α) :
    Sound y xs ((assign t).outcome d).2 := by
  unfold Update.outcome
  rw [assign_apply]
  cases hd : d.withValue t with
  | error e => exact h
  | ok d' => exact h.withValue hd

theorem Sound.accumulate [Add α] (h : Sound y xs d) (t : Tensor α) :
    Sound y xs ((accumulate t).outcome d).2 := by
  unfold Update.outcome
  rw [accumulate_apply]
  by_cases hbase : t.base = d.base
  · have hcheck : d.checkBase t = .ok () := if_pos hbase
    rw [hcheck]
    cases hw : d.expandIntrinsic t with
    | error e => exact h
    | ok w =>
      have hshaped := h.ranked.shaped_of_expandIntrinsic hbase hw
      dsimp only
      cases hv : d.value with
      | none => exact h.store hshaped
      | some v =>
        dsimp only
        cases hr : v.add w with
        | error e => exact h.clear
        | ok r => exact h.store ((h.shaped hv).add hshaped hr)
  · have hcheck : d.checkBase t = .error (.baseShapeMismatch d.name d.base t.base) :=
      if_neg hbase
    rw [hcheck]
    exact h

theorem Sound.accumulateDerivative [Add α] [Scalar α] (h : Sound y xs d)
    (other : Derivative α n) : Sound y xs ((accumulateDerivative other).outcome d).2 := by
  unfold Update.outcome
  rw [accumulateDerivative_apply]
  by_cases hmismatch : (d.isDefined && d.intrinsic ≠ other.intrinsic) = true
  · rw [if_pos hmismatch]
    exact h
  · have hcount : Sound y xs { d with intrinsic := other.intrinsic } := by
      cases hvalue : d.value with
      | none => exact hvalue ▸ h.recount hvalue other.intrinsic
      | some v =>
        have heq : d.intrinsic = other.intrinsic := by
          simpa [isDefined, hvalue] using hmismatch
        rw [← heq, ← hvalue]
        exact h
    rw [if_neg hmismatch]
    cases other.tensor with
    | error e => exact hcount
    | ok t => exact hcount.accumulate t

end Sound

/-! ## Sequences of updates -/

/-- A call that changes a derivative. -/
inductive Call (α : Type) (n : Nat) where
  | assign (t : Tensor α)
  | accumulate (t : Tensor α)
  | accumulateDerivative (other : Derivative α n)
  | clear

section Call

variable [Zero α] [Add α] [Scalar α]

def Call.update : Call α n → Update TensorError (Derivative α n) Unit
  | .assign t => Derivative.assign t
  | .accumulate t => Derivative.accumulate t
  | .accumulateDerivative other => Derivative.accumulateDerivative other
  | .clear => modify Derivative.clear

def after (d : Derivative α n) (calls : List (Call α n)) : Derivative α n :=
  calls.foldl (fun d call => (call.update.outcome d).2) d

theorem Sound.call {y : Quantity} {xs : Vector Quantity n} {d : Derivative α n}
    (h : Sound y xs d) (call : Call α n) : Sound y xs (call.update.outcome d).2 := by
  cases call with
  | assign t => exact h.assign t
  | accumulate t => exact h.accumulate t
  | accumulateDerivative other => exact h.accumulateDerivative other
  | clear => exact h.clear

theorem Sound.after {y : Quantity} {xs : Vector Quantity n} {d : Derivative α n}
    (h : Sound y xs d) (calls : List (Call α n)) : Sound y xs (d.after calls) := by
  induction calls generalizing d with
  | nil => exact h
  | cons call calls ih => exact ih (h.call call)

/-- After any calls on a declared derivative, failed ones included, a stored value has the base
of the target and of all arguments, its count is at most that of the target or the total, and
its intermediate shape ends in the intrinsic shapes of all participants in the one case and in
that of the target in the other. -/
theorem after_shaped {m : Nat} {y : Quantity} {xs : Vector Quantity n} {d : Derivative α n}
    (h : declare m y xs = .ok d) (calls : List (Call α n)) {t : Tensor α}
    (ht : (d.after calls).value = some t) :
    ((d.after calls).intrinsic ≤ y.intrinsic ∨
        (d.after calls).intrinsic = totalIntrinsic y xs.toList) ∧
      t.base = y.base ++ xs.toList.flatMap (·.base) ∧
      ∃ tier, t.middle = tier ++
        if (d.after calls).intrinsic = totalIntrinsic y xs.toList then
          y.intrinsicShape ++ xs.toList.flatMap (·.intrinsicShape)
        else y.intrinsicShape := by
  have hsound := (sound_of_declare h).after calls
  obtain ⟨hcount, hbase, hmiddle⟩ := hsound.shaped ht
  obtain ⟨rfl, rfl, -, -⟩ := hsound
  exact ⟨hcount, hbase, hmiddle⟩

end Call

def rowDeclaration : Derivative ℚ 1 :=
  ⟨1, ⟨"y", [5, 2], 1, []⟩, #v[⟨"x", [5, 2], 1, []⟩], none⟩

/-- A diagonal value, a sum that fails and leaves none, and a dense value of other quantities. -/
def replacedCalls : List (Call ℚ 1) :=
  [.assign ⟨[3], [2], [], #[1, 1, 2, 3, 5, 8], rfl⟩,
    .accumulate ⟨[2], [2], [], #[4, 3, 2, 1], rfl⟩,
    .accumulateDerivative ⟨2, ⟨"v", [2], 1, []⟩, #v[⟨"u", [2], 1, []⟩],
      some ⟨[], [2, 2], [], #[7, 0, 0, 7], rfl⟩⟩]

theorem rowDeclaration_shaped : ∃ t, declare 1 rowDeclaration.target rowDeclaration.arguments =
    .ok rowDeclaration ∧ (rowDeclaration.after replacedCalls).value = some t ∧
      (rowDeclaration.after replacedCalls).intrinsic = 2 ∧ ∃ tier, t.middle = tier ++ [2, 2] := by
  have hdeclare : declare 1 rowDeclaration.target rowDeclaration.arguments =
      .ok rowDeclaration := rfl
  have hstored : (rowDeclaration.after replacedCalls).value.map (·.middle) = some [2, 2] := by
    decide +kernel
  have hcount : (rowDeclaration.after replacedCalls).intrinsic = 2 := by decide +kernel
  obtain ⟨t, ht, -⟩ := Option.map_eq_some_iff.1 hstored
  obtain ⟨-, -, hmiddle⟩ := after_shaped hdeclare replacedCalls ht
  rw [hcount] at hmiddle
  exact ⟨t, hdeclare, ht, hcount, hmiddle⟩

end Derivative

end TieredCalculus
