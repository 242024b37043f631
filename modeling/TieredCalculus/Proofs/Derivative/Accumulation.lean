import TieredCalculus.Proofs.Derivative.Expansion
import TieredCalculus.Proofs.Derivative.Shaped

/-! # Accumulated derivatives

Accumulating a derivative checks and expands its stored value again. A block of full count, in
either form, comes back unchanged. A block of fewer counted dimensions has been expanded to the
intrinsic shape of the target, is read by the count once more, and gets the uncounted dimensions
a second time.
-/

namespace TieredCalculus.Derivative

open Tensor

variable {α : Type} [Zero α] {n : Nat} {d : Derivative α n} {t v w : Tensor α}

/-! ## Expanding again -/

theorem expandIntrinsic_congr {e : Derivative α n} (hcount : d.intrinsic = e.intrinsic)
    (htarget : d.target = e.target) (harguments : d.arguments = e.arguments) :
    d.expandIntrinsic t = e.expandIntrinsic t := by
  obtain ⟨m, y, xs, _⟩ := d
  obtain ⟨_, _, _, _⟩ := e
  cases hcount
  cases htarget
  cases harguments
  rfl

/-- The second value is the first with the uncounted dimensions once more, as extrinsic
dimensions in which it is constant. -/
def Repeats (d : Derivative α n) (v w : Tensor α) : Prop :=
  ∃ tier, v.middle = tier ++ d.target.intrinsicShape ∧
    w.View v.batch (tier ++ (d.uncounted ++ d.target.intrinsicShape)) v.base fun b m k =>
      v.cell b (m.take tier.length ++ m.drop (tier.length + d.uncounted.length)) k

omit [Zero α] in
theorem counted_expandsTo (d : Derivative α n) :
    d.counted.expandsTo d.target.intrinsicShape = true :=
  Shape.expandsTo_iff.2 ⟨d.uncounted, d.counted, (uncounted_append_counted d).symm, .refl _⟩

theorem Ranked.expandIntrinsic_repeats (hd : d.Ranked) (hm : d.intrinsic ≠ d.total)
    (h : d.expandIntrinsic t = .ok v) :
    ∃ w, d.expandIntrinsic v = .ok w ∧ d.Repeats v w := by
  obtain ⟨hle, tier, hmiddle, hconst⟩ := hd.expandIntrinsic_constant hm h
  have hrank := length_intrinsicShape (List.forall_mem_cons.1 hd).1
  have hcounted := length_counted hrank hle
  have hsplit : v.middle = tier ++ d.uncounted ++ d.counted := by
    rw [hmiddle, List.append_assoc, uncounted_append_counted]
  have hne : d.counted ≠ d.denseShape := fun heq =>
    hm (hcounted.symm.trans ((congrArg List.length heq).trans hd.length_denseShape))
  obtain ⟨w, hw, vw⟩ := expandIntrinsic_own hsplit hcounted.symm hne (counted_expandsTo d)
  rw [List.append_assoc] at vw
  refine ⟨w, hw, tier, hmiddle, vw.congr fun {b m k} hb hin hk => ?_⟩
  obtain ⟨e, m', rfl, he, hin'⟩ := Shape.exists_append_of_inBounds hin
  rw [← uncounted_append_counted d] at hin'
  obtain ⟨u, m'', rfl, hu, hin''⟩ := Shape.exists_append_of_inBounds hin'
  obtain ⟨u', r, rfl, hu', hr⟩ := Shape.exists_append_of_inBounds hin''
  -- the value is read at `u`, which stands for the dimensions in front, and not at `u'`
  have hfront := (Shape.inBounds_append he hu).length_eq
  have hproject : d.counted.project (u' ++ r) = r := by
    rw [Shape.project_append_left hr.length_eq, Shape.clamp_of_inBounds hr]
  have hcountedLast : (e ++ (u ++ (u' ++ r))).take (tier ++ d.uncounted).length ++
      d.counted.project ((e ++ (u ++ (u' ++ r))).drop (tier ++ d.uncounted).length) =
        e ++ (u ++ r) := by
    rw [← List.append_assoc e, List.take_left' hfront, List.drop_left' hfront, hproject,
      List.append_assoc]
  have hlast : (e ++ (u ++ (u' ++ r))).take tier.length ++
      (e ++ (u ++ (u' ++ r))).drop (tier.length + d.uncounted.length) = e ++ (u' ++ r) := by
    rw [List.take_left' he.length_eq, ← List.append_assoc e,
      List.drop_left' (hfront.trans List.length_append)]
  rw [hcountedLast, hlast]
  exact hconst hb he hu hu' hr hk

theorem Repeats.eq_self (h : d.Repeats v w) (hm : d.intrinsic = d.target.intrinsic) : w = v := by
  obtain ⟨tier, hmiddle, vw⟩ := h
  have hnone : d.uncounted = [] := by
    rw [uncounted, hm, Nat.sub_self, List.take_zero]
  rw [hnone, List.nil_append, ← hmiddle] at vw
  refine vw.unique (v.view_self.congr fun _ _ _ => ?_)
  rw [List.length_nil, Nat.add_zero, List.take_append_drop]

theorem Repeats.ne_self (h : d.Repeats v w) (hd : d.Ranked)
    (hm : d.intrinsic < d.target.intrinsic) : w ≠ v := by
  obtain ⟨tier, hmiddle, vw⟩ := h
  have hrank := length_intrinsicShape (List.forall_mem_cons.1 hd).1
  intro heq
  have hlen := congrArg List.length (vw.middle_eq.symm.trans ((congrArg middle heq).trans hmiddle))
  simp only [uncounted, List.length_append, List.length_take] at hlen
  omega

theorem Ranked.expandIntrinsic_total (hd : d.Ranked) (hm : d.intrinsic = d.total)
    (h : d.expandIntrinsic t = .ok v) : d.expandIntrinsic v = .ok v := by
  obtain ⟨-, tier, hmiddle⟩ := expandIntrinsic_eq_ok h
  have hcount := hm.trans hd.length_denseShape.symm
  rcases hmiddle with ⟨hdense, -⟩ | ⟨hown, hle⟩
  · exact expandIntrinsic_dense hdense hcount
  · rw [length_intrinsicShape (List.forall_mem_cons.1 hd).1] at hle
    exact expandIntrinsic_dense (hown.trans (by rw [hd.denseShape_eq_target (hm ▸ hle)])) hcount

/-- Expanding a stored value again succeeds, and changes it only where the count is smaller than
that of the target. -/
theorem Ranked.expandIntrinsic_again (hd : d.Ranked) (h : d.expandIntrinsic t = .ok v) :
    ∃ w, d.expandIntrinsic v = .ok w ∧
      (d.intrinsic = d.target.intrinsic ∨ d.intrinsic = d.total → w = v) ∧
      (d.intrinsic < d.target.intrinsic → w ≠ v ∧ d.Repeats v w) := by
  by_cases hm : d.intrinsic = d.total
  · refine ⟨v, hd.expandIntrinsic_total hm h, fun _ => rfl, fun hlt => ?_⟩
    have htotal : d.target.intrinsic ≤ d.total := Nat.le_add_right _ _
    omega
  · obtain ⟨w, hw, hrepeats⟩ := hd.expandIntrinsic_repeats hm h
    refine ⟨w, hw, fun hcount => ?_, fun hlt => ⟨hrepeats.ne_self hd hlt, hrepeats⟩⟩
    exact hrepeats.eq_self (hcount.resolve_right hm)

/-! ## Accumulating -/

section Accumulate

variable [Add α] {u : Tensor α}

theorem accumulate_undefined (hbase : t.base = d.base) (ht : d.expandIntrinsic t = .ok w)
    (hvalue : d.value = none) :
    (accumulate t).outcome d = (.ok (), { d with value := some w }) := by
  unfold Update.outcome
  rw [accumulate_apply, ht, hvalue, checkBase, if_pos hbase]

theorem accumulate_stored (hbase : t.base = d.base) (ht : d.expandIntrinsic t = .ok w)
    (hvalue : d.value = some u) {d' : Derivative α n} :
    (accumulate t).outcome d = (.ok (), d') ↔
      ∃ r, u.add w = .ok r ∧ d' = { d with value := some r } := by
  rw [Update.outcome_eq_ok, accumulate_apply, ht, hvalue, checkBase, if_pos hbase]
  dsimp only
  cases u.add w with
  | error e => simp
  | ok r => simp [eq_comm]

theorem accumulate_defined (hbase : t.base = d.base) (ht : d.expandIntrinsic t = .ok w)
    (hvalue : d.value = some u) (hu : u.base = w.base) {d' : Derivative α n} :
    (accumulate t).outcome d = (.ok (), d') ↔ ∃ r batch middle, Join [u, w] batch middle ∧
      r.View batch middle w.base (fun b m k => u.cellAt b m k + w.cellAt b m k) ∧
      d' = { d with value := some r } := by
  have hsum : ∀ r, u.add w = .ok r ↔ ∃ batch middle, Join [u, w] batch middle ∧
      r.View batch middle w.base fun b m k => u.cellAt b m k + w.cellAt b m k :=
    fun _ => zipWith_eq_ok hu
  rw [accumulate_stored hbase ht hvalue]
  constructor
  · rintro ⟨r, hr, rfl⟩
    obtain ⟨batch, middle, hjoin, vr⟩ := (hsum r).1 hr
    exact ⟨r, batch, middle, hjoin, vr, rfl⟩
  · rintro ⟨r, batch, middle, hjoin, vr, rfl⟩
    exact ⟨r, (hsum r).2 ⟨batch, middle, hjoin, vr⟩, rfl⟩

variable [Scalar α]

/-- A derivative with a value is accumulated as its value by its count, unless a value of another
count is stored. -/
theorem accumulateDerivative_outcome (hfin : ∀ x : α, Scalar.isFinite x = true)
    {other : Derivative α n} (hother : other.value = some v)
    (hcount : d.value = none ∨ d.intrinsic = other.intrinsic) :
    (accumulateDerivative other).outcome d =
      (accumulate v).outcome { d with intrinsic := other.intrinsic } := by
  have hmatch : ¬(d.isDefined && d.intrinsic ≠ other.intrinsic) = true := by
    rcases hcount with hnone | heq
    · simp [isDefined, hnone]
    · simp [heq]
  unfold Update.outcome
  rw [accumulateDerivative_apply, if_neg hmatch, tensor_eq_ok hfin hother]

end Accumulate

/-! ## Accumulating what was assigned -/

section Assigned

variable [Add α] [Scalar α] {m₀ m : Nat} {y : Quantity} {xs : Vector Quantity n}
  {d₀ e₀ other : Derivative α n}

/-- Accumulating a derivative that is defined by assignment into one of the same participants
adds its stored value, expanded a second time. With the count of the target or the total that is
the stored value itself, so it is taken over where nothing is stored, and added, tier by tier,
where a value of the same count broadcasts with it. With a smaller count it never is the stored
value: the dimensions that the count leaves out stand there twice. -/
theorem accumulateDerivative_assigned (hfin : ∀ x : α, Scalar.isFinite x = true)
    (calls : List (Call α n)) (hdeclare : declare m₀ y xs = .ok d₀) (hd : d₀.after calls = d)
    (hother : declare m y xs = .ok e₀) (hassign : (assign t).outcome e₀ = (.ok (), other)) :
    ∃ v w, other.value = some v ∧
      (m = y.intrinsic ∨ m = totalIntrinsic y xs.toList → w = v) ∧
      (m < y.intrinsic → w ≠ v ∧ other.Repeats v w) ∧
      (d.value = none → (accumulateDerivative other).outcome d =
        (.ok (), { d with intrinsic := m, value := some w })) ∧
      ∀ u, d.value = some u → d.intrinsic = m →
        ((∃ d', (accumulateDerivative other).outcome d = (.ok (), d')) ↔
          ∃ batch middle, Join [u, w] batch middle) ∧
        ∀ d', (accumulateDerivative other).outcome d = (.ok (), d') →
          ∃ r batch middle, d' = { d with value := some r } ∧ Join [u, w] batch middle ∧
            r.View batch middle (y.base ++ xs.toList.flatMap (·.base)) fun b k i =>
              u.cellAt b k i + w.cellAt b k i := by
  have hsound := hd ▸ (sound_of_declare hdeclare).after calls
  have hranked := (sound_of_declare hother).ranked
  obtain ⟨-, rfl⟩ := declare_eq_ok.1 hother
  obtain ⟨hbase, v, hv, rfl⟩ := withValue_eq_ok.1 (assign_outcome_eq_ok.1 hassign)
  have hvshaped := hranked.shaped_of_expandIntrinsic hbase hv
  obtain ⟨w, hw, hsame, hrepeats⟩ := hranked.expandIntrinsic_again hv
  have hwshaped := hranked.shaped_of_expandIntrinsic hvshaped.base_eq hw
  have hwbase : w.base = y.base ++ xs.toList.flatMap (·.base) := hwshaped.base_eq
  have hdbase : d.base = y.base ++ xs.toList.flatMap (·.base) := by
    rw [base, hsound.target_eq, hsound.arguments_eq]
  have hvbase : v.base = d.base := hvshaped.base_eq.trans hdbase.symm
  have hagain : ({ d with intrinsic := m } : Derivative α n).expandIntrinsic v = .ok w := by
    rw [← hw]
    exact expandIntrinsic_congr rfl hsound.target_eq hsound.arguments_eq
  have hvalue : (⟨m, y, xs, some v⟩ : Derivative α n).value = some v := rfl
  refine ⟨v, w, rfl, hsame, hrepeats, fun hnone => ?_, fun u hu hcount => ?_⟩
  · have houtcome := accumulateDerivative_outcome (d := d) hfin hvalue (.inl hnone)
    rw [houtcome]
    exact accumulate_undefined hvbase hagain hnone
  · subst hcount
    have houtcome := accumulateDerivative_outcome (d := d) hfin hvalue (.inr rfl)
    have hubase : u.base = w.base :=
      (hsound.shaped hu).base_eq.trans (hdbase.trans hwbase.symm)
    have hsum : ∀ {d'}, (accumulate v).outcome d = (.ok (), d') ↔ _ :=
      accumulate_defined hvbase hagain hu hubase
    rw [houtcome]
    constructor
    · constructor
      · rintro ⟨d', hd'⟩
        obtain ⟨r, batch, middle, hjoin, -⟩ := hsum.1 hd'
        exact ⟨batch, middle, hjoin⟩
      · rintro ⟨batch, middle, hjoin⟩
        obtain ⟨r, vr⟩ := exists_view batch middle w.base fun b k i =>
          u.cellAt b k i + w.cellAt b k i
        exact ⟨_, hsum.2 ⟨r, batch, middle, hjoin, vr, rfl⟩⟩
    · intro d' hd'
      obtain ⟨r, batch, middle, hjoin, vr, rfl⟩ := hsum.1 hd'
      exact ⟨r, batch, middle, rfl, hjoin, hwbase ▸ vr⟩

end Assigned

def pairDeclaration (m : Nat) : Derivative ℚ 1 :=
  ⟨m, ⟨"y", [2], 1, []⟩, #v[⟨"x", [2], 1, []⟩], none⟩

def pairFactor (m : Nat) : Derivative ℚ 1 :=
  ((assign (Tensor.full [] [] [] 5)).outcome (pairDeclaration m)).2

/-- With the count of the target the factor is taken over, and added where it is there already. -/
theorem pairFactor_accumulated :
    (accumulateDerivative (pairFactor 1)).outcome (pairDeclaration 1) = (.ok (), pairFactor 1) ∧
      ∃ d, (accumulateDerivative (pairFactor 1)).outcome (pairFactor 1) = (.ok (), d) := by
  have hdeclare : declare 1 (pairDeclaration 1).target (pairDeclaration 1).arguments =
      .ok (pairDeclaration 1) := rfl
  have hassign : (assign (Tensor.full [] [] [] 5)).outcome (pairDeclaration 1) =
      (.ok (), pairFactor 1) := Prod.ext rfl rfl
  have hnew : (pairDeclaration 1).after [] = pairDeclaration 1 := rfl
  obtain ⟨v, w, hv, hsame, -, hundefined, -⟩ :=
    accumulateDerivative_assigned (fun _ => rfl) [] hdeclare hnew hdeclare hassign
  cases hsame (.inl rfl)
  have htaken : (accumulateDerivative (pairFactor 1)).outcome (pairDeclaration 1) =
      (.ok (), pairFactor 1) := by
    rw [hundefined rfl, ← hv]
    rfl
  have hafter : (pairDeclaration 1).after [.accumulateDerivative (pairFactor 1)] =
      pairFactor 1 := congrArg Prod.snd htaken
  obtain ⟨v', w', hv', hsame', -, -, hdefined⟩ :=
    accumulateDerivative_assigned (fun _ => rfl) _ hdeclare hafter hdeclare hassign
  cases hsame' (.inl rfl)
  obtain ⟨hsucceeds, -⟩ := hdefined v' hv' rfl
  have hbatch : (pairFactor 1).value.map (·.batch) = some [] := rfl
  have hmiddle : (pairFactor 1).value.map (·.middle) = some [2] := rfl
  rw [hv', Option.map_some, Option.some.injEq] at hbatch hmiddle
  refine ⟨htaken, hsucceeds.2 ⟨[], [2], ?_, ?_⟩⟩
  · simp only [List.map_cons, List.map_nil, hbatch]
    rfl
  · simp only [List.map_cons, List.map_nil, hmiddle]
    rfl

/-- With a smaller count the factor gets a dimension that it did not have. -/
theorem pairFactor_repeated :
    declare 0 (pairDeclaration 0).target (pairDeclaration 0).arguments =
        .ok (pairDeclaration 0) ∧
      (assign (Tensor.full [] [] [] 5)).outcome (pairDeclaration 0) = (.ok (), pairFactor 0) ∧
      (pairFactor 0).middle? = some [2] ∧
      ∃ d, (accumulateDerivative (pairFactor 0)).outcome (pairDeclaration 0) = (.ok (), d) ∧
        d.middle? = some [2, 2] :=
  ⟨rfl, Prod.ext rfl rfl, rfl, _, Prod.ext (by decide +kernel) rfl, by decide +kernel⟩

end TieredCalculus.Derivative
