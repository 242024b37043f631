import TieredCalculus.Newton.Solver
import TieredCalculus.Proofs.Model.Evaluation

/-! # Sequences of calls of an implicit update

After any calls, an evaluation that returns leaves outputs that agree with its result. One that
fails leaves them undefined if it has not converged. If it has, the values stay visible without
their sensitivities.
-/

namespace TieredCalculus.ImplicitUpdate

open Axis Tensor

variable {μ α : Type} [Zero α] {s : ImplicitUpdate μ α} {st st' : State μ α}

/-! ## Sequences of calls -/

/-- The states in which calls leave an update, whether they return or fail. -/
inductive Reached (s : ImplicitUpdate μ α) : State μ α → Prop
  | initial (m : μ) : Reached s (s.initialState m)
  | evaluated {st : State μ α} (h : Reached s st) (inputs : PathMap (Tensor α))
      (derivatives : Bool) : Reached s ((s.evaluate inputs derivatives).outcome st).2
  | invalidated {st : State μ α} (h : Reached s st) : Reached s (s.toModel.invalidate st)

theorem Reached.keeps (hu : s.unknownAxis.Laid) (hg : s.givenAxis.Laid) (h : s.Reached st) :
    s.Keeps st := by
  induction h with
  | initial m =>
    refine List.forall₂_map_right_iff.2 (List.forall₂_same.2 fun u _ => ?_)
    exact outputOf_ofQuantity s.givenAxis.leaves u
  | evaluated _ inputs derivatives ih => exact ih.evaluate hu hg inputs derivatives
  | invalidated _ ih => exact ih

/-! ## Agreement -/

section Agreement

variable {model : Model μ α} {solve : NonlinearSystem (ModelSystem.State μ α) α → Tensor α →
  Update (SolveError α) (ModelSystem.State μ α) (Solution α)} {linear : LinearSolver α}
  {place : Placement} {inputs : PathMap (Tensor α)} {derivatives : Bool}

omit [Zero α] in
theorem forall_outputs {R : VariableLayout → Variable α → Prop} {P : Variable α → Prop}
    {us : List VariableLayout} {ys : List (Variable α)} (h : List.Forall₂ R us ys)
    (hP : ∀ u ∈ us, ∀ y, R u y → P y) : ∀ y ∈ ys, P y := by
  intro y hy
  rw [← List.map_snd_zip (Nat.le_of_eq h.length_eq.symm)] at hy
  obtain ⟨⟨u, y⟩, hmem, rfl⟩ := List.mem_map.1 hy
  exact hP u (List.of_mem_zip hmem).1 y (List.forall₂_zip h hmem)

omit [Zero α] in
theorem names_of_keeps (hst : s.Keeps st) : st.outputs.map (·.name) = s.unknownAxis.names := by
  have hnames : List.Forall₂ (· = ·) s.unknownAxis.names (st.outputs.map (·.name)) :=
    List.forall₂_map_left_iff.2 (List.forall₂_map_right_iff.2
      (hst.imp fun _ _ h => h.name_eq.symm))
  rw [List.forall₂_eq_eq_eq] at hnames
  exact hnames.symm

variable [Scalar α]

theorem Derived.assembledDerivatives (hfin : ∀ x : α, Scalar.isFinite x = true)
    {out : ModelOutput α} {u : VariableLayout} {y : Variable α} (h : s.Derived out u y)
    (hfits : s.Fits out.derivatives) (hu : u ∈ s.unknownAxis.leaves) :
    y.assembledDerivatives = .ok (rowOf out.derivatives u) := by
  refine h.toOutputOf.assembledDerivatives_eq_ok hfin (fun g hg => ?_) (hfits.names u hu)
  obtain ⟨block, d, hblock, hd, hholds⟩ := h.blocks g hg
  exact ⟨block, d, (get?_rowOf _ u g).trans hblock, hd, hholds⟩

/-- Whatever calls came before, an evaluation that returns leaves outputs that agree with its
result: each assembles to the value returned under its name and to the row of derivatives
returned there. Without derivatives or given variables both have none, and otherwise the row has
a block for each given variable. -/
theorem evaluate_outputs_agree (hfin : ∀ x : α, Scalar.isFinite x = true)
    (hinputs : model.inputAxis.Formed) (hs : create model solve linear place = .ok s)
    (hst : s.Reached st) {out : ModelOutput α}
    (h : s.evaluate inputs derivatives st = .ok out st') :
    st'.outputs.map (·.name) = s.unknownAxis.names ∧
      (derivatives = false ∨ s.givenAxis.leaves = [] → out.derivatives = .empty) ∧
      ∀ y ∈ st'.outputs,
        (∃ value, out.values.get? y.name = some value ∧ y.assembledValue = .ok value) ∧
        y.assembledDerivatives = .ok ((out.derivatives.get? y.name).getD .empty) ∧
        (derivatives = true → ∀ g ∈ s.givenAxis.leaves,
          ∃ block, (out.derivatives.get? y.name).bind (·.get? g.name) = some block) := by
  obtain ⟨⟨hunknown, -, hgiven⟩, -⟩ := create_eq_ok hs
  have hu := (hinputs.subaxis hunknown).laid
  have hg := hgiven.laid
  have hkept := hst.keeps hu hg
  have hkept' : s.Keeps st' := by
    have hout := hkept.evaluate hu hg inputs derivatives
    rwa [Update.outcome, h] at hout
  refine ⟨names_of_keeps hkept', ?_⟩
  rcases outputs_of_evaluate hu hg hkept h with ⟨rfl, hempty, hbare⟩ | ⟨rfl, hfits, hderived⟩
  · refine ⟨fun _ => hempty, forall_outputs hbare fun u _ y hy => ⟨hy.value, ?_, fun hd => ?_⟩⟩
    · rw [hempty]
      exact hy.bare.assembledDerivatives
    · cases hd
  · refine ⟨fun hor => hfits.empty (hor.resolve_left (by simp)),
      forall_outputs hderived fun u hum y hy => ⟨hy.value, ?_, fun _ g hgm => ?_⟩⟩
    · rw [hy.name_eq]
      exact hy.assembledDerivatives hfin hfits hum
    · rw [hy.name_eq]
      obtain ⟨block, hblock, -⟩ := hfits.block u hum g hgm
      exact ⟨block, hblock⟩

end Agreement

def rootInputs : AxisPlan :=
  ((AxisPlan.declare "state/u" [2] []).outcome
    ((AxisPlan.declare "forces/a" [] []).outcome AxisPlan.empty).2).2

def rootOutputs : AxisPlan :=
  ((AxisPlan.declare "residual/u" [2] []).outcome AxisPlan.empty).2

/-- The residuals `u₀² - a` and `u₁² - a` with their derivatives. -/
def rootOutput (inputs : PathMap (Tensor ℚ)) : ModelOutput ℚ :=
  let u := fun i => partEntry (inputs.get? "state/u") [] [i]
  let a := partEntry (inputs.get? "forces/a") [] [0]
  { values := .ofList [("residual/u", ⟨[], [], [2], #[u 0 * u 0 - a, u 1 * u 1 - a], rfl⟩)]
    derivatives := .ofList [("residual/u", .ofList
      [("forces/a", .full [] [] [2, 1] (-1)),
        ("state/u", ⟨[], [], [2, 2], #[u 0 + u 0, 0, 0, u 1 + u 1], rfl⟩)])] }

def rootModel : Model Unit ℚ where
  inputAxis := rootInputs.freeze
  outputAxis := rootOutputs.freeze
  evaluate := fun inputs _ => pure (rootOutput inputs)
  invalidate := id

theorem formed_rootModel : rootModel.inputAxis.Formed :=
  .frozen ((AxisPlan.Built.empty.step (.ofVariable ..)).step (.ofVariable ..))

def rootSolve (sys : NonlinearSystem (ModelSystem.State Unit ℚ) ℚ) (guess : Tensor ℚ) :
    Update (SolveError ℚ) (ModelSystem.State Unit ℚ) (Solution ℚ) :=
  (Solver.newton ⟨.standard, .dense⟩).solve sys guess

def rootAt (u a : ℚ) : PathMap (Tensor ℚ) :=
  .ofList [("forces/a", ⟨[], [], [1], #[a], rfl⟩), ("state/u", ⟨[], [], [2], #[u, u], rfl⟩)]

/-- After a call that failed at the root of zero, the roots of one and their sensitivities are
returned and held alike. -/
theorem root_outputs_agree : ∃ s out st',
    create rootModel rootSolve LinearSolver.dense {} = .ok s ∧
    s.evaluate (rootAt 1 1) true ((s.evaluate (rootAt 0 0) true).outcome (s.initialState ())).2 =
      .ok out st' ∧
    ∀ y ∈ st'.outputs,
      (∃ value, out.values.get? y.name = some value ∧ y.assembledValue = .ok value ∧
        value.toList = [1, 1]) ∧
      ∃ row, y.assembledDerivatives = .ok row ∧
        (row.get? "forces/a").map (·.toList) = some [1 / 2, 1 / 2] := by
  obtain ⟨s, hs, hrun⟩ := Update.exists_of_toOption_map (c := true)
    (x := create rootModel rootSolve LinearSolver.dense {}) (f := fun s =>
      match s.evaluate (rootAt 1 1) true
          ((s.evaluate (rootAt 0 0) true).outcome (s.initialState ())).2 with
      | .ok out st' => decide (st'.outputs.map (·.name) = [("state/u" : Path)] ∧
          (out.values.get? "state/u").map (·.toList) = some [1, 1] ∧
          (((out.derivatives.get? "state/u").getD .empty).get? "forces/a").map (·.toList) =
            some [1 / 2, 1 / 2])
      | .error _ _ => false) (by decide +kernel)
  cases h : s.evaluate (rootAt 1 1) true
      ((s.evaluate (rootAt 0 0) true).outcome (s.initialState ())).2 with
  | error e st' => simp [h] at hrun
  | ok out st' =>
    rw [h] at hrun
    obtain ⟨hnames, hvalues, hrow⟩ := of_decide_eq_true hrun
    obtain ⟨-, -, hagree⟩ := evaluate_outputs_agree (fun _ => rfl) formed_rootModel hs
      ((Reached.initial ()).evaluated (rootAt 0 0) true) h
    refine ⟨s, out, st', hs, h, fun y hy => ?_⟩
    have hname : y.name = "state/u" := by
      have hmem := List.mem_map_of_mem (f := (·.name)) hy
      rwa [hnames, List.mem_singleton] at hmem
    obtain ⟨⟨value, hvalue, hassembled⟩, hderivatives, -⟩ := hagree y hy
    rw [hname] at hvalue hderivatives
    rw [hvalue] at hvalues
    rw [hname]
    exact ⟨⟨value, hvalue, hassembled, Option.some.inj hvalues⟩, _, hderivatives, hrow⟩

/-! ## Failures -/

section Failures

variable {model : Model μ α} {solve : NonlinearSystem (ModelSystem.State μ α) α → Tensor α →
  Update (SolveError α) (ModelSystem.State μ α) (Solution α)} {linear : LinearSolver α}
  {place : Placement} {inputs : PathMap (Tensor α)} {derivatives : Bool} {e : SolveError α}

/-- An evaluation without derivatives is one up to the values. -/
theorem evaluate_false_eq_ok {out : ModelOutput α} :
    s.evaluate inputs false st = .ok out st' ↔
      ∃ found, s.converge inputs st = .ok found st' ∧ out = ⟨found.2.2, .empty⟩ := by
  rw [evaluate_eq, Update.bind_eq_ok]
  constructor
  · rintro ⟨found, _, hconverge, h⟩
    cases h
    exact ⟨found, hconverge, rfl⟩
  · rintro ⟨found, hconverge, rfl⟩
    exact ⟨found, st', hconverge, rfl⟩

theorem evaluate_false_eq_error :
    s.evaluate inputs false st = .error e st' ↔ s.converge inputs st = .error e st' := by
  rw [evaluate_eq, Update.bind_eq_error]
  constructor
  · rintro (h | ⟨found, _, -, h⟩)
    · exact h
    · cases h
  · exact .inl

/-- What an evaluation that fails leaves in the outputs. At a missing input everything stays as
it was. Where the evaluation without derivatives fails too, the outputs are undefined. Otherwise
they are left as that evaluation leaves them, each with the value found and no derivative. -/
theorem evaluate_error_outputs (hinputs : model.inputAxis.Formed)
    (hs : create model solve linear place = .ok s) (hst : s.Reached st)
    (h : s.evaluate inputs derivatives st = .error e st') :
    (∃ v ∈ s.unknownAxis.leaves ++ s.givenAxis.leaves, inputs.get? v.name = none ∧
        e = .missingInput v.name ∧ st' = st) ∨
      (s.evaluate inputs false st = .error e st' ∧ ∀ y ∈ st'.outputs, Undefined y) ∨
      (derivatives = true ∧ ∃ out st₀, s.evaluate inputs false st = .ok out st₀ ∧
        st'.outputs = st₀.outputs ∧ st'.outputs ≠ [] ∧ ∀ y ∈ st'.outputs, Underived y ∧
          ∃ value, out.values.get? y.name = some value ∧ y.assembledValue = .ok value) := by
  obtain ⟨⟨hunknown, -, hgiven⟩, -⟩ := create_eq_ok hs
  have hu := (hinputs.subaxis hunknown).laid
  have hg := hgiven.laid
  have hkept := hst.keeps hu hg
  rcases evaluate_eq_error hu hg hkept h with hconverge | ⟨hd, found, st₁, hconverge, houtputs⟩
  · rcases converge_eq_error hu hkept hconverge with hmissing | hclear
    · exact .inl hmissing
    · refine .inr (.inl ⟨evaluate_false_eq_error.2 hconverge, fun y hy => ?_⟩)
      rw [hclear] at hy
      obtain ⟨y', -, rfl⟩ := List.mem_map.1 hy
      exact undefined_clear y'
  · obtain ⟨hne, hbare⟩ := converge_eq_ok hu hkept hconverge
    refine .inr (.inr ⟨hd, _, st₁, evaluate_false_eq_ok.2 ⟨found, hconverge, rfl⟩, houtputs, ?_,
      ?_⟩)
    · intro hnil
      rw [← houtputs, hnil] at hbare
      exact hne (List.forall₂_nil_right_iff.1 hbare)
    · rw [houtputs]
      exact forall_outputs hbare fun u _ y hy => ⟨hy.bare, hy.value⟩

end Failures

/-- After a call that found the roots of one, one that asks for the sensitivities at the root of
zero leaves that root without them. -/
theorem root_error_outputs : ∃ s e st',
    create rootModel rootSolve LinearSolver.dense {} = .ok s ∧
    s.evaluate (rootAt 0 0) true ((s.evaluate (rootAt 1 1) true).outcome (s.initialState ())).2 =
      .error e st' ∧ st'.outputs ≠ [] ∧
    ∀ y ∈ st'.outputs, Underived y ∧ ∃ value, y.assembledValue = .ok value := by
  obtain ⟨s, hs, hrun⟩ := Update.exists_of_toOption_map (c := true)
    (x := create rootModel rootSolve LinearSolver.dense {}) (f := fun s =>
      let before := ((s.evaluate (rootAt 1 1) true).outcome (s.initialState ())).2
      ((s.evaluate (rootAt 0 0) true).outcome before).1.toOption.isNone &&
        ((s.evaluate (rootAt 0 0) false).outcome before).1.toOption.isSome &&
        (s.unknownAxis.leaves ++ s.givenAxis.leaves).all fun v =>
          (rootAt 0 0).contains v.name) (by decide +kernel)
  dsimp only at hrun
  generalize hbefore : ((s.evaluate (rootAt 1 1) true).outcome (s.initialState ())).2 = before
    at hrun
  rw [Bool.and_eq_true, Bool.and_eq_true, List.all_eq_true] at hrun
  obtain ⟨⟨hfails, hreturns⟩, hpresent⟩ := hrun
  have hreached : s.Reached before := hbefore ▸ (Reached.initial ()).evaluated (rootAt 1 1) true
  cases h : s.evaluate (rootAt 0 0) true before with
  | ok out st' =>
    rw [Update.outcome_eq_ok.2 h] at hfails
    cases hfails
  | error e st' =>
    refine ⟨s, e, st', hs, hbefore ▸ h, ?_⟩
    rcases evaluate_error_outputs formed_rootModel hs hreached h with
      ⟨v, hv, hnone, -⟩ | ⟨hfalse, -⟩ | ⟨-, out, st₀, -, -, hne, hleft⟩
    · have hpart := hpresent v hv
      rw [PathMap.contains, hnone] at hpart
      cases hpart
    · rw [Update.outcome_eq_error.2 hfalse] at hreturns
      cases hreturns
    · refine ⟨hne, fun y hy => ?_⟩
      obtain ⟨hbare, value, -, hvalue⟩ := hleft y hy
      exact ⟨hbare, value, hvalue⟩

/-- What is seen of an output: the entries of its value, and which derivatives are defined. -/
structure Shown where
  value : Option (List ℚ)
  defined : List Bool
  deriving DecidableEq

def shown (st : State Unit ℚ) : List Shown :=
  st.outputs.map fun y => ⟨y.value.map (·.toList), y.first.values.map (·.isDefined)⟩

/-- The output of that call is neither as before nor undefined: the root of zero has taken the
place of the roots of one, and their sensitivity is gone. -/
theorem singular_root_half_written :
    (create rootModel rootSolve LinearSolver.dense {}).toOption.map (fun s =>
      let before := ((s.evaluate (rootAt 1 1) true).outcome (s.initialState ())).2
      let after := (s.evaluate (rootAt 0 0) true).outcome before
      (after.1.toOption.isNone, shown before, shown after.2)) =
    some (true, [⟨some [1, 1], [true]⟩], [⟨some [0, 0], [false]⟩]) := by
  decide +kernel

end TieredCalculus.ImplicitUpdate
