import TieredCalculus.Proofs.Axis.Order
import TieredCalculus.Proofs.Model.Evaluation

/-! # Axes of implicit updates

An implicit update declares variables of its model again: those beside the unknowns for the given
inputs, and the unknowns for the outputs. Neither can fail, since no name of an axis lies below
another, and both keep the order of the variables, so that the unknowns and the given inputs
divide the inputs of the model between them and the outputs are laid out as the unknowns are. An
input that is absent is reported before anything is changed.
-/

namespace TieredCalculus

namespace Axis

variable {α : Type} [Zero α] {a b : Axis}

theorem beq_iff_leaves_eq : (a == b) = true ↔ a.leaves = b.leaves := decide_eq_true_iff

theorem pack_eq_of_leaves_eq (h : a.leaves = b.leaves) (values : PathMap (Tensor α)) :
    a.pack values = b.pack values := by
  unfold pack
  rw [h]

theorem unpack_eq_of_leaves_eq (h : a.leaves = b.leaves) (t : Tensor α) :
    a.unpack t = b.unpack t := by
  unfold unpack size names storageSizes
  rw [h]

omit [Zero α] in
theorem names_eq_declared (a : Axis) : a.names = a.declared.map (·.1) := by
  rw [names, declared, List.map_map]
  rfl

theorem hasVariable_iff {name : Path} : a.hasVariable name = true ↔ name ∈ a.names := by
  simp [hasVariable, names]

theorem hasVariable_of_declared (keep : Path → Bool)
    (h : b.declared = a.declared.filter fun v => keep v.1) {name : Path}
    (hname : name ∈ a.names) : b.hasVariable name = keep name := by
  have hnames : b.names = a.names.filter keep := by
    rw [names_eq_declared, names_eq_declared, h, List.filter_map]
    rfl
  rw [Bool.eq_iff_iff, hasVariable_iff, hnames, List.mem_filter]
  exact and_iff_right hname

end Axis

namespace ImplicitUpdate

open Axis

variable {μ α : Type}

/-! ## Axes built again -/

theorem forM_declare (leaves : List VariableLayout) :
    (leaves.forM fun v => AxisPlan.declare v.name v.middle v.base) =
      AxisPlan.declareAll (leaves.map fun v => (v.name, v.middle, v.base)) := by
  induction leaves with
  | nil => rfl
  | cons v leaves ih =>
    change (AxisPlan.declare v.name v.middle v.base >>= fun _ => leaves.forM _) =
      AxisPlan.declare v.name v.middle v.base >>= fun _ => AxisPlan.declareAll _
    rw [ih]

theorem exists_rebuild_filter {a : Axis} (h : a.Formed) (keep : List String → Bool) :
    ∃ built, rebuild (a.leaves.filter fun v => keep v.name.components) = .ok built ∧
      built.declared = a.declared.filter fun v => keep v.1.components := by
  obtain ⟨plan, hplan, hdeclared⟩ := h.exists_declareAll keep
  have hselected : (a.leaves.filter fun v => keep v.name.components).map
      (fun v => (v.name, v.middle, v.base)) = a.declared.filter fun v => keep v.1.components := by
    rw [declared, List.filter_map]
    rfl
  refine ⟨plan.freeze, ?_, hdeclared⟩
  rw [rebuild, forM_declare, hselected, Update.outcome_eq_ok.2 hplan]

theorem exists_rebuild {a : Axis} (h : a.Formed) :
    ∃ built, rebuild a.leaves = .ok built ∧ built.leaves = a.leaves := by
  obtain ⟨built, hbuilt, hdeclared⟩ := exists_rebuild_filter h fun _ => true
  rw [List.filter_true] at hbuilt hdeclared
  exact ⟨built, hbuilt, (formed_of_rebuild hbuilt).laid.leaves_eq_of_declared h.laid hdeclared⟩

section Creation

variable {model : Model μ α} {solve : NonlinearSystem (ModelSystem.State μ α) α → Tensor α →
  Update (SolveError α) (ModelSystem.State μ α) (Solution α)} {linear : LinearSolver α}
  {place : Placement} {s : ImplicitUpdate μ α}

/-- An update can be created exactly on two sub-axes of one size: building axes again does not
fail. -/
theorem exists_create_iff (hinputs : model.inputAxis.Formed) :
    (∃ s, create model solve linear place = .ok s) ↔ ∃ unknowns residuals,
      model.inputAxis.subaxis place.unknown = .ok unknowns ∧
      model.outputAxis.subaxis place.residual = .ok residuals ∧
      unknowns.size = residuals.size := by
  constructor
  · rintro ⟨s, hs⟩
    exact ⟨_, _, (create_eq_ok_iff.1 hs).1⟩
  · rintro ⟨unknowns, residuals, hunknown, hresidual, hsize⟩
    obtain ⟨given, hgiven, -⟩ := exists_rebuild_filter hinputs fun parts =>
      !unknowns.path.components.isPrefixOf parts
    obtain ⟨output, houtput, -⟩ := exists_rebuild (hinputs.subaxis hunknown)
    exact ⟨⟨model, solve, linear, unknowns, residuals, given, output⟩,
      create_eq_ok_iff.2 ⟨⟨hunknown, hresidual, hsize⟩, ⟨hgiven, houtput⟩, rfl, rfl, rfl⟩⟩

theorem declared_unknownAxis (hinputs : model.inputAxis.Formed)
    (hs : create model solve linear place = .ok s) :
    s.unknownAxis.path = model.inputAxis.path ++ (place.unknown : Path) ∧
      s.unknownAxis.declared =
        model.inputAxis.declared.filter fun v => v.1.isUnder s.unknownAxis.path := by
  obtain ⟨⟨hunknown, -⟩, -⟩ := create_eq_ok_iff.1 hs
  obtain ⟨ranges, hleads⟩ := exists_leads (place.unknown : Path).valid (subaxis_eq_ok.1 hunknown)
  obtain ⟨-, hpath, hleaves⟩ := hleads.nested (place.unknown : Path).valid hinputs
  have hmap := congrArg (List.map fun v => (v.name, v.middle, v.base)) hleaves
  refine ⟨Path.ext hpath, ?_⟩
  rw [List.map_map] at hmap
  rw [declared, declared, List.filter_map]
  exact hmap.symm

theorem declared_givenAxis (hinputs : model.inputAxis.Formed)
    (hs : create model solve linear place = .ok s) :
    s.givenAxis.declared =
      model.inputAxis.declared.filter fun v => !v.1.isUnder s.unknownAxis.path := by
  obtain ⟨-, ⟨hgiven, -⟩, -⟩ := create_eq_ok_iff.1 hs
  obtain ⟨built, hbuilt, hdeclared⟩ := exists_rebuild_filter hinputs fun parts =>
    !s.unknownAxis.path.components.isPrefixOf parts
  cases hgiven.symm.trans hbuilt
  exact hdeclared

theorem leaves_outputAxis (hinputs : model.inputAxis.Formed)
    (hs : create model solve linear place = .ok s) :
    s.outputAxis.leaves = s.unknownAxis.leaves := by
  obtain ⟨⟨hunknown, -⟩, ⟨-, houtput⟩, -⟩ := create_eq_ok_iff.1 hs
  obtain ⟨built, hbuilt, hleaves⟩ := exists_rebuild (hinputs.subaxis hunknown)
  cases houtput.symm.trans hbuilt
  exact hleaves

theorem hasVariable_unknownAxis (hinputs : model.inputAxis.Formed)
    (hs : create model solve linear place = .ok s) {name : Path}
    (hname : name ∈ model.inputAxis.names) :
    s.unknownAxis.hasVariable name = !s.givenAxis.hasVariable name := by
  rw [hasVariable_of_declared (fun name => name.isUnder s.unknownAxis.path)
      (declared_unknownAxis hinputs hs).2 hname,
    hasVariable_of_declared (fun name => !name.isUnder s.unknownAxis.path)
      (declared_givenAxis hinputs hs) hname, Bool.not_not]

/-! ## Absent inputs -/

variable [Zero α]

theorem evaluate_of_find? {inputs : PathMap (Tensor α)} {name : Path}
    (h : (s.unknownAxis.names ++ s.givenAxis.names).find? (fun name => !inputs.contains name) =
      some name) (derivatives : Bool) (st : State μ α) :
    s.evaluate inputs derivatives st = .error (.missingInput name) st := by
  rw [names, names, ← List.map_append, List.find?_map, Option.map_eq_some_iff] at h
  obtain ⟨v, hv, rfl⟩ := h
  have hcheck : s.checkInputs inputs = .error (.missingInput v.name) :=
    checkInputs_eq_error.2 ⟨v, hv, rfl⟩
  rw [evaluate, hcheck]
  rfl

/-- Each input of the model of an update is on exactly one of the axis of the unknowns, which has
those below its path, and the axis of the given inputs, which has the others, both with the shapes
and in the order of the model. The axis of the outputs is equal to that of the unknowns, so vectors
are packed along both and unpacked along both alike. Whenever an input is absent, an evaluation
fails with the first that is absent, the unknowns first, and leaves the state of the model and the
outputs as they were. -/
theorem create_partitions_inputs (hinputs : model.inputAxis.Formed)
    (hs : create model solve linear place = .ok s) :
    (s.unknownAxis.path = model.inputAxis.path ++ (place.unknown : Path) ∧
      s.unknownAxis.declared =
        model.inputAxis.declared.filter (fun v => v.1.isUnder s.unknownAxis.path) ∧
      s.givenAxis.declared =
        model.inputAxis.declared.filter (fun v => !v.1.isUnder s.unknownAxis.path) ∧
      ∀ name ∈ model.inputAxis.names,
        s.unknownAxis.hasVariable name = !s.givenAxis.hasVariable name) ∧
    ((s.outputAxis == s.unknownAxis) = true ∧
      (∀ values : PathMap (Tensor α), s.outputAxis.pack values = s.unknownAxis.pack values) ∧
      ∀ t : Tensor α, s.outputAxis.unpack t = s.unknownAxis.unpack t) ∧
    ∀ inputs : PathMap (Tensor α), (∃ name ∈ model.inputAxis.names, inputs.get? name = none) →
      ∃ name, (s.unknownAxis.names ++ s.givenAxis.names).find?
          (fun name => !inputs.contains name) = some name ∧
        ∀ derivatives st, s.evaluate inputs derivatives st = .error (.missingInput name) st := by
  have hleaves := leaves_outputAxis hinputs hs
  obtain ⟨hpath, hunknown⟩ := declared_unknownAxis hinputs hs
  refine ⟨⟨hpath, hunknown, declared_givenAxis hinputs hs,
      fun name hname => hasVariable_unknownAxis hinputs hs hname⟩,
    ⟨beq_iff_leaves_eq.2 hleaves, pack_eq_of_leaves_eq hleaves, unpack_eq_of_leaves_eq hleaves⟩,
    fun inputs habsent => ?_⟩
  obtain ⟨name, hname, hnone⟩ := habsent
  have hmem : name ∈ s.unknownAxis.names ++ s.givenAxis.names := by
    have hpart := hasVariable_unknownAxis hinputs hs hname
    rw [List.mem_append, ← hasVariable_iff, ← hasVariable_iff, hpart]
    cases s.givenAxis.hasVariable name <;> simp
  have hfound : ((s.unknownAxis.names ++ s.givenAxis.names).find?
      fun name => !inputs.contains name).isSome = true :=
    List.find?_isSome.2 ⟨name, hmem, by rw [PathMap.contains, hnone]; rfl⟩
  obtain ⟨first, hfirst⟩ := Option.isSome_iff_exists.1 hfound
  exact ⟨first, hfirst, evaluate_of_find? hfirst⟩

end Creation

/-- A model whose unknowns lie two levels down. -/
def nestedModel : Model Unit ℚ where
  inputAxis := AxisPlan.nestedPlan.freeze
  outputAxis := balanceOutputs.freeze
  evaluate := fun _ _ => pure ⟨.empty, .empty⟩
  invalidate := id

/-- Of two absent inputs the unknown is reported, though it is the last input of the model. -/
theorem nestedModel_partitions : ∃ s,
    create nestedModel balanceSolve LinearSolver.dense { unknown := "m/s" } = .ok s ∧
    s.unknownAxis.declared = [(.ofString "m/s/x", [], [2])] ∧
    s.givenAxis.declared = [(.ofString "z", [], []), (.ofString "m/a", [3], [])] ∧
    (s.outputAxis == s.unknownAxis) = true ∧
    ∀ derivatives st, s.evaluate (.ofList [("m/a", .zeros [] [] [3])]) derivatives st =
      .error (.missingInput "m/s/x") st := by
  have hinputs : nestedModel.inputAxis.Formed := .frozen AxisPlan.built_nestedPlan
  obtain ⟨s, hs, -⟩ := Update.exists_of_toOption_map (c := true) (x := create nestedModel
    balanceSolve LinearSolver.dense { unknown := "m/s" }) (f := fun _ => true) (by decide +kernel)
  obtain ⟨⟨hpath, hunknown, hgiven, -⟩, ⟨houtput, -⟩, habsent⟩ :=
    create_partitions_inputs hinputs hs
  rw [hpath] at hunknown hgiven
  obtain ⟨name, hfirst, hrun⟩ := habsent (.ofList [("m/a", .zeros [] [] [3])]) ⟨"z", by decide, rfl⟩
  rw [names_eq_declared, names_eq_declared, hunknown, hgiven] at hfirst
  obtain rfl : name = "m/s/x" := Option.some.inj (hfirst.symm.trans (by decide))
  exact ⟨s, hs, hunknown.trans rfl, hgiven.trans rfl, houtput, hrun⟩

end ImplicitUpdate

end TieredCalculus
