import TieredCalculus.Model.ImplicitUpdate
import TieredCalculus.Newton.Iteration
import TieredCalculus.Proofs.Assembly.Blocks
import TieredCalculus.Proofs.Linear.Sensitivity
import TieredCalculus.Proofs.Rational

/-! # The implicit function theorem for implicit updates

The matrices of an implicit update are packed along three axes. The product of packed matrices
is the sum over the variables of the axis between them of the products of their blocks, so the
sensitivities that the dense solver returns satisfy the equation of the implicit function
theorem block by block.
-/

namespace TieredCalculus

namespace Axis

theorem Consecutive.sum_places {M : Type} [AddCommMonoid M] {start : Nat}
    {vs : List VariableLayout} (h : Consecutive start vs) (f : Nat → M) :
    ∑ l ∈ Finset.range (Shape.total (vs.map (·.storage))), f (start + l) =
      (vs.map fun v => ∑ k ∈ Finset.range v.storage, f (v.start + k)).sum := by
  induction vs generalizing start with
  | nil => rfl
  | cons v vs ih =>
    obtain ⟨rfl, hrest⟩ := h
    rw [List.map_cons, Shape.total_cons, Finset.sum_range_add, List.map_cons, List.sum_cons,
      ← ih hrest]
    simp only [VariableLayout.stop, Nat.add_assoc]

theorem Laid.sum_places {M : Type} [AddCommMonoid M] {a : Axis} (h : a.Laid) (f : Nat → M) :
    ∑ l ∈ Finset.range a.size, f l =
      (a.leaves.map fun v => ∑ k ∈ Finset.range v.storage, f (v.start + k)).sum := by
  have hsum := h.consecutive.sum_places f
  simp only [Nat.zero_add] at hsum
  exact hsum

end Axis

namespace ModelSystem

variable {μ α : Type}

theorem onAxes_eq_ok {model : Model μ α} {given : PathMap (Tensor α)}
    {unknownAxis residualAxis : Axis} {problem : ModelSystem μ α}
    (h : onAxes model given unknownAxis residualAxis = .ok problem) :
    problem.model = model ∧ problem.given = given ∧ problem.unknownAxis = unknownAxis := by
  unfold onAxes at h
  split at h
  · cases h
    exact ⟨rfl, rfl, rfl⟩
  · cases h

/-- At a solution just set, the system evaluates its model at the given inputs and the parts
of the solution. -/
theorem evaluate_after_set [Zero α] {problem : ModelSystem μ α} {u : Tensor α}
    {derivatives : Bool} {sys sys' : State μ α} {out : ModelOutput α}
    (h : (do
      problem.system.setSolution u
      problem.evaluate derivatives : Update (SolveError α) (State μ α) (ModelOutput α)) sys =
        .ok out sys') {unknowns : PathMap (Tensor α)}
    (hunknowns : problem.unknownAxis.unpack u = .ok unknowns) :
    ∃ μ', problem.model.evaluate (problem.given.insertAll unknowns.entries) derivatives
      sys.model = .ok out μ' := by
  obtain ⟨_, _, hset, h₁⟩ := Update.bind_eq_ok.1 h
  cases hset
  obtain ⟨held, _, hget, h₂⟩ := Update.bind_eq_ok.1 h₁
  cases hget
  obtain ⟨unknowns', _, hunpack, h₃⟩ := Update.bind_eq_ok.1 h₂
  obtain ⟨hunpack', rfl⟩ := SolveError.lift_eq_ok.1 hunpack
  rw [hunknowns] at hunpack'
  cases hunpack'
  obtain ⟨μ', hμ, -⟩ := Update.onPart_eq_ok.1 h₃
  exact ⟨μ', hμ⟩

end ModelSystem

namespace ImplicitUpdate

open Axis Tensor

variable {μ α : Type}

/-- The right side of the sensitivities: the packed derivatives by the given inputs, or zeros
over the batch of the Jacobian where there are none. -/
def RightSide [Zero α] (residuals givens : Axis) (derivatives : PathMap (PathMap (Tensor α)))
    (j b : Tensor α) : Prop :=
  residuals.packBlocks givens derivatives = .ok b ∨
    presentBlocks residuals givens derivatives = [] ∧
      b = zeros j.batch [] [residuals.size, givens.size]

section Blocks

variable [Field α] {residuals unknowns givens : Axis}
  {derivatives : PathMap (PathMap (Tensor α))} {j b x : Tensor α} {n m : Nat} {batch : Shape}

theorem rightSide_base (hresiduals : residuals.Laid) (hgivens : givens.Laid)
    (hb : RightSide residuals givens derivatives j b) :
    b.base = [residuals.size, givens.size] := by
  rcases hb with hb | ⟨-, rfl⟩
  · obtain ⟨-, -, batch', -, hpacks⟩ := packs_of_packBlocks hresiduals hgivens hb
    exact hpacks.base_eq
  · rfl

theorem rightSide_entry (hresiduals : residuals.Laid) (hgivens : givens.Laid)
    (hb : RightSide residuals givens derivatives j b) (hbatch : b.batch.expandsTo batch = true)
    {r g : VariableLayout} (hr : r ∈ residuals.leaves) (hg : g ∈ givens.leaves) {k : Index}
    (hk : Shape.InBounds batch k) {i c : Nat} (hi : i < r.storage) (hc : c < g.storage) :
    b.entry (b.batch.project k ++ [r.start + i, g.start + c]) =
      partEntry (blockOf derivatives r g) k [i, c] := by
  rcases hb with hb | ⟨hempty, rfl⟩
  · obtain ⟨-, -, batch', hjoin, hpacks⟩ := packs_of_packBlocks hresiduals hgivens hb
    rw [hpacks.batch_eq] at hbatch
    exact hpacks.entry_project hjoin hbatch hr hg hk hi hc
  · rw [entry_zeros]
    cases hblock : blockOf derivatives r g with
    | none => rfl
    | some s =>
      have hmem := mem_presentBlocks.2 ⟨r, hr, g, hg, hblock⟩
      rw [hempty] at hmem
      cases hmem

theorem isJoin_rightSide (hresiduals : residuals.Laid) (hunknowns : unknowns.Laid)
    (hgivens : givens.Laid) (hj : residuals.packBlocks unknowns derivatives = .ok j)
    (hb : RightSide residuals givens derivatives j b)
    (hbatch : Shape.broadcast j.batch b.batch = .ok batch) :
    Shape.IsJoin ((presentBlocks residuals unknowns derivatives ++
      presentBlocks residuals givens derivatives).map (·.batch)) batch := by
  rw [← Shape.broadcastAll_pair, Shape.broadcastAll_eq_ok] at hbatch
  refine (Shape.isJoin_congr fun d => ?_).1 hbatch
  obtain ⟨-, -, batch', hjoin, hpacks⟩ := packs_of_packBlocks hresiduals hunknowns hj
  rw [List.map_append, List.forall_mem_append, hjoin.forall_expandsTo_iff, hpacks.batch_eq]
  rcases hb with hb | ⟨hempty, rfl⟩
  · obtain ⟨-, -, batch'', hjoin', hpacks'⟩ := packs_of_packBlocks hresiduals hgivens hb
    rw [hjoin'.forall_expandsTo_iff, hpacks'.batch_eq]
    simp
  · rw [hempty]
    change (∀ s ∈ [batch', j.batch], _) ↔ _
    rw [hpacks.batch_eq]
    simp

theorem sizes_eq (hresiduals : residuals.Laid) (hunknowns : unknowns.Laid)
    (hgivens : givens.Laid) (hj : residuals.packBlocks unknowns derivatives = .ok j)
    (hb : RightSide residuals givens derivatives j b)
    (hx : LinearSolver.SolvesColumns j b x n m batch) :
    residuals.size = n ∧ unknowns.size = n ∧ givens.size = m := by
  obtain ⟨-, -, batch', -, hpacks⟩ := packs_of_packBlocks hresiduals hunknowns hj
  have hmatrix := hpacks.base_eq.symm.trans hx.matrix.2
  have hright := (rightSide_base hresiduals hgivens hb).symm.trans hx.right_base
  simp only [List.cons.injEq, and_true] at hmatrix hright
  exact ⟨hmatrix.1, hmatrix.2, hright.2⟩

/-- Solutions of the packed equation satisfy it block by block. -/
theorem sum_blocks_eq (hresiduals : residuals.Laid) (hunknowns : unknowns.Laid)
    (hgivens : givens.Laid) (hj : residuals.packBlocks unknowns derivatives = .ok j)
    (hb : RightSide residuals givens derivatives j b)
    (hx : LinearSolver.SolvesColumns j b x n m batch)
    {sensitivities : PathMap (PathMap (Tensor α))}
    (hblocks : ∀ u ∈ unknowns.leaves, ∀ g ∈ givens.leaves, ∃ block,
      blockOf sensitivities u g = some block ∧ IsBlock x u g block)
    {r g : VariableLayout} (hr : r ∈ residuals.leaves) (hg : g ∈ givens.leaves) {k : Index}
    (hk : Shape.InBounds batch k) {i c : Nat} (hi : i < r.storage) (hc : c < g.storage) :
    (unknowns.leaves.map fun u => ∑ l ∈ Finset.range u.storage,
      partEntry (blockOf derivatives r u) k [i, l] *
        partEntry (blockOf sensitivities u g) k [l, c]).sum =
      -partEntry (blockOf derivatives r g) k [i, c] := by
  obtain ⟨-, -, batch', hjoin, hpacks⟩ := packs_of_packBlocks hresiduals hunknowns hj
  obtain ⟨hje, hbe, -⟩ := Shape.broadcast_expandsTo hx.broadcast
  obtain ⟨hsize, hn, hm⟩ := sizes_eq hresiduals hunknowns hgivens hj hb hx
  rw [← rightSide_entry hresiduals hgivens hb hbe hr hg hk hi hc,
    ← hx.row_eq hk _ (hsize ▸ hresiduals.lt_size hr hi) _ (hm ▸ hgivens.lt_size hg hc), ← hn,
    hunknowns.sum_places]
  congr 1
  refine List.map_congr_left fun u hu => Finset.sum_congr rfl fun l hl => ?_
  rw [Finset.mem_range] at hl
  obtain ⟨block, hblock, hcut⟩ := hblocks u hu g hg
  rw [hpacks.batch_eq] at hje
  rw [hpacks.entry_project hjoin hje hr hu hk hi hl, hblock]
  congr 1
  change block.entry (block.batch.project k ++ [l, c]) = _
  rw [← hx.batch_eq] at hk
  rw [hcut.batch_eq, Shape.project_of_inBounds hk, hcut.entry_eq hk hl hc]

end Blocks

/-! ## Construction -/

theorem built_of_forM {leaves : List VariableLayout} {plan : AxisPlan} (h : plan.Built) :
    (((leaves.forM fun v => AxisPlan.declare v.name v.middle v.base).outcome plan).2).Built := by
  induction leaves generalizing plan with
  | nil => exact h
  | cons v leaves ih =>
    have hcons : (v :: leaves).forM (fun v => AxisPlan.declare v.name v.middle v.base) =
        AxisPlan.declare v.name v.middle v.base >>= fun _ =>
          leaves.forM fun v => AxisPlan.declare v.name v.middle v.base := rfl
    have hstep := h.step (.ofVariable v.name v.middle v.base)
    unfold Update.outcome at hstep ⊢
    rw [hcons, Update.bind_apply]
    cases hv : AxisPlan.declare v.name v.middle v.base plan with
    | ok _ plan' =>
      rw [hv] at hstep
      exact ih hstep
    | error e plan' =>
      rw [hv] at hstep
      exact hstep

theorem formed_of_rebuild {leaves : List VariableLayout} {a : Axis} (h : rebuild leaves = .ok a) :
    a.Formed := by
  have hbuilt : ((leaves.forM fun v => AxisPlan.declare v.name v.middle v.base).outcome
      .empty).2.Built := built_of_forM .empty
  unfold rebuild at h
  split at h
  · next houtcome =>
    rw [houtcome] at hbuilt
    cases h
    exact .frozen hbuilt
  · cases h

variable {model : Model μ α} {solve : NonlinearSystem (ModelSystem.State μ α) α → Tensor α →
  Update (SolveError α) (ModelSystem.State μ α) (Solution α)} {linear : LinearSolver α}
  {place : Placement} {s : ImplicitUpdate μ α}

theorem create_eq_ok_iff : create model solve linear place = .ok s ↔
    (model.inputAxis.subaxis place.unknown = .ok s.unknownAxis ∧
      model.outputAxis.subaxis place.residual = .ok s.residualAxis ∧
      s.unknownAxis.size = s.residualAxis.size) ∧
    (rebuild (model.inputAxis.leaves.filter fun v => !v.name.isUnder s.unknownAxis.path) =
        .ok s.givenAxis ∧ rebuild s.unknownAxis.leaves = .ok s.outputAxis) ∧
    s.model = model ∧ s.solve = solve ∧ s.linear = linear := by
  constructor
  · intro h
    obtain ⟨unknownAxis, hunknown, h⟩ := Update.except_bind_eq_ok.1 h
    obtain ⟨residualAxis, hresidual, h⟩ := Update.except_bind_eq_ok.1 h
    by_cases hsize : unknownAxis.size ≠ residualAxis.size
    · rw [if_pos hsize] at h
      cases h
    · rw [if_neg hsize] at h
      obtain ⟨givenAxis, hgiven, h⟩ := Update.except_bind_eq_ok.1 h
      obtain ⟨outputAxis, houtput, h⟩ := Update.except_bind_eq_ok.1 h
      cases h
      exact ⟨⟨SolveError.ofTensor_eq_ok.1 hunknown, SolveError.ofTensor_eq_ok.1 hresidual,
        not_not.1 hsize⟩, ⟨SolveError.ofTensor_eq_ok.1 hgiven,
          SolveError.ofTensor_eq_ok.1 houtput⟩, rfl, rfl, rfl⟩
  · rintro ⟨⟨hunknown, hresidual, hsize⟩, ⟨hgiven, houtput⟩, rfl, rfl, rfl⟩
    refine Update.except_bind_eq_ok.2 ⟨_, SolveError.ofTensor_eq_ok.2 hunknown,
      Update.except_bind_eq_ok.2 ⟨_, SolveError.ofTensor_eq_ok.2 hresidual, ?_⟩⟩
    rw [if_neg (not_not.2 hsize)]
    exact Update.except_bind_eq_ok.2 ⟨_, SolveError.ofTensor_eq_ok.2 hgiven,
      Update.except_bind_eq_ok.2 ⟨_, SolveError.ofTensor_eq_ok.2 houtput, rfl⟩⟩

theorem create_eq_ok (h : create model solve linear place = .ok s) :
    (model.inputAxis.subaxis place.unknown = .ok s.unknownAxis ∧
      model.outputAxis.subaxis place.residual = .ok s.residualAxis ∧ s.givenAxis.Formed) ∧
      s.model = model ∧ s.solve = solve ∧ s.linear = linear := by
  obtain ⟨⟨hunknown, hresidual, -⟩, ⟨hgiven, -⟩, hparts⟩ := create_eq_ok_iff.1 h
  exact ⟨⟨hunknown, hresidual, formed_of_rebuild hgiven⟩, hparts⟩

/-! ## Evaluation -/

variable [Zero α] {out : ModelOutput α} {st st' : State μ α}
  {blocks : PathMap (PathMap (Tensor α))}

theorem exists_solved {j b : Tensor α}
    (h : (do
      let x ← s.linear.sensitivity j b
      let blocks ← s.unknownAxis.unpackBlocks s.givenAxis x
      onOutputs (changeEach (storeSensitivities blocks (s.givenAxis.leaves.map quantityOf)))
      return blocks : Update (SolveError α) (State μ α) (PathMap (PathMap (Tensor α)))) st =
        .ok blocks st') :
    ∃ x, s.linear.sensitivity j b = .ok x ∧
      s.unknownAxis.unpackBlocks s.givenAxis x = .ok blocks := by
  obtain ⟨x, _, hx, h⟩ := Update.bind_eq_ok.1 h
  obtain ⟨blocks', _, hblocks, h⟩ := Update.bind_eq_ok.1 h
  obtain ⟨_, _, -, h⟩ := Update.bind_eq_ok.1 h
  cases h
  exact ⟨x, (Update.lift_eq_ok.1 hx).1, (SolveError.lift_eq_ok.1 hblocks).1⟩

/-- Sensitivities are unpacked from what the linear solver returns for the packed derivatives,
unless nothing is given. -/
theorem sensitivities_eq_ok (hresiduals : s.residualAxis.Laid) (hgivens : s.givenAxis.Laid)
    (h : s.sensitivities out st = .ok blocks st') :
    s.givenAxis.leaves = [] ∨ ∃ j b x,
      s.residualAxis.packBlocks s.unknownAxis out.derivatives = .ok j ∧
      RightSide s.residualAxis s.givenAxis out.derivatives j b ∧
      s.linear.sensitivity j b = .ok x ∧
      s.unknownAxis.unpackBlocks s.givenAxis x = .ok blocks := by
  obtain ⟨_, _, -, h⟩ := Update.bind_eq_ok.1 h
  by_cases hempty : s.givenAxis.leaves.isEmpty = true
  · exact .inl (List.isEmpty_iff.1 hempty)
  · rw [if_neg hempty] at h
    obtain ⟨j, _, hj, h⟩ := Update.bind_eq_ok.1 h
    have hj' := (SolveError.lift_eq_ok.1 hj).1
    cases hpacked : s.residualAxis.packBlocks s.givenAxis out.derivatives with
    | ok b =>
      simp only [hpacked] at h
      obtain ⟨b', _, hb, h⟩ := Update.bind_eq_ok.1 h
      cases hb
      obtain ⟨x, hx, hblocks⟩ := exists_solved h
      exact .inr ⟨j, b, x, hj', .inl hpacked, hx, hblocks⟩
    | error e =>
      simp only [hpacked] at h
      cases e with
      | emptyAssembly =>
        obtain ⟨b, _, hb, h⟩ := Update.bind_eq_ok.1 h
        cases hb
        obtain ⟨x, hx, hblocks⟩ := exists_solved h
        exact .inr ⟨j, _, x, hj',
          .inr ⟨(packBlocks_eq_emptyAssembly hresiduals hgivens).1 hpacked, rfl⟩, hx, hblocks⟩
      | _ =>
        obtain ⟨_, _, hb, -⟩ := Update.bind_eq_ok.1 h
        cases hb

/-- A successful evaluation has solved the system for the given inputs, unpacked the solution
and found the sensitivities from the model's output there. -/
theorem evaluate_eq_ok {inputs : PathMap (Tensor α)}
    (h : s.evaluate inputs true st = .ok out st') :
    ∃ problem guess solved held,
      ModelSystem.onAxes s.model (inputs.filterKeys s.givenAxis.hasVariable) s.unknownAxis
        s.residualAxis = .ok problem ∧
      s.unknownAxis.pack inputs = .ok guess ∧
      s.solve problem.system guess ⟨s.model.invalidate st.model, none⟩ = .ok solved held ∧
      solved.outcome = .converged ∧ s.unknownAxis.unpack solved.value = .ok out.values ∧
      ∃ found μ₁ μ₂ st₁ st₂,
        s.model.evaluate ((inputs.filterKeys s.givenAxis.hasVariable).insertAll
          out.values.entries) true μ₁ = .ok found μ₂ ∧
        s.sensitivities found st₁ = .ok out.derivatives st₂ := by
  obtain ⟨_, _, hcheck, h₁⟩ := Update.bind_eq_ok.1 h
  obtain ⟨-, rfl⟩ := Update.lift_eq_ok.1 hcheck
  obtain ⟨_, _, hclear, h₂⟩ := Update.bind_eq_ok.1 h₁
  cases hclear
  obtain ⟨guess, _, hguess', h₃⟩ := Update.bind_eq_ok.1 h₂
  obtain ⟨hguess, rfl⟩ := SolveError.lift_eq_ok.1 hguess'
  obtain ⟨problem, _, hproblem', h₄⟩ := Update.bind_eq_ok.1 h₃
  obtain ⟨hproblem, rfl⟩ := Update.lift_eq_ok.1 hproblem'
  obtain ⟨solved, st₁, hsolved, h₅⟩ := Update.bind_eq_ok.1 h₄
  obtain ⟨held, hheld, rfl⟩ := Update.onPart_eq_ok.1 hsolved
  by_cases hconverged : solved.outcome ≠ .converged
  · rw [if_pos hconverged] at h₅
    cases h₅
  · rw [if_neg hconverged] at h₅
    obtain ⟨values, _, hvalues', h₆⟩ := Update.bind_eq_ok.1 h₅
    obtain ⟨hvalues, rfl⟩ := SolveError.lift_eq_ok.1 hvalues'
    obtain ⟨_, st₂, -, h₇⟩ := Update.bind_eq_ok.1 h₆
    obtain ⟨found, st₃, hfound, h₈⟩ := Update.bind_eq_ok.1 h₇
    obtain ⟨derivatives, st₄, hderivatives, h₉⟩ := Update.bind_eq_ok.1 h₈
    cases h₉
    obtain ⟨hmodel, hgiven, haxis⟩ := ModelSystem.onAxes_eq_ok hproblem
    obtain ⟨sys, hsys, -⟩ := Update.onPart_eq_ok.1 hfound
    obtain ⟨μ₂, hevaluate⟩ := ModelSystem.evaluate_after_set hsys (haxis ▸ hvalues)
    rw [hmodel, hgiven] at hevaluate
    exact ⟨problem, guess, solved, held, hproblem, hguess, hheld, not_not.1 hconverged, hvalues,
      found, _, μ₂, st₃, st', hevaluate, hderivatives⟩

/-- Without given variables there is nothing to differentiate by. With them, the derivatives
of the solution that a successful evaluation returns satisfy the equation of the implicit
function theorem. -/
theorem evaluate_implicit_function {α : Type} [Field α] [LinearOrder α] [IsStrictOrderedRing α]
    {model : Model μ α} (hinputs : model.inputAxis.Formed) (houtputs : model.outputAxis.Formed)
    {output : PathMap (Tensor α) → Bool → Except (SolveError α) (ModelOutput α)}
    (hmodel : ∀ inputs derivatives held,
      ((model.evaluate inputs derivatives).outcome held).1 = output inputs derivatives)
    {solve : NonlinearSystem (ModelSystem.State μ α) α → Tensor α →
      Update (SolveError α) (ModelSystem.State μ α) (Solution α)}
    {place : Placement} {s : ImplicitUpdate μ α}
    (hs : create model solve LinearSolver.dense place = .ok s) {inputs : PathMap (Tensor α)}
    {st st' : State μ α} {out : ModelOutput α} (h : s.evaluate inputs true st = .ok out st') :
    let given := inputs.filterKeys s.givenAxis.hasVariable
    (∃ problem guess solved held,
      ModelSystem.onAxes model given s.unknownAxis s.residualAxis = .ok problem ∧
      s.unknownAxis.pack inputs = .ok guess ∧
      solve problem.system guess ⟨model.invalidate st.model, none⟩ = .ok solved held ∧
      solved.outcome = .converged ∧ s.unknownAxis.unpack solved.value = .ok out.values ∧
      ∀ u ∈ s.unknownAxis.leaves, ∃ part, out.values.get? u.name = some part ∧
        Window solved.value solved.value.batch [] [] u.start u.storage [] part) ∧
    ∃ found, output (given.insertAll out.values.entries) true = .ok found ∧
      (s.givenAxis.leaves ≠ [] → ∃ batch,
        Shape.broadcastAll ((presentBlocks s.residualAxis s.unknownAxis found.derivatives ++
          presentBlocks s.residualAxis s.givenAxis found.derivatives).map (·.batch)) =
            .ok batch ∧
        (∀ u ∈ s.unknownAxis.leaves, ∀ g ∈ s.givenAxis.leaves, ∃ block,
          blockOf out.derivatives u g = some block ∧ block.batch = batch ∧ block.middle = [] ∧
            block.base = [u.storage, g.storage]) ∧
        ∀ k, Shape.InBounds batch k → ∀ r ∈ s.residualAxis.leaves, ∀ g ∈ s.givenAxis.leaves,
          ∀ i < r.storage, ∀ c < g.storage,
          (s.unknownAxis.leaves.map fun u => ∑ l ∈ Finset.range u.storage,
            partEntry (blockOf found.derivatives r u) k [i, l] *
              partEntry (blockOf out.derivatives u g) k [l, c]).sum =
            -partEntry (blockOf found.derivatives r g) k [i, c]) := by
  intro given
  obtain ⟨⟨hunknown, hresidual, hgiven⟩, rfl, rfl, hlinear⟩ := create_eq_ok hs
  have hu := (hinputs.subaxis hunknown).laid
  have hr := (houtputs.subaxis hresidual).laid
  have hg := hgiven.laid
  obtain ⟨problem, guess, solved, held, hproblem, hguess, hsolved, hconverged, hvalues, found,
    μ₁, μ₂, st₁, st₂, hfound, hderivatives⟩ := evaluate_eq_ok h
  refine ⟨⟨problem, guess, solved, held, hproblem, hguess, hsolved, hconverged, hvalues, ?_⟩,
    found, ?_, fun hne => ?_⟩
  · obtain ⟨hm, hbase⟩ := unpack_fits hvalues
    obtain ⟨parts, hparts, -, hwindows⟩ := exists_unpack hu hm hbase
    rw [hvalues] at hparts
    cases hparts
    exact hwindows
  · rw [← hmodel _ _ μ₁, Update.outcome, hfound]
  · rcases sensitivities_eq_ok hr hg hderivatives with hempty | ⟨j, b, x, hj, hb, hx, hblocks⟩
    · exact absurd hempty hne
    · rw [hlinear] at hx
      obtain ⟨n, m, batch, hsolves⟩ := LinearSolver.dense_solvesColumns hx
      obtain ⟨-, hn, hm⟩ := sizes_eq hr hu hg hj hb hsolves
      have hbase : x.base = [s.unknownAxis.size, s.givenAxis.size] := by
        rw [hn, hm]
        exact hsolves.base_eq
      obtain ⟨parts, hparts, -, hcut⟩ := exists_unpackBlocks hu hg hsolves.middle_eq hbase
      rw [hblocks] at hparts
      cases hparts
      refine ⟨batch, Shape.broadcastAll_eq_ok.2
        (isJoin_rightSide hr hu hg hj hb hsolves.broadcast), fun u hum g hgm => ?_,
        fun k hk r hrm g hgm i hi c hc =>
          sum_blocks_eq hr hu hg hj hb hsolves hcut hrm hgm hk hi hc⟩
      obtain ⟨block, hblock, hpart⟩ := hcut u hum g hgm
      exact ⟨block, hblock, hpart.batch_eq.trans hsolves.batch_eq, hpart.middle_eq,
        hpart.base_eq⟩

def balanceInputs : AxisPlan :=
  ((AxisPlan.declare "state/u" [] [2]).outcome
    ((AxisPlan.declare "g" [] [1]).outcome AxisPlan.empty).2).2

def balanceOutputs : AxisPlan :=
  ((AxisPlan.declare "residual/r" [] [2]).outcome AxisPlan.empty).2

theorem built_balanceInputs : balanceInputs.Built :=
  (AxisPlan.Built.empty.step (.ofVariable ..)).step (.ofVariable ..)

theorem built_balanceOutputs : balanceOutputs.Built :=
  AxisPlan.Built.empty.step (.ofVariable ..)

def balanceByUnknown : Tensor ℚ := ⟨[], [], [2, 2], #[2, 1, 1, 3], rfl⟩

def balanceByGiven : Tensor ℚ := ⟨[], [], [2, 1], #[-1, -1], rfl⟩

def balanceDerivatives : PathMap (PathMap (Tensor ℚ)) :=
  .ofList [("residual/r", .ofList [("g", balanceByGiven), ("state/u", balanceByUnknown)])]

/-- The residuals `2 u₀ + u₁ - g` and `u₀ + 3 u₁ - g` with their derivatives. -/
def balanceOutput (inputs : PathMap (Tensor ℚ)) : ModelOutput ℚ :=
  let u := fun i => partEntry (inputs.get? "state/u") [] [i]
  let g := partEntry (inputs.get? "g") [] [0]
  { values := .ofList [("residual/r",
      ⟨[], [], [2], #[2 * u 0 + u 1 - g, u 0 + 3 * u 1 - g], rfl⟩)]
    derivatives := balanceDerivatives }

def balanceModel : Model Unit ℚ where
  inputAxis := balanceInputs.freeze
  outputAxis := balanceOutputs.freeze
  evaluate := fun inputs _ => pure (balanceOutput inputs)
  invalidate := id

def balanceSolve (sys : NonlinearSystem (ModelSystem.State Unit ℚ) ℚ) (guess : Tensor ℚ) :
    Update (SolveError ℚ) (ModelSystem.State Unit ℚ) (Solution ℚ) :=
  (Newton.iteration ⟨.standard, LinearSolver.dense⟩).solve sys guess

def balanceAt : PathMap (Tensor ℚ) :=
  .ofList [("g", ⟨[], [], [1], #[5], rfl⟩), ("state/u", ⟨[], [], [2], #[0, 0], rfl⟩)]

def balanceUnknown : VariableLayout := ⟨"state/u", [], [2], 0⟩

def balanceGiven : VariableLayout := ⟨"g", [], [1], 0⟩

def balanceResidual : VariableLayout := ⟨"residual/r", [], [2], 0⟩

theorem exists_balance : ∃ s out st', create balanceModel balanceSolve LinearSolver.dense {} =
    .ok s ∧ s.evaluate balanceAt true (s.initialState ()) = .ok out st' ∧
      s.unknownAxis.leaves = [balanceUnknown] ∧ s.givenAxis.leaves = [balanceGiven] ∧
      s.residualAxis.leaves = [balanceResidual] := by
  obtain ⟨s, hs, hrun⟩ := Update.exists_of_toOption_map (c := true) (x := create balanceModel
    balanceSolve LinearSolver.dense {}) (f := fun s =>
      match s.evaluate balanceAt true (s.initialState ()) with
      | .ok _ _ => decide (s.unknownAxis.leaves = [balanceUnknown] ∧
        s.givenAxis.leaves = [balanceGiven] ∧ s.residualAxis.leaves = [balanceResidual])
      | .error _ _ => false) (by decide +kernel)
  cases hout : s.evaluate balanceAt true (s.initialState ()) with
  | error e st' => simp [hout] at hrun
  | ok out st' => exact ⟨s, out, st', hs, hout, by simpa [hout] using hrun⟩

def balanceResult (inputs : PathMap (Tensor ℚ)) (_ : Bool) :
    Except (SolveError ℚ) (ModelOutput ℚ) :=
  .ok (balanceOutput inputs)

theorem balanceModel_pure (inputs : PathMap (Tensor ℚ)) (derivatives : Bool) (held : Unit) :
    ((balanceModel.evaluate inputs derivatives).outcome held).1 =
      balanceResult inputs derivatives := rfl

theorem formed_balance : balanceModel.inputAxis.Formed ∧ balanceModel.outputAxis.Formed := by
  dsimp only [balanceModel]
  constructor
  · exact Axis.Formed.frozen built_balanceInputs
  · exact Axis.Formed.frozen built_balanceOutputs

theorem entries_balanceDerivatives :
    let byUnknown := partEntry (blockOf balanceDerivatives balanceResidual balanceUnknown) []
    let byGiven := partEntry (blockOf balanceDerivatives balanceResidual balanceGiven) []
    byUnknown [0, 0] = 2 ∧ byUnknown [0, 1] = 1 ∧ byUnknown [1, 0] = 1 ∧ byUnknown [1, 1] = 3 ∧
      byGiven [0, 0] = -1 ∧ byGiven [1, 0] = -1 :=
  ⟨rfl, rfl, rfl, rfl, rfl, rfl⟩

/-- The unknowns follow the given input at the rates `2 / 5` and `1 / 5`. -/
theorem balance_implicit_function : ∃ s out st',
    create balanceModel balanceSolve LinearSolver.dense {} = .ok s ∧
    s.evaluate balanceAt true (s.initialState ()) = .ok out st' ∧
    partEntry (blockOf out.derivatives balanceUnknown balanceGiven) [] [0, 0] = 2 / 5 ∧
    partEntry (blockOf out.derivatives balanceUnknown balanceGiven) [] [1, 0] = 1 / 5 := by
  obtain ⟨s, out, st', hs, h, hu, hg, hr⟩ := exists_balance
  obtain ⟨hin, hout⟩ := formed_balance
  obtain ⟨-, found, hfound, hblocks⟩ :=
    evaluate_implicit_function hin hout balanceModel_pure hs h
  rw [hu, hg, hr] at hblocks
  injection hfound with hfound
  subst hfound
  obtain ⟨batch, hbatch, -, heq⟩ := hblocks (by simp)
  have hderivatives : (balanceOutput ((balanceAt.filterKeys s.givenAxis.hasVariable).insertAll
      out.values.entries)).derivatives = balanceDerivatives := rfl
  rw [hderivatives] at heq hbatch
  have hblocks : presentBlocks s.residualAxis s.unknownAxis balanceDerivatives ++
      presentBlocks s.residualAxis s.givenAxis balanceDerivatives =
        [balanceByUnknown, balanceByGiven] := by
    unfold presentBlocks
    rw [hu, hg, hr]
    rfl
  rw [hblocks] at hbatch
  cases hbatch
  have h₀ := heq [] trivial balanceResidual (by simp) balanceGiven (by simp) 0 (by decide) 0
    (by decide)
  have h₁ := heq [] trivial balanceResidual (by simp) balanceGiven (by simp) 1 (by decide) 0
    (by decide)
  have hstorage : balanceUnknown.storage = 2 := rfl
  rw [List.map_singleton, List.sum_singleton, hstorage, Finset.sum_range_succ,
    Finset.sum_range_one] at h₀ h₁
  obtain ⟨h₀₀, h₀₁, h₁₀, h₁₁, hg₀, hg₁⟩ := entries_balanceDerivatives
  rw [h₀₀, h₀₁, hg₀] at h₀
  rw [h₁₀, h₁₁, hg₁] at h₁
  exact ⟨s, out, st', hs, h, by linarith, by linarith⟩

end ImplicitUpdate

end TieredCalculus
