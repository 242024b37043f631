import TieredCalculus.Proofs.Model.Outputs

/-! # Outputs after an evaluation

An evaluation clears the outputs, converges, stores the values, and only then evaluates the
model once more and stores the sensitivities. Everything else leaves the outputs untouched, and
both times every output accepts what it is given, so how an evaluation ends decides what its
outputs hold.
-/

namespace TieredCalculus.ImplicitUpdate

open Axis Tensor

variable {μ α β : Type}

/-- The outputs of the state are those of the unknowns. -/
def Keeps (s : ImplicitUpdate μ α) (st : State μ α) : Prop :=
  List.Forall₂ (OutputOf s.givenAxis.leaves) s.unknownAxis.leaves st.outputs

/-! ## Stages -/

/-- Runs an update of a system on the state of the model. -/
def onModel (x : Update (SolveError α) (ModelSystem.State μ α) β) :
    Update (SolveError α) (State μ α) β :=
  Update.onPart (fun st : State μ α => ⟨st.model, none⟩)
    (fun st sys => { st with model := sys.model }) x

section Stages

variable [Zero α]

/-- Solves for the unknowns, and returns the problem, its solution and the parts of it. -/
def settle (s : ImplicitUpdate μ α) (inputs : PathMap (Tensor α)) :
    Update (SolveError α) (State μ α) (ModelSystem μ α × Tensor α × PathMap (Tensor α)) := do
  let guess ← s.unknownAxis.pack inputs
  let problem ← ModelSystem.onAxes s.model (inputs.filterKeys s.givenAxis.hasVariable)
    s.unknownAxis s.residualAxis
  let solved ← onModel (s.solve problem.system guess)
  if solved.outcome ≠ .converged then
    throw (.notConverged solved.iterations)
  let values ← s.unknownAxis.unpack solved.value
  return (problem, solved.value, values)

/-- An evaluation up to the values. -/
def converge (s : ImplicitUpdate μ α) (inputs : PathMap (Tensor α)) :
    Update (SolveError α) (State μ α) (ModelSystem μ α × Tensor α × PathMap (Tensor α)) := do
  s.checkInputs inputs
  modify fun st => ⟨s.model.invalidate st.model, st.outputs.map Variable.clear⟩
  let found ← s.settle inputs
  onOutputs (storeValues found.2.2)
  return found

/-- The sensitivities at a solution, from the model's output there. -/
def blocksAt (s : ImplicitUpdate μ α) (out : ModelOutput α) :
    Except (SolveError α) (PathMap (PathMap (Tensor α))) := do
  let _ ← s.residualAxis.pack out.values
  if s.givenAxis.leaves.isEmpty then
    return .empty
  let j ← s.residualAxis.packBlocks s.unknownAxis out.derivatives
  let b ← match s.residualAxis.packBlocks s.givenAxis out.derivatives with
    | .error .emptyAssembly =>
      pure (Tensor.zeros j.batch [] [s.residualAxis.size, s.givenAxis.size])
    | packed => packed
  let x ← s.linear.sensitivity j b
  s.unknownAxis.unpackBlocks s.givenAxis x

/-- An evaluation after the values, up to the sensitivities. -/
def differentiate (s : ImplicitUpdate μ α) (problem : ModelSystem μ α) (u : Tensor α) :
    Update (SolveError α) (State μ α) (PathMap (PathMap (Tensor α))) := do
  let out ← onModel do
    problem.system.setSolution u
    problem.evaluate true
  s.blocksAt out

def storeBlocks (s : ImplicitUpdate μ α) (blocks : PathMap (PathMap (Tensor α))) :
    Update (SolveError α) (State μ α) Unit :=
  onOutputs (changeEach (storeSensitivities blocks (s.givenAxis.leaves.map quantityOf)))

omit [Zero α] in
theorem changeEach_pure (ys : List (Variable α)) :
    changeEach (fun _ => (pure () : Update TensorError (Variable α) Unit)) ys = .ok () ys := by
  induction ys with
  | nil => rw [changeEach]
  | cons y ys ih =>
    rw [changeEach_cons, Update.pure_apply]
    simp only [ih]

theorem storeBlocks_of_nil {s : ImplicitUpdate μ α} (h : s.givenAxis.leaves = [])
    (blocks : PathMap (PathMap (Tensor α))) : s.storeBlocks blocks = pure () := by
  have hchange : changeEach (storeSensitivities blocks (s.givenAxis.leaves.map quantityOf)) =
      pure () := by
    rw [h]
    exact funext changeEach_pure
  unfold storeBlocks onOutputs
  rw [hchange]
  rfl

omit [Zero α] in
private theorem lift_bind_bind {σ ε γ δ : Type} (x : Except ε β) (f : β → Except ε γ)
    (k : γ → Update ε σ δ) :
    ((liftM (x >>= f) : Update ε σ γ) >>= k) =
      (liftM x : Update ε σ β) >>= fun b => (liftM (f b) : Update ε σ γ) >>= k := by
  cases x <;> rfl

theorem sensitivities_eq (s : ImplicitUpdate μ α) (out : ModelOutput α) :
    s.sensitivities out = (do
      let blocks ← s.blocksAt out
      s.storeBlocks blocks
      return blocks) := by
  unfold sensitivities blocksAt
  rw [lift_bind_bind]
  refine bind_congr fun _ => ?_
  by_cases hempty : s.givenAxis.leaves.isEmpty = true
  · have hstore := storeBlocks_of_nil (List.isEmpty_iff.1 hempty) (.empty : PathMap _)
    rw [if_pos hempty, if_pos hempty]
    exact (congrArg (· >>= fun _ => pure PathMap.empty) hstore).symm
  · rw [if_neg hempty, if_neg hempty, lift_bind_bind]
    refine bind_congr fun j => ?_
    cases s.residualAxis.packBlocks s.givenAxis out.derivatives with
    | ok b =>
      rw [lift_bind_bind]
      refine bind_congr fun b => ?_
      rw [lift_bind_bind]
      rfl
    | error e =>
      cases e with
      | emptyAssembly =>
        simp only [pure_bind, lift_bind_bind]
        rfl
      | _ => rfl

/-- An evaluation converges, and where derivatives are asked for it differentiates and stores
the sensitivities afterwards. -/
theorem evaluate_eq (s : ImplicitUpdate μ α) (inputs : PathMap (Tensor α)) (derivatives : Bool) :
    s.evaluate inputs derivatives = (do
      let (problem, u, values) ← s.converge inputs
      if derivatives then
        let blocks ← s.differentiate problem u
        s.storeBlocks blocks
        return ⟨values, blocks⟩
      else return ⟨values, .empty⟩) := by
  unfold evaluate converge settle differentiate onModel
  simp only [bind_assoc, pure_bind, sensitivities_eq]
  refine bind_congr fun _ => bind_congr fun _ => bind_congr fun guess => bind_congr fun problem =>
    bind_congr fun solved => ?_
  split
  · rfl
  · simp only [bind_assoc, pure_bind]

end Stages

/-! ## Untouched outputs -/

/-- The update leaves the outputs as they are, also where it fails. -/
def Untouched (x : Update (SolveError α) (State μ α) β) : Prop :=
  ∀ st, (x.outcome st).2.outputs = st.outputs

section Untouched

variable {γ : Type} {x : Update (SolveError α) (State μ α) β} {st st' : State μ α}

theorem Untouched.of_ok (h : Untouched x) {b : β} (hx : x st = .ok b st') :
    st'.outputs = st.outputs := by
  have hst := h st
  rwa [Update.outcome, hx] at hst

theorem Untouched.of_error (h : Untouched x) {e : SolveError α} (hx : x st = .error e st') :
    st'.outputs = st.outputs := by
  have hst := h st
  rwa [Update.outcome, hx] at hst

theorem untouched_lift (y : Except (SolveError α) β) :
    Untouched (liftM y : Update (SolveError α) (State μ α) β) := by
  intro st
  cases y <;> rfl

theorem untouched_liftTensor (y : Except TensorError β) :
    Untouched (liftM y : Update (SolveError α) (State μ α) β) :=
  untouched_lift (SolveError.ofTensor y)

theorem untouched_onModel (y : Update (SolveError α) (ModelSystem.State μ α) β) :
    Untouched (onModel y : Update (SolveError α) (State μ α) β) := by
  intro st
  unfold Update.outcome onModel Update.onPart
  cases y ⟨st.model, none⟩ <;> rfl

theorem Untouched.bind (hx : Untouched x) {f : β → Update (SolveError α) (State μ α) γ}
    (hf : ∀ b, Untouched (f b)) : Untouched (x >>= f) := by
  intro st
  unfold Update.outcome
  rw [Update.bind_apply]
  cases h : x st with
  | ok b st' => exact (hf b st').trans (hx.of_ok h)
  | error e st' => exact hx.of_error h

variable [Zero α]

theorem untouched_settle (s : ImplicitUpdate μ α) (inputs : PathMap (Tensor α)) :
    Untouched (s.settle inputs) := by
  unfold settle
  refine (untouched_liftTensor _).bind fun guess => ?_
  refine (untouched_lift _).bind fun problem => ?_
  refine (untouched_onModel _).bind fun solved => ?_
  split
  · exact fun st => rfl
  · exact (untouched_liftTensor _).bind fun values st => rfl

theorem untouched_differentiate (s : ImplicitUpdate μ α) (problem : ModelSystem μ α)
    (u : Tensor α) : Untouched (s.differentiate problem u) :=
  (untouched_onModel _).bind fun _ => untouched_lift _

end Untouched

/-! ## Stored results -/

variable {s : ImplicitUpdate μ α} {st st' : State μ α} {values : PathMap (Tensor α)}
  {blocks : PathMap (PathMap (Tensor α))}

theorem onOutputs_eq_ok {change : Update TensorError (List (Variable α)) Unit} :
    onOutputs change st = .ok () st' ↔
      ∃ ys, change st.outputs = .ok () ys ∧ st' = { st with outputs := ys } := by
  unfold onOutputs
  rw [Update.onPart_eq_ok]
  simp only [Update.mapError_eq_ok]

variable [Zero α]

/-- The value of the variable is what the map has under its name. -/
def HoldsValue (values : PathMap (Tensor α)) (y : Variable α) : Prop :=
  ∃ value, values.get? y.name = some value ∧ y.assembledValue = .ok value

/-- An output with a value of its own and no derivatives. -/
structure Bare (s : ImplicitUpdate μ α) (values : PathMap (Tensor α)) (u : VariableLayout)
    (y : Variable α) : Prop extends OutputOf s.givenAxis.leaves u y where
  value : HoldsValue values y
  bare : Underived y

/-- Blocks for each pair of an unknown and a given variable, in rows without other names. -/
structure Fits (s : ImplicitUpdate μ α) (blocks : PathMap (PathMap (Tensor α))) : Prop where
  block : ∀ u ∈ s.unknownAxis.leaves, ∀ g ∈ s.givenAxis.leaves, ∃ block,
    blockOf blocks u g = some block ∧ block.middle = [] ∧ block.base = [u.storage, g.storage]
  names : ∀ u ∈ s.unknownAxis.leaves, ∀ p, ((rowOf blocks u).get? p).isSome →
    p ∈ s.givenAxis.names
  empty : s.givenAxis.leaves = [] → blocks = .empty

theorem exists_storeValues (hst : s.Keeps st) (hbare : ∀ y ∈ st.outputs, Underived y)
    (hvalues : ∀ u ∈ s.unknownAxis.leaves, ∃ part, values.get? u.name = some part ∧
      part.middle = [] ∧ part.base = [u.storage]) :
    ∃ st', onOutputs (storeValues values) st = .ok () st' ∧
      List.Forall₂ (s.Bare values) s.unknownAxis.leaves st'.outputs := by
  have hys : List.Forall₂ (fun u y => OutputOf s.givenAxis.leaves u y ∧ Underived y)
      s.unknownAxis.leaves st.outputs := by
    refine List.forall₂_iff_zip.2 ⟨hst.length_eq, fun {u y} hmem => ?_⟩
    exact ⟨List.forall₂_zip hst hmem, hbare y (List.of_mem_zip hmem).2⟩
  obtain ⟨ys, hstore, hheld⟩ : ∃ ys, storeValues values st.outputs = .ok () ys ∧
      List.Forall₂ (s.Bare values) s.unknownAxis.leaves ys := by
    refine exists_changeEach _ (fun u hu y hy => ?_) hys
    obtain ⟨part, hpart, hm, hbase⟩ := hvalues u hu
    obtain ⟨v, hset, hassembled⟩ := hy.1.exists_setAssembledValue hm hbase
    rw [← hy.1.name_eq] at hpart
    refine ⟨{ y with value := some v }, ?_, ⟨hy.1.quantity_eq, hy.1.declared⟩,
      ⟨part, hpart, hassembled⟩, hy.2⟩
    rw [hpart]
    exact hset
  exact ⟨_, onOutputs_eq_ok.2 ⟨ys, hstore, rfl⟩, hheld⟩

theorem HoldsValue.of_eq {y y' : Variable α} (h : HoldsValue values y)
    (hq : y'.quantity = y.quantity) (hv : y'.value = y.value) : HoldsValue values y' := by
  obtain ⟨value, hvalue, hassembled⟩ := h
  unfold HoldsValue Variable.assembledValue Variable.name
  rw [hq, hv]
  exact ⟨value, hvalue, hassembled⟩

/-- An output with a value of its own and a derivative for each block of its row. -/
structure Derived (s : ImplicitUpdate μ α) (out : ModelOutput α) (u : VariableLayout)
    (y : Variable α) : Prop extends OutputOf s.givenAxis.leaves u y where
  value : HoldsValue out.values y
  blocks : ∀ g ∈ s.givenAxis.leaves, ∃ block d, blockOf out.derivatives u g = some block ∧
    y.first.get? g.name = some d ∧ HoldsBlock u g block d

theorem exists_storeBlocks (hnames : s.givenAxis.names.Nodup) (hfits : s.Fits blocks)
    (hst : List.Forall₂ (s.Bare values) s.unknownAxis.leaves st.outputs) :
    ∃ st', s.storeBlocks blocks st = .ok () st' ∧
      List.Forall₂ (s.Derived ⟨values, blocks⟩) s.unknownAxis.leaves st'.outputs := by
  obtain ⟨ys, hstore, hheld⟩ := exists_changeEach (Q := s.Derived ⟨values, blocks⟩)
    (storeSensitivities blocks (s.givenAxis.leaves.map quantityOf)) (fun u hu y hy => by
      obtain ⟨y', hchange, hout, hvalue, hblocks, -⟩ := hy.toOutputOf.exists_storeSensitivities
        hy.quantity_eq hnames (List.Sublist.refl _) (hfits.block u hu)
      refine ⟨y', hchange, hout, ?_, hblocks⟩
      exact hy.value.of_eq (hout.quantity_eq.trans hy.quantity_eq.symm) hvalue) hst
  exact ⟨_, onOutputs_eq_ok.2 ⟨ys, hstore, rfl⟩, hheld⟩

/-! ## Runs of an evaluation -/

section Runs

variable {inputs : PathMap (Tensor α)} {out : ModelOutput α} {e : SolveError α}

omit [Zero α] in
theorem checkInputs_eq_error :
    s.checkInputs inputs = .error e ↔ ∃ v, ((s.unknownAxis.leaves ++ s.givenAxis.leaves).find?
      fun v => !inputs.contains v.name) = some v ∧ e = .missingInput v.name := by
  unfold checkInputs
  cases (s.unknownAxis.leaves ++ s.givenAxis.leaves).find? fun v => !inputs.contains v.name with
  | none => simp
  | some v => simp [eq_comm]

omit [Zero α] in
theorem Keeps.cleared (hst : s.Keeps st) (m : μ) :
    s.Keeps ⟨m, st.outputs.map Variable.clear⟩ :=
  List.forall₂_map_right_iff.2 (hst.imp fun _ _ h => h.clear)

theorem parts_of_unpack {axis : Axis} (haxis : axis.Laid) {u : Tensor α}
    (h : axis.unpack u = .ok values) : ∀ v ∈ axis.leaves, ∃ part,
      values.get? v.name = some part ∧ part.middle = [] ∧ part.base = [v.storage] := by
  obtain ⟨hm, hbase⟩ := unpack_fits h
  obtain ⟨parts, hparts, -, hwindows⟩ := exists_unpack haxis hm hbase
  rw [h] at hparts
  cases hparts
  intro v hv
  obtain ⟨part, hpart, hwindow⟩ := hwindows v hv
  exact ⟨part, hpart, hwindow.middle_eq, hwindow.base_eq⟩

theorem settle_eq_ok {found : ModelSystem μ α × Tensor α × PathMap (Tensor α)}
    (h : s.settle inputs st = .ok found st') :
    (∃ guess, s.unknownAxis.pack inputs = .ok guess) ∧
      s.unknownAxis.unpack found.2.1 = .ok found.2.2 := by
  obtain ⟨guess, _, hguess, h₁⟩ := Update.bind_eq_ok.1 h
  obtain ⟨problem, _, -, h₂⟩ := Update.bind_eq_ok.1 h₁
  obtain ⟨solved, _, -, h₃⟩ := Update.bind_eq_ok.1 h₂
  refine ⟨⟨guess, (SolveError.lift_eq_ok.1 hguess).1⟩, ?_⟩
  by_cases hconverged : solved.outcome ≠ .converged
  · rw [if_pos hconverged] at h₃
    cases h₃
  · rw [if_neg hconverged] at h₃
    obtain ⟨values, _, hvalues, h₄⟩ := Update.bind_eq_ok.1 h₃
    cases h₄
    exact (SolveError.lift_eq_ok.1 hvalues).1

theorem leaves_ne_nil_of_pack {axis : Axis} {u : Tensor α} (h : axis.pack inputs = .ok u) :
    axis.leaves ≠ [] := by
  intro hnil
  unfold Axis.pack at h
  rw [hnil] at h
  cases h

theorem exists_stored (hu : s.unknownAxis.Laid) (hst : s.Keeps st) {m : μ} {st₁ : State μ α}
    {found : ModelSystem μ α × Tensor α × PathMap (Tensor α)}
    (h : s.settle inputs ⟨m, st.outputs.map Variable.clear⟩ = .ok found st₁) :
    ∃ st', onOutputs (storeValues found.2.2) st₁ = .ok () st' ∧
      List.Forall₂ (s.Bare found.2.2) s.unknownAxis.leaves st'.outputs := by
  have houtputs := (untouched_settle s inputs).of_ok h
  have hkept : s.Keeps st₁ := by
    unfold Keeps
    rw [houtputs]
    exact hst.cleared m
  refine exists_storeValues hkept (fun y hy => ?_) (parts_of_unpack hu (settle_eq_ok h).2)
  rw [houtputs] at hy
  obtain ⟨y', -, rfl⟩ := List.mem_map.1 hy
  exact (undefined_clear y').2

/-- Before it has converged, an evaluation fails at the first missing input with everything as
it was, or after the outputs have been cleared. -/
theorem converge_eq_error (hu : s.unknownAxis.Laid) (hst : s.Keeps st)
    (h : s.converge inputs st = .error e st') :
    (∃ v ∈ s.unknownAxis.leaves ++ s.givenAxis.leaves, inputs.get? v.name = none ∧
      e = .missingInput v.name ∧ st' = st) ∨ st'.outputs = st.outputs.map Variable.clear := by
  unfold converge at h
  cases hcheck : s.checkInputs inputs with
  | error e' =>
    rw [hcheck, Update.lift_error_bind_apply] at h
    cases h
    obtain ⟨v, hv, rfl⟩ := checkInputs_eq_error.1 hcheck
    have hmissing := List.find?_some hv
    rw [Bool.not_eq_true', PathMap.contains, Option.isSome_eq_false_iff, Option.isNone_iff_eq_none]
      at hmissing
    exact .inl ⟨v, List.mem_of_find?_eq_some hv, hmissing, rfl, rfl⟩
  | ok _ =>
    rw [hcheck, Update.lift_ok_bind] at h
    rcases Update.bind_eq_error.1 h with hmodify | ⟨_, _, hmodify, h₁⟩
    · cases hmodify
    cases hmodify
    rcases Update.bind_eq_error.1 h₁ with hsettle | ⟨found, st₁, hsettle, h₂⟩
    · exact .inr ((untouched_settle s inputs).of_error hsettle)
    obtain ⟨st₂, hstore, -⟩ := exists_stored hu hst hsettle
    rcases Update.bind_eq_error.1 h₂ with hfail | ⟨_, _, -, h₃⟩
    · rw [hstore] at hfail
      cases hfail
    · cases h₃

theorem converge_eq_ok (hu : s.unknownAxis.Laid) (hst : s.Keeps st)
    {found : ModelSystem μ α × Tensor α × PathMap (Tensor α)}
    (h : s.converge inputs st = .ok found st') :
    s.unknownAxis.leaves ≠ [] ∧
      List.Forall₂ (s.Bare found.2.2) s.unknownAxis.leaves st'.outputs := by
  obtain ⟨_, _, hcheck, h₁⟩ := Update.bind_eq_ok.1 h
  obtain ⟨-, rfl⟩ := Update.lift_eq_ok.1 hcheck
  obtain ⟨_, _, hclear, h₂⟩ := Update.bind_eq_ok.1 h₁
  cases hclear
  obtain ⟨found', st₁, hsettle, h₃⟩ := Update.bind_eq_ok.1 h₂
  obtain ⟨_, st₂, hstore, h₄⟩ := Update.bind_eq_ok.1 h₃
  cases h₄
  obtain ⟨st₃, hstore', hbare⟩ := exists_stored hu hst hsettle
  rw [hstore] at hstore'
  cases hstore'
  obtain ⟨⟨guess, hguess⟩, -⟩ := settle_eq_ok hsettle
  exact ⟨leaves_ne_nil_of_pack hguess, hbare⟩

omit [Zero α] in
theorem fits_empty (h : s.givenAxis.leaves = []) : s.Fits (.empty : PathMap (PathMap (Tensor α))) where
  block := fun u _ g hg => by
    rw [h] at hg
    cases hg
  names := fun u _ p hp => by cases hp
  empty := fun _ => rfl

theorem fits_of_unpackBlocks (hu : s.unknownAxis.Laid) (hg : s.givenAxis.Laid) {x : Tensor α}
    (hne : s.givenAxis.leaves ≠ []) (h : s.unknownAxis.unpackBlocks s.givenAxis x = .ok blocks) :
    s.Fits blocks := by
  obtain ⟨_, hcheck, -⟩ := Update.except_bind_eq_ok.1 h
  obtain ⟨hm, hbase⟩ := checkPart_eq_ok.1 hcheck
  obtain ⟨rows, hrows, -, hfound⟩ := exists_unpackRows hu hg hm hbase
  rw [h] at hrows
  cases hrows
  refine ⟨fun u hum g hgm => ?_, fun u hum p hp => ?_, fun hnil => absurd hnil hne⟩
  · obtain ⟨row, hrow, hisRow⟩ := hfound u hum
    obtain ⟨block, hblock, hcut⟩ := hisRow.blocks g hgm
    refine ⟨block, ?_, hcut.middle_eq, hcut.base_eq⟩
    unfold blockOf
    rw [hrow]
    exact hblock
  · obtain ⟨row, hrow, hisRow⟩ := hfound u hum
    unfold rowOf at hp
    rw [hrow] at hp
    exact hisRow.names hp

theorem fits_of_blocksAt (hu : s.unknownAxis.Laid) (hg : s.givenAxis.Laid)
    (h : s.blocksAt out = .ok blocks) : s.Fits blocks := by
  obtain ⟨_, -, h⟩ := Update.except_bind_eq_ok.1 h
  by_cases hempty : s.givenAxis.leaves.isEmpty = true
  · rw [if_pos hempty] at h
    cases h
    exact fits_empty (List.isEmpty_iff.1 hempty)
  · rw [if_neg hempty] at h
    have hne : s.givenAxis.leaves ≠ [] := fun hnil => hempty (List.isEmpty_iff.2 hnil)
    obtain ⟨j, -, h⟩ := Update.except_bind_eq_ok.1 h
    have hlast : ∀ {b : Tensor α}, (do
        let x ← s.linear.sensitivity j b
        s.unknownAxis.unpackBlocks s.givenAxis x : Except (SolveError α) _) = .ok blocks →
          s.Fits blocks := by
      intro b hb
      obtain ⟨x, -, hx⟩ := Update.except_bind_eq_ok.1 hb
      exact fits_of_unpackBlocks hu hg hne (SolveError.ofTensor_eq_ok.1 hx)
    cases hpacked : s.residualAxis.packBlocks s.givenAxis out.derivatives with
    | ok b =>
      simp only [hpacked] at h
      obtain ⟨b', -, h⟩ := Update.except_bind_eq_ok.1 h
      exact hlast h
    | error e =>
      simp only [hpacked] at h
      cases e with
      | emptyAssembly =>
        obtain ⟨b', -, h⟩ := Update.except_bind_eq_ok.1 h
        exact hlast h
      | _ =>
        obtain ⟨b', hb, -⟩ := Update.except_bind_eq_ok.1 h
        cases hb

theorem fits_of_differentiate (hu : s.unknownAxis.Laid) (hg : s.givenAxis.Laid)
    {problem : ModelSystem μ α} {u : Tensor α}
    (h : s.differentiate problem u st = .ok blocks st') : s.Fits blocks := by
  obtain ⟨out, _, -, hblocks⟩ := Update.bind_eq_ok.1 h
  exact fits_of_blocksAt hu hg (Update.lift_eq_ok.1 hblocks).1

/-- An evaluation that returns has converged and, where derivatives were asked for, has stored
a fitting block for each pair. -/
theorem outputs_of_evaluate (hu : s.unknownAxis.Laid) (hg : s.givenAxis.Laid) (hst : s.Keeps st)
    {derivatives : Bool} (h : s.evaluate inputs derivatives st = .ok out st') :
    derivatives = false ∧ out.derivatives = .empty ∧
        List.Forall₂ (s.Bare out.values) s.unknownAxis.leaves st'.outputs ∨
      derivatives = true ∧ s.Fits out.derivatives ∧
        List.Forall₂ (s.Derived out) s.unknownAxis.leaves st'.outputs := by
  rw [evaluate_eq] at h
  obtain ⟨found, st₁, hconverge, h₁⟩ := Update.bind_eq_ok.1 h
  obtain ⟨-, hbare⟩ := converge_eq_ok hu hst hconverge
  cases derivatives with
  | false =>
    cases h₁
    exact .inl ⟨rfl, rfl, hbare⟩
  | true =>
    obtain ⟨blocks, st₂, hblocks, h₂⟩ := Update.bind_eq_ok.1 h₁
    obtain ⟨_, st₃, hstore, h₃⟩ := Update.bind_eq_ok.1 h₂
    cases h₃
    have hfits := fits_of_differentiate hu hg hblocks
    rw [← (untouched_differentiate s _ _).of_ok hblocks] at hbare
    obtain ⟨st₄, hstore', hderived⟩ := exists_storeBlocks hg.nodup_names hfits hbare
    rw [hstore] at hstore'
    cases hstore'
    exact .inr ⟨rfl, hfits, hderived⟩

theorem evaluate_eq_error (hu : s.unknownAxis.Laid) (hg : s.givenAxis.Laid) (hst : s.Keeps st)
    {derivatives : Bool} (h : s.evaluate inputs derivatives st = .error e st') :
    s.converge inputs st = .error e st' ∨ derivatives = true ∧ ∃ found st₁,
      s.converge inputs st = .ok found st₁ ∧ st'.outputs = st₁.outputs := by
  rw [evaluate_eq] at h
  rcases Update.bind_eq_error.1 h with hconverge | ⟨found, st₁, hconverge, h₁⟩
  · exact .inl hconverge
  refine .inr ?_
  obtain ⟨-, hbare⟩ := converge_eq_ok hu hst hconverge
  cases derivatives with
  | false => cases h₁
  | true =>
    refine ⟨rfl, found, st₁, hconverge, ?_⟩
    rcases Update.bind_eq_error.1 h₁ with hfail | ⟨blocks, st₂, hblocks, h₂⟩
    · exact (untouched_differentiate s _ _).of_error hfail
    rw [← (untouched_differentiate s _ _).of_ok hblocks] at hbare
    obtain ⟨st₃, hstore, -⟩ :=
      exists_storeBlocks hg.nodup_names (fits_of_differentiate hu hg hblocks) hbare
    rcases Update.bind_eq_error.1 h₂ with hfail | ⟨_, _, -, h₃⟩
    · rw [hstore] at hfail
      cases hfail
    · cases h₃

theorem Keeps.evaluate (hu : s.unknownAxis.Laid) (hg : s.givenAxis.Laid) (hst : s.Keeps st)
    (inputs : PathMap (Tensor α)) (derivatives : Bool) :
    s.Keeps ((s.evaluate inputs derivatives).outcome st).2 := by
  unfold Update.outcome
  cases h : s.evaluate inputs derivatives st with
  | ok out st' =>
    rcases outputs_of_evaluate hu hg hst h with ⟨-, -, hbare⟩ | ⟨-, -, hderived⟩
    · exact hbare.imp fun _ _ hy => hy.toOutputOf
    · exact hderived.imp fun _ _ hy => hy.toOutputOf
  | error e st' =>
    unfold Keeps
    rcases evaluate_eq_error hu hg hst h with hconverge | ⟨-, found, st₁, hconverge, houtputs⟩
    · rcases converge_eq_error hu hst hconverge with ⟨v, -, -, -, rfl⟩ | hclear
      · exact hst
      · dsimp only
        rw [hclear]
        exact hst.cleared st.model
    · dsimp only
      rw [houtputs]
      exact (converge_eq_ok hu hst hconverge).2.imp fun _ _ hy => hy.toOutputOf

end Runs

end TieredCalculus.ImplicitUpdate
