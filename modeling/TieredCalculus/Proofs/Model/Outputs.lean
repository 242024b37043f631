import TieredCalculus.Proofs.Assembly.Blocks
import TieredCalculus.Proofs.Assembly.RoundTrip
import TieredCalculus.Proofs.Derivative.ChainRule
import TieredCalculus.Proofs.Model.ImplicitFunction

/-! # Output variables of an implicit update

The outputs of an implicit update are variables that it reuses from call to call. Whatever
earlier calls left behind, each stays an output of its unknown: all its dimensions are
intrinsic, and its derivatives are declared dense, by given inputs only. Parts of a solution
and blocks of a matrix of sensitivities are therefore always accepted, and assembled back they
are what was stored.
-/

namespace TieredCalculus

open Axis Tensor

variable {μ α : Type}

/-! ## Updates of parts, lists and maps -/

namespace Update

variable {ε σ β : Type}

theorem mapError_eq_ok {ε' : Type} {f : ε → ε'} {x : Update ε σ β} {s s' : σ} {b : β} :
    x.mapError f s = .ok b s' ↔ x s = .ok b s' := by
  unfold mapError
  cases x s <;> simp

theorem exists_mapM_entries {β γ : Type} {entries : List (Path × β)}
    {f : Path × β → Except ε (Path × γ)} {row : PathMap γ} (hnodup : (entries.map (·.1)).Nodup)
    (hf : ∀ e ∈ entries, ∃ x, row.get? e.1 = some x ∧ f e = .ok (e.1, x))
    (hrow : ∀ p, (row.get? p).isSome → p ∈ entries.map (·.1)) :
    ∃ ys, entries.mapM f = .ok ys ∧ PathMap.ofList ys = row := by
  have hys : ∃ ys, entries.mapM f = .ok ys ∧ ys.map (·.1) = entries.map (·.1) ∧
      ∀ y ∈ ys, row.get? y.1 = some y.2 := by
    clear hnodup hrow
    induction entries with
    | nil => exact ⟨[], rfl, rfl, fun y hy => by cases hy⟩
    | cons e entries ih =>
      obtain ⟨x, hx, hfe⟩ := hf e List.mem_cons_self
      obtain ⟨ys, hys, hkeys, hall⟩ := ih fun e' he' => hf e' (List.mem_cons_of_mem e he')
      refine ⟨(e.1, x) :: ys, ?_, ?_, List.forall_mem_cons.2 ⟨hx, hall⟩⟩
      · rw [List.mapM_cons]
        exact except_bind_eq_ok.2 ⟨_, hfe, except_bind_eq_ok.2 ⟨ys, hys, rfl⟩⟩
      · rw [List.map_cons, List.map_cons, hkeys]
  obtain ⟨ys, hmap, hkeys, hall⟩ := hys
  rw [← hkeys] at hnodup hrow
  refine ⟨ys, hmap, PathMap.ext_get? fun p => ?_⟩
  by_cases hp : p ∈ ys.map (·.1)
  · obtain ⟨⟨q, x⟩, hmem, rfl⟩ := List.mem_map.1 hp
    rw [PathMap.get?_ofList_of_mem hnodup hmem, hall _ hmem]
  · rw [PathMap.get?_ofList_of_notMem hp]
    exact (Option.not_isSome_iff_eq_none.1 fun hsome => hp (hrow p hsome)).symm

end Update

namespace ImplicitUpdate

theorem changeEach_cons (change : Variable α → Update TensorError (Variable α) Unit)
    (y : Variable α) (ys : List (Variable α)) :
    changeEach change (y :: ys) = match change y y with
      | .error e y => .error e (y :: ys)
      | .ok _ y =>
        match changeEach change ys with
        | .ok _ ys => .ok () (y :: ys)
        | .error e ys => .error e (y :: ys) :=
  (changeEach.eq_def change (y :: ys)).trans rfl

theorem exists_changeEach (change : Variable α → Update TensorError (Variable α) Unit)
    {P Q : VariableLayout → Variable α → Prop} {us : List VariableLayout} {ys : List (Variable α)}
    (h : ∀ u ∈ us, ∀ y, P u y → ∃ y', change y y = .ok () y' ∧ Q u y')
    (hys : List.Forall₂ P us ys) :
    ∃ ys', changeEach change ys = .ok () ys' ∧ List.Forall₂ Q us ys' := by
  induction hys with
  | nil => exact ⟨[], by rw [changeEach], .nil⟩
  | @cons u y us ys hy _ ih =>
    obtain ⟨y', hchange, hQ⟩ := h u List.mem_cons_self y hy
    obtain ⟨ys', hrest, hQs⟩ := ih fun v hv => h v (List.mem_cons_of_mem u hv)
    refine ⟨y' :: ys', ?_, .cons hQ hQs⟩
    rw [changeEach_cons, hchange]
    simp only [hrest]

/-! ## Outputs -/

/-- The derivative of an unknown by a given variable, as an update declares it. -/
def sensitivityOf (u g : VariableLayout) (value : Option (Tensor α)) : Derivative α 1 where
  intrinsic := (quantityOf u).intrinsic + (quantityOf g).intrinsic
  target := quantityOf u
  arguments := #v[quantityOf g]
  value := value

/-- The variable is the output of an unknown: its derivatives are those by given variables. -/
structure OutputOf (givens : List VariableLayout) (u : VariableLayout) (y : Variable α) :
    Prop where
  quantity_eq : y.quantity = quantityOf u
  declared : ∀ {p d}, y.first.get? p = some d →
    ∃ g ∈ givens, g.name = p ∧ ∃ value, d = sensitivityOf u g value

def Underived (y : Variable α) : Prop := ∀ p d, y.first.get? p = some d → d.isDefined = false

/-- The variable has neither a value nor a derivative. -/
def Undefined (y : Variable α) : Prop := y.value = none ∧ Underived y

variable {givens : List VariableLayout} {u g : VariableLayout} {y : Variable α}

theorem OutputOf.name_eq (h : OutputOf givens u y) : y.name = u.name := by
  unfold Variable.name
  rw [h.quantity_eq]
  rfl

theorem outputOf_ofQuantity (givens : List VariableLayout) (u : VariableLayout) :
    OutputOf givens u (.ofQuantity (quantityOf u) : Variable α) :=
  ⟨rfl, fun h => by cases h⟩

theorem OutputOf.clear (h : OutputOf givens u y) : OutputOf givens u y.clear := by
  refine ⟨h.quantity_eq, fun {p d} hd => ?_⟩
  rw [Variable.clear, PathMap.get?_map, Option.map_eq_some_iff] at hd
  obtain ⟨d', hd', rfl⟩ := hd
  obtain ⟨g, hg, hname, value, rfl⟩ := h.declared hd'
  exact ⟨g, hg, hname, none, rfl⟩

theorem undefined_clear (y : Variable α) : Undefined y.clear := by
  refine ⟨rfl, fun p d hd => ?_⟩
  rw [Variable.clear, PathMap.get?_map, Option.map_eq_some_iff] at hd
  obtain ⟨d', -, rfl⟩ := hd
  rfl

/-! ## Values -/

section Values

variable [Zero α]

omit [Zero α] in
theorem setValue_of_fits {t : Tensor α} (hbase : t.base = y.quantity.base)
    (hm : t.middle.expandsTo y.quantity.middle = true) :
    Variable.setValue t y = .ok () { y with value := some t } := by
  unfold Variable.setValue
  rw [Update.get_bind_apply]
  simp only [hbase, hm, ne_eq, not_true_eq_false, if_false, Bool.not_true, Bool.false_eq_true]
  rfl

theorem OutputOf.exists_setAssembledValue (h : OutputOf givens u y) {part : Tensor α}
    (hm : part.middle = []) (hbase : part.base = [u.storage]) :
    ∃ v, Variable.setAssembledValue part y = .ok () { y with value := some v } ∧
      ({ y with value := some v } : Variable α).assembledValue = .ok part := by
  have hlen : [u.middle].length = [u.base].length := rfl
  obtain ⟨v, hv, ha, hvm, hvbase⟩ := exists_assembled_back (List.cons_ne_nil _ _) hlen hm hbase
  have hquantity : y.quantity.middle = u.middle ∧ y.quantity.base = u.base := by
    rw [h.quantity_eq]
    exact ⟨rfl, rfl⟩
  rw [List.flatten_singleton, ← hquantity.1] at hvm
  rw [List.flatten_singleton, ← hquantity.2] at hvbase
  refine ⟨v, ?_, ?_⟩
  · refine Update.bind_eq_ok.2 ⟨y, y, rfl, Update.bind_eq_ok.2 ⟨v, y, ?_, ?_⟩⟩
    · rw [h.quantity_eq]
      exact Update.lift_eq_ok.2 ⟨hv, rfl⟩
    · exact setValue_of_fits hvbase (hvm ▸ Shape.expandsTo_refl _)
  · have hself : v.expandMiddle y.quantity.middle = .ok v := by
      rw [← hvm]
      exact v.expandLeading_self
    refine Update.except_bind_eq_ok.2 ⟨v, hself, ?_⟩
    rw [h.quantity_eq]
    exact ha

end Values

/-! ## Derivatives -/

section Derivatives

theorem OutputOf.storeDerivative (h : OutputOf givens u y) (hg : g ∈ givens)
    (value : Option (Tensor α)) :
    OutputOf givens u (y.storeDerivative g.name (sensitivityOf u g value)) := by
  refine ⟨h.quantity_eq, fun {p d} hp => ?_⟩
  rw [Variable.storeDerivative, PathMap.get?_insert] at hp
  by_cases hname : g.name = p
  · rw [if_pos hname] at hp
    cases hp
    exact ⟨g, hg, hname, value, rfl⟩
  · rw [if_neg hname] at hp
    exact h.declared hp

/-- The derivative by a given variable is declared as ever, whether it was used before or not. -/
theorem OutputOf.exists_derivativeBy (h : OutputOf givens u y)
    (hnames : (givens.map (·.name)).Nodup) (hg : g ∈ givens) :
    ∃ value y', Variable.derivativeBy (quantityOf g) y = .ok (sensitivityOf u g value) y' ∧
      ∀ d, y'.storeDerivative g.name d = y.storeDerivative g.name d := by
  cases hd : y.first.get? g.name with
  | some d =>
    obtain ⟨g', hg', hname, value, rfl⟩ := h.declared hd
    obtain rfl := List.inj_on_of_nodup_map hnames hg' hg hname
    exact ⟨value, y, Variable.derivativeBy_of_some hd, fun _ => rfl⟩
  | none =>
    have hfound : y.derivative? (quantityOf g).name = none := hd
    have hdeclare : Derivative.declareFirst (y.quantity.intrinsic + (quantityOf g).intrinsic)
        y.quantity (quantityOf g) = .ok (sensitivityOf u g none : Derivative α 1) := by
      rw [h.quantity_eq]
      exact Derivative.declareFirst_eq_ok.2
        ⟨Derivative.checkDeclaration_eq_ok.2 ⟨le_refl _, le_refl _, .inr rfl⟩, rfl⟩
    refine ⟨none, y.storeDerivative g.name (sensitivityOf u g none), ?_, fun d => ?_⟩
    · rw [Variable.derivativeBy_of_none hfound]
      exact Variable.declareDerivative_eq_ok.2 ⟨hdeclare, rfl⟩
    · unfold Variable.storeDerivative PathMap.insert
      simp only [SortedEntries.insert_insert Path.lt_irrefl]

variable [Zero α]

theorem intrinsicShape_quantityOf (v : VariableLayout) :
    (quantityOf v).intrinsicShape = v.middle := by
  unfold Quantity.intrinsicShape quantityOf
  rw [Nat.sub_self, List.drop_zero]

theorem assign_sensitivityOf {value : Option (Tensor α)} {v : Tensor α}
    (hm : v.middle = u.middle ++ g.middle) (hbase : v.base = u.base ++ g.base) :
    Derivative.assign v (sensitivityOf u g value) = .ok () (sensitivityOf u g (some v)) := by
  have hdense : (sensitivityOf u g value).denseShape = u.middle ++ g.middle := by
    rw [Derivative.denseShape_eq]
    change (quantityOf u).intrinsicShape ++ (quantityOf g).intrinsicShape = _
    rw [intrinsicShape_quantityOf, intrinsicShape_quantityOf]
  have hvalue : (sensitivityOf u g value).withValue v = .ok (sensitivityOf u g (some v)) := by
    have hmiddle : v.middle = [] ++ (sensitivityOf u g value).denseShape := hm.trans hdense.symm
    refine Derivative.withValue_dense ?_ hmiddle ?_
    · rw [hbase, Derivative.base_eq]
      rfl
    · rw [hdense, List.length_append]
      rfl
  refine Update.bind_eq_ok.2 ⟨_, _, rfl, ?_⟩
  exact Update.bind_eq_ok.2 ⟨_, _, Update.lift_eq_ok.2 ⟨hvalue, rfl⟩, rfl⟩

/-- The derivative holds a block of sensitivities in dense form. -/
def HoldsBlock (u g : VariableLayout) (block : Tensor α) (d : Derivative α 1) : Prop :=
  ∃ v, d = sensitivityOf u g (some v) ∧
    v.assemble [u.middle, g.middle] [u.base, g.base] = .ok block

theorem OutputOf.exists_changeDerivative (h : OutputOf givens u y)
    (hnames : (givens.map (·.name)).Nodup) (hg : g ∈ givens) {block : Tensor α}
    (hm : block.middle = []) (hbase : block.base = [u.storage, g.storage]) :
    ∃ v d, block.disassemble [u.middle, g.middle] [u.base, g.base] = .ok v ∧
      Variable.changeDerivative (quantityOf g) (Derivative.assign v) y =
        .ok () (y.storeDerivative g.name d) ∧
      HoldsBlock u g block d ∧ OutputOf givens u (y.storeDerivative g.name d) := by
  have hlen : [u.middle, g.middle].length = [u.base, g.base].length := rfl
  obtain ⟨v, hv, ha, hvm, hvbase⟩ := exists_assembled_back (List.cons_ne_nil _ _) hlen hm hbase
  rw [List.flatten_cons, List.flatten_singleton] at hvm hvbase
  obtain ⟨value, y', hby, hstore⟩ := h.exists_derivativeBy hnames hg
  refine ⟨v, sensitivityOf u g (some v), hv, ?_, ⟨v, rfl, ha⟩, h.storeDerivative hg _⟩
  refine Update.bind_eq_ok.2 ⟨_, y', hby, ?_⟩
  refine Update.onPart_eq_ok.2 ⟨_, assign_sensitivityOf hvm hvbase, ?_⟩
  exact (hstore _).symm

theorem OutputOf.exists_storeSensitivities {blocks : PathMap (PathMap (Tensor α))}
    {y₀ : Variable α} (h₀ : y₀.quantity = quantityOf u) (h : OutputOf givens u y)
    (hnames : (givens.map (·.name)).Nodup) {gs : List VariableLayout} (hgs : gs.Sublist givens)
    (hblocks : ∀ g ∈ gs, ∃ block, blockOf blocks u g = some block ∧ block.middle = [] ∧
      block.base = [u.storage, g.storage]) :
    ∃ y', storeSensitivities blocks (gs.map quantityOf) y₀ y = .ok () y' ∧
      OutputOf givens u y' ∧ y'.value = y.value ∧
      (∀ g ∈ gs, ∃ block d, blockOf blocks u g = some block ∧ y'.first.get? g.name = some d ∧
        HoldsBlock u g block d) ∧
      ∀ p, p ∉ gs.map (·.name) → y'.first.get? p = y.first.get? p := by
  induction gs generalizing y with
  | nil => exact ⟨y, rfl, h, rfl, fun g hg => (by cases hg), fun _ _ => rfl⟩
  | cons g gs ih =>
    have hg : g ∈ givens := hgs.subset List.mem_cons_self
    have hnodup := (hgs.map (·.name)).nodup hnames
    rw [List.map_cons, List.nodup_cons] at hnodup
    obtain ⟨block, hblock, hm, hbase⟩ := hblocks g List.mem_cons_self
    obtain ⟨v, d, hv, hchange, hd, h₁⟩ := h.exists_changeDerivative hnames hg hm hbase
    obtain ⟨y', hrest, h', hvalue, hheld, hothers⟩ := ih h₁ ((List.sublist_cons_self g gs).trans hgs)
      fun g' hg' => hblocks g' (List.mem_cons_of_mem g hg')
    refine ⟨y', ?_, h', hvalue, ?_, fun p hp => ?_⟩
    · have hfound : ((blocks.get? y₀.name).bind (·.get? (quantityOf g).name)) = some block := by
        unfold Variable.name
        rw [h₀]
        exact hblock
      refine Update.bind_eq_ok.2 ⟨(), _, ?_, hrest⟩
      beta_reduce
      rw [hfound, h₀]
      exact Update.bind_eq_ok.2 ⟨v, y, Update.lift_eq_ok.2 ⟨hv, rfl⟩, hchange⟩
    · refine List.forall_mem_cons.2 ⟨⟨block, d, hblock, ?_, hd⟩, hheld⟩
      rw [hothers g.name hnodup.1, Variable.storeDerivative, PathMap.get?_insert, if_pos rfl]
    · rw [List.map_cons, List.mem_cons, not_or] at hp
      rw [hothers p hp.2, Variable.storeDerivative, PathMap.get?_insert, if_neg (Ne.symm hp.1)]

variable [Scalar α]

theorem HoldsBlock.assembled (hfin : ∀ x : α, Scalar.isFinite x = true) {block : Tensor α}
    {d : Derivative α 1} (h : HoldsBlock u g block d) :
    d.dense >>= (fun full => full.assemble [u.middle, d.argument.middle] [u.base, d.argument.base]) =
      .ok block := by
  obtain ⟨v, rfl, ha⟩ := h
  have hdiag : ¬(sensitivityOf u g (some v)).isDiagonal = true := by
    rw [Derivative.isDiagonal_iff]
    exact Nat.lt_irrefl _
  rw [Derivative.dense_of_not_diagonal hfin hdiag rfl]
  exact ha

theorem OutputOf.assembledDerivatives_eq_ok (hfin : ∀ x : α, Scalar.isFinite x = true)
    (h : OutputOf givens u y) {row : PathMap (Tensor α)}
    (hheld : ∀ g ∈ givens, ∃ block d, row.get? g.name = some block ∧
      y.first.get? g.name = some d ∧ HoldsBlock u g block d)
    (hrow : ∀ p, (row.get? p).isSome → p ∈ givens.map (·.name)) :
    y.assembledDerivatives = .ok row := by
  have hentries : ∀ e ∈ y.first.entries.filter fun e => e.2.isDefined, ∃ x,
      row.get? e.1 = some x ∧ (do
        let full ← e.2.dense
        return (e.1, ← full.assemble [y.quantity.middle, e.2.argument.middle]
          [y.quantity.base, e.2.argument.base])) = .ok (e.1, x) := by
    rintro ⟨p, d⟩ he
    have hd := PathMap.get?_eq_some.2 (List.mem_filter.1 he).1
    obtain ⟨g, hg, rfl, -⟩ := h.declared hd
    obtain ⟨block, d', hblock, hd', hholds⟩ := hheld g hg
    rw [hd] at hd'
    cases hd'
    obtain ⟨full, hfull, ha⟩ := Update.except_bind_eq_ok.1 (hholds.assembled hfin)
    refine ⟨block, hblock, Update.except_bind_eq_ok.2 ⟨full, hfull, ?_⟩⟩
    rw [h.quantity_eq]
    exact Update.except_bind_eq_ok.2 ⟨block, ha, rfl⟩
  have hkeys : ∀ p, (row.get? p).isSome →
      p ∈ (y.first.entries.filter fun e => e.2.isDefined).map (·.1) := by
    intro p hp
    obtain ⟨g, hg, rfl⟩ := List.mem_map.1 (hrow p hp)
    obtain ⟨block, d, -, hd, v, rfl, -⟩ := hheld g hg
    exact List.mem_map_of_mem (List.mem_filter.2 ⟨PathMap.get?_eq_some.1 hd, rfl⟩)
  have hnodup : ((y.first.entries.filter fun e => e.2.isDefined).map (·.1)).Nodup :=
    (List.filter_sublist.map _).nodup y.first.nodup_keys
  obtain ⟨entries, hmap, hof⟩ := Update.exists_mapM_entries hnodup hentries hkeys
  unfold Variable.assembledDerivatives
  exact Update.except_bind_eq_ok.2 ⟨entries, hmap, congrArg Except.ok hof⟩

theorem Underived.assembledDerivatives (h : Underived y) :
    y.assembledDerivatives = .ok .empty := by
  have hnone : y.first.entries.filter (fun e => e.2.isDefined) = [] := by
    refine List.filter_eq_nil_iff.2 fun e he => ?_
    simp [h _ _ (PathMap.get?_eq_some.2 he)]
  unfold Variable.assembledDerivatives
  rw [hnone]
  rfl

end Derivatives

end ImplicitUpdate

end TieredCalculus
