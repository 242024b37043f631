import Mathlib.Data.List.Nodup
import TieredCalculus.Axis
import TieredCalculus.Proofs.Naming

/-! # Layouts of frozen axes

The leaves of a frozen axis follow one another without gaps, so every place of the axis lies in
the range of exactly one of them, and where the plan is one that declarations have built, their
names are distinct. Both hold of every sub-axis as well.
-/

namespace TieredCalculus

/-! ## Ranges without gaps -/

namespace Axis

/-- Every leaf starts where the one before it stops, the first one at a given place. -/
def Consecutive : Nat → List VariableLayout → Prop
  | _, [] => True
  | start, v :: rest => v.start = start ∧ Consecutive v.stop rest

variable {start : Nat} {vs : List VariableLayout}

theorem consecutive_append {ws : List VariableLayout} (hvs : Consecutive start vs)
    (hws : Consecutive (start + Shape.total (vs.map (·.storage))) ws) :
    Consecutive start (vs ++ ws) := by
  induction vs generalizing start with
  | nil => simpa using hws
  | cons v vs ih =>
    obtain ⟨hv, hrest⟩ := hvs
    refine ⟨hv, ih hrest ?_⟩
    rw [List.map_cons, Shape.total_cons, ← Nat.add_assoc] at hws
    rw [VariableLayout.stop, hv]
    exact hws

theorem consecutive_shift (n : Nat) (h : Consecutive start vs) :
    Consecutive (start + n) (vs.map (·.shift n)) := by
  induction vs generalizing start with
  | nil => trivial
  | cons v vs ih =>
    obtain ⟨hv, hrest⟩ := h
    have hstart : (v.shift n).start = start + n := congrArg (· + n) hv
    have hstop : (v.shift n).stop = v.stop + n := by
      change v.start + n + v.storage = v.start + v.storage + n
      omega
    refine ⟨hstart, ?_⟩
    rw [hstop]
    exact ih hrest

theorem total_shift (n : Nat) (vs : List VariableLayout) :
    (vs.map (·.shift n)).map (·.storage) = vs.map (·.storage) := by
  rw [List.map_map]
  rfl

theorem Consecutive.le_start (h : Consecutive start vs) {v : VariableLayout} (hv : v ∈ vs) :
    start ≤ v.start := by
  induction vs generalizing start with
  | nil => cases hv
  | cons w vs ih =>
    obtain ⟨hw, hrest⟩ := h
    rcases List.mem_cons.1 hv with rfl | hv
    · exact Nat.le_of_eq hw.symm
    · have := ih hrest hv
      rw [VariableLayout.stop] at this
      omega

theorem Consecutive.stop_le (h : Consecutive start vs) {v : VariableLayout} (hv : v ∈ vs) :
    v.stop ≤ start + Shape.total (vs.map (·.storage)) := by
  induction vs generalizing start with
  | nil => cases hv
  | cons w vs ih =>
    obtain ⟨hw, hrest⟩ := h
    have hstop : w.stop = start + w.storage := by rw [VariableLayout.stop, hw]
    rw [List.map_cons, Shape.total_cons]
    rcases List.mem_cons.1 hv with rfl | hv
    · omega
    · have := ih hrest hv
      omega

theorem Consecutive.existsUnique (h : Consecutive start vs) {i : Nat} (hi : start ≤ i)
    (hlt : i < start + Shape.total (vs.map (·.storage))) :
    ∃! v, v ∈ vs ∧ v.start ≤ i ∧ i < v.stop := by
  induction vs generalizing start with
  | nil => simp at hlt; omega
  | cons w vs ih =>
    obtain ⟨hw, hrest⟩ := h
    rw [List.map_cons, Shape.total_cons] at hlt
    by_cases hin : i < w.stop
    · refine ⟨w, ⟨List.mem_cons_self, by omega, hin⟩, ?_⟩
      rintro v ⟨hv, hle, -⟩
      rcases List.mem_cons.1 hv with rfl | hv
      · rfl
      · have := hrest.le_start hv
        omega
    · have hstop : w.stop = start + w.storage := by rw [VariableLayout.stop, hw]
      obtain ⟨v, ⟨hv, hle, hvi⟩, hunique⟩ := ih hrest (by omega) (by omega)
      refine ⟨v, ⟨List.mem_cons_of_mem w hv, hle, hvi⟩, ?_⟩
      rintro v' ⟨hv', hle', hvi'⟩
      rcases List.mem_cons.1 hv' with rfl | hv'
      · exact absurd hvi' hin
      · exact hunique v' ⟨hv', hle', hvi'⟩

end Axis

namespace AxisPlan

open Axis

theorem consecutive_placeLeaves (path : Path) (start : Nat)
    (leaves : List (String × Shape × Shape)) :
    Consecutive start (placeLeaves path start leaves) := by
  induction leaves generalizing start with
  | nil => trivial
  | cons l leaves ih => exact ⟨rfl, ih _⟩

mutual

theorem consecutive_freezeAt (path : Path) :
    (plan : AxisPlan) → Consecutive 0 (plan.freezeAt path).leaves
  | ⟨leaves, subaxes⟩ => by
    rw [freezeAt]
    refine consecutive_append (consecutive_placeLeaves path 0 leaves) ?_
    rw [Nat.zero_add]
    exact consecutive_placeSubaxes path _ subaxes

theorem consecutive_placeSubaxes (path : Path) (start : Nat) :
    (subaxes : List (String × AxisPlan)) → Consecutive start
      ((placeSubaxes path start subaxes).flatMap fun (_, start, sub) =>
        sub.leaves.map (·.shift start))
  | [] => trivial
  | (name, plan) :: rest => by
    rw [placeSubaxes, List.flatMap_cons]
    have hsub := consecutive_shift start (consecutive_freezeAt (path.join name) plan)
    rw [Nat.zero_add] at hsub
    refine consecutive_append hsub ?_
    rw [total_shift]
    exact consecutive_placeSubaxes path _ rest

end

open Axis

/-! ## Levels of a plan -/

theorem subaxis?_setSubaxis (plan sub : AxisPlan) (part name : String) :
    (plan.setSubaxis part sub).subaxis? name =
      if part = name then some sub else plan.subaxis? name :=
  SortedEntries.find?_insert (fun h h' => String.le_antisymm h' h) String.lt_irrefl part name sub
    plan.subaxes

@[simp] theorem hasVariable_setSubaxis (plan sub : AxisPlan) (part name : String) :
    (plan.setSubaxis part sub).hasVariable name = plan.hasVariable name := rfl

theorem setSubaxis_setSubaxis (plan sub sub' : AxisPlan) (part : String) :
    (plan.setSubaxis part sub).setSubaxis part sub' = plan.setSubaxis part sub' := by
  unfold setSubaxis
  rw [SortedEntries.insert_insert String.lt_irrefl]

def level (plan : AxisPlan) (part : String) : AxisPlan := (plan.subaxis? part).getD empty

/-- A change below a name opens the level of that name and changes it. -/
theorem onSubaxis_cons_apply {β : Type} (change : Update TensorError AxisPlan β) (part : String)
    (rest : List String) (plan : AxisPlan) : onSubaxis change (part :: rest) plan =
      if plan.hasVariable part then .error (.duplicate part) plan
      else match onSubaxis change rest (plan.level part) with
        | .ok b sub => .ok b (plan.setSubaxis part sub)
        | .error e sub => .error e (plan.setSubaxis part sub) := by
  have hopened : ((plan.setSubaxis part ((plan.subaxis? part).getD empty)).subaxis? part).getD
      empty = (plan.subaxis? part).getD empty := by
    rw [subaxis?_setSubaxis, if_pos rfl]
    rfl
  rw [onSubaxis, level]
  by_cases h : plan.hasVariable part = true
  · simp [Update.bind_apply, h]
  · simp only [Update.bind_apply, Update.get_apply, Update.modify_apply, if_neg h, Update.onPart,
      hopened]
    cases onSubaxis change rest ((plan.subaxis? part).getD empty) <;> simp [setSubaxis_setSubaxis]

/-! ## Plans built by declarations -/

/-- A declaration of a variable or of a sub-axis, on the axis itself or below a sub-axis. -/
inductive Declaration : Update TensorError AxisPlan Unit → Prop
  | ofVariable (name : Path) (middle base : Shape) : Declaration (declare name middle base)
  | ofSubaxis (name : Path) : Declaration (declareSubaxis name)
  | within (name : Path) {change : Update TensorError AxisPlan Unit} :
      Declaration change → Declaration (onSubaxis change name.components)

/-- What declarations have made of the empty plan, those that failed included. -/
inductive Built : AxisPlan → Prop
  | empty : Built empty
  | step {plan : AxisPlan} {change : Update TensorError AxisPlan Unit} :
      Built plan → Declaration change → Built (change.outcome plan).2

/-- The names of every level are components in ascending order, and none of them is both a
variable and a sub-axis. -/
inductive WellFormed : AxisPlan → Prop
  | intro {leaves : List (String × Shape × Shape)} {subaxes : List (String × AxisPlan)} :
      (∀ l ∈ leaves, IsComponent l.1) → (∀ s ∈ subaxes, IsComponent s.1) →
      leaves.Pairwise (fun a b => a.1 < b.1) → subaxes.Pairwise (fun a b => a.1 < b.1) →
      (∀ l ∈ leaves, ∀ s ∈ subaxes, l.1 ≠ s.1) → (∀ s ∈ subaxes, WellFormed s.2) →
      WellFormed ⟨leaves, subaxes⟩

theorem wellFormed_empty : WellFormed empty := by
  constructor <;> simp

private theorem string_eq_of_not_lt {a b : String} (h : ¬ a < b) (h' : ¬ b < a) : a = b :=
  String.le_antisymm h' h

private theorem pairwise_insert_string {β : Type} {k : String} {v : β} {l : List (String × β)}
    (h : l.Pairwise fun a b => a.1 < b.1) :
    (SortedEntries.insert k v l).Pairwise fun a b => a.1 < b.1 :=
  SortedEntries.pairwise_insert String.lt_trans
    (fun hab hba hbc => string_eq_of_not_lt hab hba ▸ hbc) h

private theorem notMem_of_find?_eq_none {β : Type} {k : String} {l : List (String × β)}
    (h : (SortedEntries.find? k l).isSome = false) : ∀ e ∈ l, e.1 ≠ k := by
  intro e he hk
  rw [SortedEntries.find?, Option.isSome_map, Bool.eq_false_iff, Ne, List.find?_isSome] at h
  exact h ⟨e, he, by simpa using hk⟩

theorem WellFormed.subaxis {plan sub : AxisPlan} {name : String} (h : WellFormed plan)
    (hsub : plan.subaxis? name = some sub) : WellFormed sub := by
  cases h with
  | intro _ _ _ _ _ hsubs => exact hsubs _ (SortedEntries.mem_of_find?_eq_some hsub)

theorem WellFormed.sublevel {plan : AxisPlan} (h : WellFormed plan) (name : String) :
    WellFormed (plan.level name) := by
  unfold AxisPlan.level
  cases hsub : plan.subaxis? name with
  | none => exact wellFormed_empty
  | some sub => exact h.subaxis hsub

theorem WellFormed.setSubaxis {plan sub : AxisPlan} {name : String} (h : WellFormed plan)
    (hname : IsComponent name) (hfree : plan.hasVariable name = false) (hsub : WellFormed sub) :
    WellFormed (plan.setSubaxis name sub) := by
  cases h with
  | @intro leaves subaxes hl hs hlo hso hdisjoint hsubs =>
    have hmem : ∀ e ∈ SortedEntries.insert name sub subaxes, e = (name, sub) ∨ e ∈ subaxes :=
      fun e he => SortedEntries.mem_insert he
    refine .intro hl (fun s hs' => ?_) hlo (pairwise_insert_string hso)
      (fun l hl' s hs' => ?_) fun s hs' => ?_
    · rcases hmem s hs' with rfl | hs'
      · exact hname
      · exact hs s hs'
    · rcases hmem s hs' with rfl | hs'
      · exact notMem_of_find?_eq_none hfree l hl'
      · exact hdisjoint l hl' s hs'
    · rcases hmem s hs' with rfl | hs'
      · exact hsub
      · exact hsubs s hs'

theorem outcome_onSubaxis_cons (change : Update TensorError AxisPlan Unit) (part : String)
    (rest : List String) (plan : AxisPlan) :
    ((onSubaxis change (part :: rest)).outcome plan).2 =
      if plan.hasVariable part then plan
      else plan.setSubaxis part ((onSubaxis change rest).outcome (plan.level part)).2 := by
  unfold Update.outcome
  rw [onSubaxis_cons_apply]
  by_cases h : plan.hasVariable part = true
  · rw [if_pos h, if_pos h]
  · rw [if_neg h, if_neg h]
    cases onSubaxis change rest (plan.level part) <;> rfl

theorem outcome_declareLocal (name : String) (middle base : Shape) (plan : AxisPlan) :
    ((declareLocal name middle base).outcome plan).2 =
      if plan.hasVariable name || (plan.subaxis? name).isSome then plan
      else { plan with leaves := SortedEntries.insert name (middle, base) plan.leaves } := by
  unfold declareLocal Update.outcome
  by_cases h : (plan.hasVariable name || (plan.subaxis? name).isSome) = true
  · simp only [Update.bind_apply, Update.get_apply, if_pos h, Update.throw_apply]
  · simp only [Update.bind_apply, Update.get_apply, Update.modify_apply, if_neg h]

/-- A change below a sub-axis leaves every level well formed that it finds well formed. -/
theorem WellFormed.onSubaxis {change : Update TensorError AxisPlan Unit}
    (hchange : ∀ {plan}, WellFormed plan → WellFormed (change.outcome plan).2)
    {parts : List String} (hparts : ∀ c ∈ parts, IsComponent c) {plan : AxisPlan}
    (h : WellFormed plan) : WellFormed ((onSubaxis change parts).outcome plan).2 := by
  induction parts generalizing plan with
  | nil => exact hchange h
  | cons part rest ih =>
    have hpart := hparts part List.mem_cons_self
    rw [outcome_onSubaxis_cons]
    by_cases hvar : plan.hasVariable part = true
    · rwa [if_pos hvar]
    · have hfree : plan.hasVariable part = false := by simpa using hvar
      have hsub := ih (fun c hc => hparts c (List.mem_cons_of_mem part hc)) (h.sublevel part)
      rw [if_neg hvar]
      exact h.setSubaxis hpart hfree hsub

theorem WellFormed.declareLocal {plan : AxisPlan} (h : WellFormed plan) {name : String}
    (hname : IsComponent name) (middle base : Shape) :
    WellFormed ((declareLocal name middle base).outcome plan).2 := by
  rw [outcome_declareLocal]
  by_cases htaken : (plan.hasVariable name || (plan.subaxis? name).isSome) = true
  · rw [if_pos htaken]
    exact h
  · rw [if_neg htaken]
    rw [Bool.or_eq_true, not_or, Bool.not_eq_true, Bool.not_eq_true] at htaken
    cases h with
    | @intro leaves subaxes hl hs hlo hso hdisjoint hsubs =>
      have hmem : ∀ e ∈ SortedEntries.insert name (middle, base) leaves,
          e = (name, middle, base) ∨ e ∈ leaves := fun e he => SortedEntries.mem_insert he
      refine .intro (fun l hl' => ?_) hs (pairwise_insert_string hlo) hso
        (fun l hl' s hs' => ?_) hsubs
      · rcases hmem l hl' with rfl | hl'
        · exact hname
        · exact hl l hl'
      · rcases hmem l hl' with rfl | hl'
        · exact Ne.symm (notMem_of_find?_eq_none htaken.2 s hs')
        · exact hdisjoint l hl' s hs'

theorem WellFormed.declaration {change : Update TensorError AxisPlan Unit}
    (hchange : Declaration change) {plan : AxisPlan} (h : WellFormed plan) :
    WellFormed (change.outcome plan).2 := by
  induction hchange generalizing plan with
  | ofVariable name middle base =>
    unfold declare
    by_cases hroot : name.isRoot = true
    · rw [if_pos hroot]
      exact h
    · rw [if_neg hroot]
      have hne : name.components ≠ [] := by
        simpa [Path.isRoot] using hroot
      have hlast : IsComponent name.last := by
        rw [Path.last, List.getLast?_eq_getLast_of_ne_nil hne, Option.getD_some]
        exact name.valid _ (List.getLast_mem hne)
      exact h.onSubaxis (fun hp => hp.declareLocal hlast middle base)
        fun c hc => name.valid c (List.dropLast_subset _ hc)
  | ofSubaxis name =>
    have hkeep : ∀ {plan : AxisPlan}, WellFormed plan →
        WellFormed ((pure () : Update TensorError AxisPlan Unit).outcome plan).2 := fun hp => hp
    exact h.onSubaxis hkeep name.valid
  | within name _ ih => exact h.onSubaxis (fun hp => ih hp) name.valid

theorem Built.wellFormed {plan : AxisPlan} (h : Built plan) : WellFormed plan := by
  induction h with
  | empty => exact wellFormed_empty
  | step _ hchange ih => exact ih.declaration hchange

/-! ## Names of leaves -/

theorem names_placeLeaves (path : Path) (start : Nat)
    (leaves : List (String × Shape × Shape)) :
    (placeLeaves path start leaves).map (·.name) = leaves.map fun l => path.join l.1 := by
  induction leaves generalizing start with
  | nil => rfl
  | cons l leaves ih => rw [placeLeaves, List.map_cons, List.map_cons, ih]

private theorem names_placeSubaxes (path : Path) (start : Nat)
    (subaxes : List (String × AxisPlan)) :
    ((placeSubaxes path start subaxes).flatMap fun (_, start, sub) =>
      sub.leaves.map (·.shift start)).map (·.name) =
      subaxes.flatMap fun s => (s.2.freezeAt (path.join s.1)).names := by
  induction subaxes generalizing start with
  | nil => rfl
  | cons s subaxes ih =>
    obtain ⟨name, plan⟩ := s
    rw [placeSubaxes, List.flatMap_cons, List.map_append, ih, List.flatMap_cons, List.map_map]
    rfl

theorem names_freezeAt (path : Path) (leaves : List (String × Shape × Shape))
    (subaxes : List (String × AxisPlan)) :
    (freezeAt path ⟨leaves, subaxes⟩).names = (leaves.map fun l => path.join l.1) ++
      subaxes.flatMap fun s => (s.2.freezeAt (path.join s.1)).names := by
  rw [freezeAt, Axis.names, List.map_append, names_placeLeaves, names_placeSubaxes]

theorem WellFormed.below_of_mem_names {plan : AxisPlan} (h : WellFormed plan) {path p : Path}
    (hp : p ∈ (plan.freezeAt path).names) :
    ∃ rest, rest ≠ [] ∧ p.components = path.components ++ rest := by
  induction h generalizing path with
  | @intro leaves subaxes hl hs _ _ _ _ ih =>
    rw [names_freezeAt] at hp
    rcases List.mem_append.1 hp with hp | hp
    · obtain ⟨l, hmem, rfl⟩ := List.mem_map.1 hp
      exact ⟨[l.1], by simp, Path.components_join path (hl l hmem)⟩
    · obtain ⟨s, hmem, hsub⟩ := List.mem_flatMap.1 hp
      obtain ⟨rest, -, hrest⟩ := ih s hmem hsub
      refine ⟨s.1 :: rest, by simp, ?_⟩
      rw [hrest, Path.components_join path (hs s hmem), List.append_assoc]
      rfl

theorem WellFormed.below_join {plan : AxisPlan} (h : WellFormed plan) {path p : Path}
    {name : String} (hname : IsComponent name) (hp : p ∈ (plan.freezeAt (path.join name)).names) :
    ∃ rest, rest ≠ [] ∧ p.components = path.components ++ name :: rest := by
  obtain ⟨rest, hne, hrest⟩ := h.below_of_mem_names hp
  refine ⟨rest, hne, ?_⟩
  rw [hrest, Path.components_join path hname, List.append_assoc]
  rfl

theorem WellFormed.nodup_names {plan : AxisPlan} (h : WellFormed plan) (path : Path) :
    (plan.freezeAt path).names.Nodup := by
  induction h generalizing path with
  | @intro leaves subaxes hl hs hlo hso _ hsubs ih =>
    have hbelow : ∀ s ∈ subaxes, ∀ p ∈ (s.2.freezeAt (path.join s.1)).names,
        ∃ rest, rest ≠ [] ∧ p.components = path.components ++ s.1 :: rest :=
      fun s hmem p hp => (hsubs s hmem).below_join (hs s hmem) hp
    rw [names_freezeAt, List.nodup_append, List.nodup_flatMap]
    refine ⟨?_, ⟨fun s hmem => ih s hmem _, ?_⟩, ?_⟩
    · rw [List.Nodup, List.pairwise_map]
      refine hlo.imp_of_mem fun {a b} ha hb hab heq => ?_
      have hcomp := congrArg Path.components heq
      rw [Path.components_join path (hl a ha), Path.components_join path (hl b hb),
        List.append_cancel_left_eq, List.cons.injEq] at hcomp
      rw [hcomp.1] at hab
      exact String.lt_irrefl _ hab
    · refine hso.imp_of_mem fun {a b} ha hb hab p hpa hpb => ?_
      obtain ⟨_, -, hra⟩ := hbelow a ha p hpa
      obtain ⟨_, -, hrb⟩ := hbelow b hb p hpb
      rw [hra, List.append_cancel_left_eq, List.cons.injEq] at hrb
      rw [hrb.1] at hab
      exact String.lt_irrefl _ hab
    · intro p hp q hq hpq
      obtain ⟨l, hmem, rfl⟩ := List.mem_map.1 hp
      obtain ⟨s, hsmem, hsub⟩ := List.mem_flatMap.1 hq
      obtain ⟨rest, hne, hrest⟩ := hbelow s hsmem q hsub
      rw [← hpq, Path.components_join path (hl l hmem), List.append_cancel_left_eq,
        List.cons.injEq] at hrest
      exact hne hrest.2.symm

end AxisPlan

/-! ## Frozen axes -/

/-- The place lies in the range of the variable. -/
def VariableLayout.Covers (v : VariableLayout) (i : Nat) : Prop := v.start ≤ i ∧ i < v.stop

namespace Axis

/-- The leaves of the axis have distinct names and follow one another from place zero on. -/
structure Laid (a : Axis) : Prop where
  nodup_names : a.names.Nodup
  consecutive : Consecutive 0 a.leaves

theorem Laid.existsUnique {a : Axis} (h : a.Laid) {i : Nat} (hi : i < a.size) :
    ∃! v, v ∈ a.leaves ∧ v.Covers i :=
  h.consecutive.existsUnique (Nat.zero_le i) (by rwa [Nat.zero_add])

theorem Laid.stop_le {a : Axis} (h : a.Laid) {v : VariableLayout} (hv : v ∈ a.leaves) :
    v.stop ≤ a.size := by
  have hstop := h.consecutive.stop_le hv
  rwa [Nat.zero_add] at hstop

theorem Laid.lt_size {a : Axis} (h : a.Laid) {v : VariableLayout} (hv : v ∈ a.leaves) {i : Nat}
    (hi : i < v.storage) : v.start + i < a.size :=
  Nat.lt_of_lt_of_le (Nat.add_lt_add_left hi v.start) (h.stop_le hv)

end Axis

namespace AxisPlan

theorem WellFormed.laid {plan : AxisPlan} (h : WellFormed plan) (path : Path) :
    (plan.freezeAt path).Laid :=
  ⟨h.nodup_names path, consecutive_freezeAt path plan⟩

theorem find?_placeSubaxes {path : Path} {start place : Nat} {part : String}
    {subaxes : List (String × AxisPlan)} {sub : Axis}
    (h : SortedEntries.find? part (placeSubaxes path start subaxes) = some (place, sub)) :
    ∃ plan, SortedEntries.find? part subaxes = some plan ∧
      sub = plan.freezeAt (path.join part) := by
  induction subaxes generalizing start with
  | nil => cases h
  | cons s subaxes ih =>
    obtain ⟨name, plan⟩ := s
    rw [placeSubaxes, SortedEntries.find?_cons] at h
    rw [SortedEntries.find?_cons]
    by_cases hname : name = part
    · rw [if_pos hname] at h ⊢
      cases h
      exact ⟨plan, rfl, by rw [hname]⟩
    · rw [if_neg hname] at h ⊢
      exact ih h

/-- A nested sub-axis is the layout of a plan of its own. -/
theorem WellFormed.exists_of_follow {plan : AxisPlan} (h : WellFormed plan) {path : Path}
    {parts : List String} {sub : Axis} (hsub : Axis.follow parts (plan.freezeAt path) = some sub) :
    ∃ plan path, WellFormed plan ∧ sub = plan.freezeAt path := by
  induction parts generalizing plan path with
  | nil =>
    cases hsub
    exact ⟨plan, path, h, rfl⟩
  | cons part rest ih =>
    obtain ⟨leaves, subaxes⟩ := plan
    rw [Axis.follow] at hsub
    cases hfind : SortedEntries.find? part (freezeAt path ⟨leaves, subaxes⟩).subaxes with
    | none => simp only [hfind] at hsub; cases hsub
    | some found =>
      obtain ⟨place, next⟩ := found
      simp only [hfind] at hsub
      rw [freezeAt] at hfind
      obtain ⟨plan, hplan, rfl⟩ := find?_placeSubaxes hfind
      exact ih (h.subaxis hplan) hsub

end AxisPlan

namespace Axis

/-- An axis frozen from a plan that declarations have built, or a sub-axis of one. -/
inductive Formed : Axis → Prop
  | frozen {plan : AxisPlan} : plan.Built → Formed plan.freeze
  | subaxis {a sub : Axis} {name : Path} : Formed a → a.subaxis name = .ok sub → Formed sub

theorem subaxis_eq_ok {a sub : Axis} {name : Path} :
    a.subaxis name = .ok sub ↔ follow name.components a = some sub := by
  unfold subaxis
  cases follow name.components a <;> simp

theorem Formed.exists_plan {a : Axis} (h : a.Formed) :
    ∃ plan path, AxisPlan.WellFormed plan ∧ a = plan.freezeAt path := by
  induction h with
  | frozen hplan => exact ⟨_, _, hplan.wellFormed, rfl⟩
  | subaxis _ hsub ih =>
    obtain ⟨plan, path, hplan, rfl⟩ := ih
    exact hplan.exists_of_follow (subaxis_eq_ok.1 hsub)

theorem Formed.laid {a : Axis} (h : a.Formed) : a.Laid := by
  obtain ⟨plan, path, hplan, rfl⟩ := h.exists_plan
  exact hplan.laid path

end Axis

end TieredCalculus
