import TieredCalculus.Proofs.Axis.Levels

/-! # Order of declarations

A declaration adds one variable to a plan or fails, and whether it fails depends only on the
names that are taken on the way. Two declarations therefore can be made in either order, with
the same plan, and the axis frozen from some declarations does not depend on their order. The
variables of a frozen axis, declared again, give its leaves back.
-/

namespace TieredCalculus

namespace AxisPlan

/-! ## Names of one level -/

theorem setSubaxis_comm (plan sub sub' : AxisPlan) {part part' : String} (h : part ≠ part') :
    (plan.setSubaxis part sub).setSubaxis part' sub' =
      (plan.setSubaxis part' sub').setSubaxis part sub := by
  unfold setSubaxis
  dsimp only
  rw [SortedEntries.insert_comm String.lt_trans (fun h h' => String.le_antisymm h' h)
    String.lt_irrefl h.symm]

theorem level_setSubaxis (plan sub : AxisPlan) (part name : String) :
    (plan.setSubaxis part sub).level name = if part = name then sub else plan.level name := by
  unfold level
  rw [subaxis?_setSubaxis]
  split <;> rfl

def setLeaf (plan : AxisPlan) (leaf : String) (shapes : Shape × Shape) : AxisPlan :=
  { plan with leaves := SortedEntries.insert leaf shapes plan.leaves }

@[simp] theorem subaxis?_setLeaf (plan : AxisPlan) (leaf name : String) (shapes : Shape × Shape) :
    (plan.setLeaf leaf shapes).subaxis? name = plan.subaxis? name := rfl

@[simp] theorem level_setLeaf (plan : AxisPlan) (leaf name : String) (shapes : Shape × Shape) :
    (plan.setLeaf leaf shapes).level name = plan.level name := rfl

@[simp] theorem hasVariable_setLeaf (plan : AxisPlan) (leaf name : String)
    (shapes : Shape × Shape) :
    (plan.setLeaf leaf shapes).hasVariable name =
      (decide (leaf = name) || plan.hasVariable name) := by
  unfold hasVariable setLeaf
  rw [SortedEntries.find?_insert (fun h h' => String.le_antisymm h' h) String.lt_irrefl]
  by_cases h : leaf = name <;> simp [h]

def isTaken (plan : AxisPlan) (name : String) : Bool :=
  plan.hasVariable name || (plan.subaxis? name).isSome

@[simp] theorem isTaken_setLeaf (plan : AxisPlan) (leaf name : String) (shapes : Shape × Shape) :
    (plan.setLeaf leaf shapes).isTaken name = (decide (leaf = name) || plan.isTaken name) := by
  simp [isTaken, Bool.or_assoc]

@[simp] theorem isTaken_setSubaxis (plan sub : AxisPlan) (part name : String) :
    (plan.setSubaxis part sub).isTaken name = (decide (part = name) || plan.isTaken name) := by
  unfold isTaken
  rw [hasVariable_setSubaxis, subaxis?_setSubaxis]
  by_cases h : part = name <;> simp [h]

theorem setLeaf_comm (plan : AxisPlan) {leaf leaf' : String} (h : leaf ≠ leaf')
    (shapes shapes' : Shape × Shape) :
    (plan.setLeaf leaf shapes).setLeaf leaf' shapes' =
      (plan.setLeaf leaf' shapes').setLeaf leaf shapes := by
  unfold setLeaf
  dsimp only
  rw [SortedEntries.insert_comm String.lt_trans (fun h h' => String.le_antisymm h' h)
    String.lt_irrefl h.symm]

/-! ## Declarations as partial functions -/

/-- The plan with a variable added at the end of a path, unless a name on the way or the
last one is taken. -/
def place? (shapes : Shape × Shape) : List String → AxisPlan → Option AxisPlan
  | [], _ => none
  | [leaf], plan =>
    if plan.isTaken leaf then none else some (plan.setLeaf leaf shapes)
  | part :: next :: rest, plan =>
    if plan.hasVariable part then none
    else (place? shapes (next :: rest) (plan.level part)).map (plan.setSubaxis part)

theorem place?_cons {shapes : Shape × Shape} {part : String} {rest : List String}
    (h : rest ≠ []) (plan : AxisPlan) : place? shapes (part :: rest) plan =
      if plan.hasVariable part then none
      else (place? shapes rest (plan.level part)).map (plan.setSubaxis part) := by
  obtain ⟨next, rest, rfl⟩ := List.exists_cons_of_ne_nil h
  rfl

theorem declareLocal_eq_ok {name : String} {middle base : Shape} {plan plan' : AxisPlan} :
    declareLocal name middle base plan = .ok () plan' ↔
      place? (middle, base) [name] plan = some plan' := by
  unfold declareLocal
  rw [place?, isTaken]
  by_cases h : (plan.hasVariable name || (plan.subaxis? name).isSome) = true
  · simp only [Update.bind_apply, Update.get_apply, if_pos h, Update.throw_apply]
    simp
  · simp only [Update.bind_apply, Update.get_apply, Update.modify_apply, if_neg h]
    simp [setLeaf]

theorem onSubaxis_declareLocal_eq_ok {name : String} {middle base : Shape} {parts : List String}
    {plan plan' : AxisPlan} :
    onSubaxis (declareLocal name middle base) parts plan = .ok () plan' ↔
      place? (middle, base) (parts ++ [name]) plan = some plan' := by
  induction parts generalizing plan plan' with
  | nil => exact declareLocal_eq_ok
  | cons part rest ih =>
    rw [onSubaxis_cons_apply, List.cons_append, place?_cons (by simp)]
    by_cases h : plan.hasVariable part = true
    · simp [h]
    · rw [if_neg h, if_neg h, Option.map_eq_some_iff]
      cases hx : onSubaxis (declareLocal name middle base) rest (plan.level part) with
      | ok b sub =>
        rw [ih.1 hx]
        simp
      | error e sub =>
        cases hp : place? (middle, base) (rest ++ [name]) (plan.level part) with
        | none => simp
        | some sub' =>
          rw [ih.2 hp] at hx
          cases hx

theorem dropLast_append_last {name : Path} (h : name.isRoot = false) :
    name.components.dropLast ++ [name.last] = name.components := by
  have hne : name.components ≠ [] := by simpa [Path.isRoot] using h
  rw [Path.last, List.getLast?_eq_getLast_of_ne_nil hne, Option.getD_some]
  exact List.dropLast_append_getLast hne

/-- A declaration succeeds exactly when the variable can be placed. -/
theorem declare_eq_ok {name : Path} {middle base : Shape} {plan plan' : AxisPlan} :
    declare name middle base plan = .ok () plan' ↔
      place? (middle, base) name.components plan = some plan' := by
  unfold declare
  cases h : name.isRoot with
  | true =>
    have hnil : name.components = [] := by simpa [Path.isRoot] using h
    simp [hnil, place?]
  | false =>
    rw [if_neg Bool.false_ne_true, onSubaxis_declareLocal_eq_ok, dropLast_append_last h]

/-! ## Order of declarations -/

theorem hasVariable_of_place? {shapes : Shape × Shape} {parts : List String}
    {plan plan' : AxisPlan} (h : place? shapes parts plan = some plan') {name : String}
    (hvar : plan.hasVariable name = true) : plan'.hasVariable name = true := by
  cases parts with
  | nil => cases h
  | cons part rest =>
    by_cases hrest : rest = []
    · subst hrest
      rw [place?] at h
      split at h
      · cases h
      · cases h
        simp [hvar]
    · rw [place?_cons hrest] at h
      split at h
      · cases h
      · obtain ⟨sub, -, rfl⟩ := Option.map_eq_some_iff.1 h
        exact hvar

private theorem place?_below_variable (shapes shapes' : Shape × Shape) {part : String}
    {rest : List String} (hrest : rest ≠ []) (parts : List String) {plan : AxisPlan}
    (hvar : plan.hasVariable part = true) :
    (place? shapes parts plan).bind (place? shapes' (part :: rest)) = none := by
  cases h : place? shapes parts plan with
  | none => rfl
  | some plan' =>
    rw [Option.bind_some, place?_cons hrest, if_pos (hasVariable_of_place? h hvar)]

private theorem place?_leaf_leaf (shapes shapes' : Shape × Shape) (leaf leaf' : String)
    (plan : AxisPlan) :
    (place? shapes [leaf] plan).bind (place? shapes' [leaf']) =
      (place? shapes' [leaf'] plan).bind (place? shapes [leaf]) := by
  by_cases hname : leaf = leaf'
  · subst hname
    by_cases h : plan.isTaken leaf = true <;> simp [place?, h]
  · have hcomm := plan.setLeaf_comm hname shapes shapes'
    by_cases h : plan.isTaken leaf = true <;> by_cases h' : plan.isTaken leaf' = true <;>
      simp [place?, h, h', hname, Ne.symm hname, hcomm]

private theorem place?_leaf_nested (shapes shapes' : Shape × Shape) (leaf part : String)
    {rest : List String} (hrest : rest ≠ []) (plan : AxisPlan) :
    (place? shapes [leaf] plan).bind (place? shapes' (part :: rest)) =
      (place? shapes' (part :: rest) plan).bind (place? shapes [leaf]) := by
  have hswap : ∀ sub, (plan.setLeaf leaf shapes).setSubaxis part sub =
      (plan.setSubaxis part sub).setLeaf leaf shapes := fun _ => rfl
  rw [place?_cons hrest]
  by_cases h : plan.isTaken leaf = true
  · by_cases hvar : plan.hasVariable part = true
    · simp [place?, h, hvar]
    · cases hsub : place? shapes' rest (plan.level part) <;> simp [place?, h, hvar]
  · by_cases hname : leaf = part
    · subst hname
      have hvar : plan.hasVariable leaf = false := by
        simp [isTaken] at h
        exact h.1
      cases hsub : place? shapes' rest (plan.level leaf) <;>
        simp [place?, place?_cons hrest, h, hvar]
    · by_cases hvar : plan.hasVariable part = true
      · simp [place?, place?_cons hrest, h, hvar]
      · cases hsub : place? shapes' rest (plan.level part) <;>
          simp [place?, place?_cons hrest, h, hvar, hname, Ne.symm hname, hsub, hswap]

private theorem place?_same_level (shapes shapes' : Shape × Shape) (part : String)
    {rest rest' : List String} (hrest : rest ≠ []) (hrest' : rest' ≠ []) {plan : AxisPlan}
    (hvar : plan.hasVariable part = false) :
    (place? shapes (part :: rest) plan).bind (place? shapes' (part :: rest')) =
      ((place? shapes rest (plan.level part)).bind (place? shapes' rest')).map
        (plan.setSubaxis part) := by
  rw [place?_cons hrest]
  cases hsub : place? shapes rest (plan.level part) with
  | none => simp [hvar]
  | some sub =>
    have hset : (plan.setSubaxis part sub).setSubaxis part = plan.setSubaxis part :=
      funext fun _ => setSubaxis_setSubaxis ..
    simp [place?_cons hrest', hvar, level_setSubaxis, hset]

private theorem place?_other_level (shapes shapes' : Shape × Shape) {part part' : String}
    (hname : part ≠ part') {rest rest' : List String} (hrest : rest ≠ []) (hrest' : rest' ≠ [])
    {plan : AxisPlan} (hvar : plan.hasVariable part = false)
    (hvar' : plan.hasVariable part' = false) :
    (place? shapes (part :: rest) plan).bind (place? shapes' (part' :: rest')) =
      (place? shapes rest (plan.level part)).bind fun sub =>
        (place? shapes' rest' (plan.level part')).map
          ((plan.setSubaxis part sub).setSubaxis part') := by
  rw [place?_cons hrest]
  cases hsub : place? shapes rest (plan.level part) with
  | none => simp [hvar]
  | some sub => simp [place?_cons hrest', hvar, hvar', level_setSubaxis, hname]

/-- Two variables can be placed in either order, with the same plan, or in none. -/
theorem place?_comm (shapes shapes' : Shape × Shape) (parts parts' : List String)
    (plan : AxisPlan) :
    (place? shapes parts plan).bind (place? shapes' parts') =
      (place? shapes' parts' plan).bind (place? shapes parts) := by
  induction parts generalizing parts' plan with
  | nil => simp [place?]
  | cons part rest ih =>
    cases parts' with
    | nil => simp [place?]
    | cons part' rest' =>
      by_cases hrest : rest = []
      · subst hrest
        by_cases hrest' : rest' = []
        · subst hrest'
          exact place?_leaf_leaf ..
        · exact place?_leaf_nested _ _ _ _ hrest' plan
      · by_cases hrest' : rest' = []
        · subst hrest'
          exact (place?_leaf_nested _ _ _ _ hrest plan).symm
        · cases hvar : plan.hasVariable part with
          | true =>
            rw [place?_below_variable _ _ hrest _ hvar, place?_cons hrest, if_pos hvar,
              Option.bind_none]
          | false =>
            cases hvar' : plan.hasVariable part' with
            | true =>
              rw [place?_below_variable _ _ hrest' _ hvar', place?_cons hrest', if_pos hvar',
                Option.bind_none]
            | false =>
              by_cases hname : part = part'
              · subst hname
                rw [place?_same_level _ _ _ hrest hrest' hvar,
                  place?_same_level _ _ _ hrest' hrest hvar, ih]
              · rw [place?_other_level _ _ hname hrest hrest' hvar hvar',
                  place?_other_level _ _ (Ne.symm hname) hrest' hrest hvar' hvar]
                cases hsub : place? shapes rest (plan.level part) <;>
                  cases hsub' : place? shapes' rest' (plan.level part') <;>
                    simp [setSubaxis_comm _ _ _ hname]

def placeAll? (vs : List (List String × Shape × Shape)) (plan : AxisPlan) : Option AxisPlan :=
  vs.foldlM (fun plan v => place? v.2 v.1 plan) plan

theorem placeAll?_cons (v : List String × Shape × Shape)
    (vs : List (List String × Shape × Shape)) (plan : AxisPlan) :
    placeAll? (v :: vs) plan = (place? v.2 v.1 plan).bind (placeAll? vs) := rfl

theorem placeAll?_append (vs ws : List (List String × Shape × Shape)) (plan : AxisPlan) :
    placeAll? (vs ++ ws) plan = (placeAll? vs plan).bind (placeAll? ws) := by
  unfold placeAll?
  rw [List.foldlM_append]
  rfl

theorem placeAll?_perm {vs ws : List (List String × Shape × Shape)} (h : vs.Perm ws)
    (plan : AxisPlan) : placeAll? vs plan = placeAll? ws plan := by
  induction h generalizing plan with
  | nil => rfl
  | cons v _ ih =>
    rw [placeAll?_cons, placeAll?_cons]
    exact congrArg _ (funext ih)
  | swap v w vs =>
    have hswap := place?_comm w.2 v.2 w.1 v.1 plan
    rw [placeAll?_cons, placeAll?_cons]
    simp only [funext (placeAll?_cons _ vs), ← Option.bind_assoc, hswap]
  | trans _ _ ih ih' => exact (ih plan).trans (ih' plan)

/-- The variables of a list, declared one after another up to the first failure. -/
def declareAll (vs : List (Path × Shape × Shape)) : Update TensorError AxisPlan PUnit :=
  vs.forM fun (name, middle, base) => declare name middle base

theorem declareAll_eq_ok {vs : List (Path × Shape × Shape)} {plan plan' : AxisPlan} :
    declareAll vs plan = .ok () plan' ↔
      placeAll? (vs.map fun v => (v.1.components, v.2)) plan = some plan' := by
  induction vs generalizing plan with
  | nil =>
    change EStateM.Result.ok () plan = _ ↔ some plan = _
    simp
  | cons v vs ih =>
    obtain ⟨name, middle, base⟩ := v
    change (declare name middle base >>= fun _ => declareAll vs) plan = _ ↔ _
    rw [Update.bind_eq_ok, List.map_cons, placeAll?_cons, Option.bind_eq_some_iff]
    constructor
    · rintro ⟨_, next, hdeclare, hrest⟩
      exact ⟨next, declare_eq_ok.1 hdeclare, ih.1 hrest⟩
    · rintro ⟨next, hplace, hrest⟩
      exact ⟨(), next, declare_eq_ok.2 hplace, ih.2 hrest⟩

theorem onSubaxis_append {β : Type} (change : Update TensorError AxisPlan β)
    (parts parts' : List String) :
    onSubaxis change (parts ++ parts') = onSubaxis (onSubaxis change parts') parts := by
  induction parts with
  | nil => rfl
  | cons part rest ih => rw [List.cons_append, onSubaxis, ih, onSubaxis]

theorem exists_of_onSubaxis_eq_ok {β : Type} {change : Update TensorError AxisPlan β}
    {parts : List String} {plan plan' : AxisPlan} {b : β}
    (h : onSubaxis change parts plan = .ok b plan') : ∃ sub sub', change sub = .ok b sub' := by
  induction parts generalizing plan plan' with
  | nil => exact ⟨plan, plan', h⟩
  | cons part rest ih =>
    rw [onSubaxis_cons_apply] at h
    by_cases hvar : plan.hasVariable part = true
    · rw [if_pos hvar] at h
      cases h
    · rw [if_neg hvar] at h
      cases hrest : onSubaxis change rest (plan.level part) with
      | ok b' sub =>
        simp only [hrest] at h
        cases h
        exact ih hrest
      | error e sub =>
        simp only [hrest] at h
        cases h

theorem onSubaxis_declare {name : Path} (hname : name.isRoot = false) (sub : Path)
    (middle base : Shape) :
    onSubaxis (declare name middle base) sub.components = declare (sub ++ name) middle base := by
  have hroot : (sub ++ name).isRoot = false := by
    simpa [Path.isRoot] using fun _ => by simpa [Path.isRoot] using hname
  have hcomponents : (sub ++ name).components =
      (sub.components ++ name.components.dropLast) ++ [name.last] := by
    rw [List.append_assoc, dropLast_append_last hname, Path.components_append]
  have hlast : (sub ++ name).last = name.last := by
    rw [Path.last, hcomponents, List.getLast?_concat, Option.getD_some]
  unfold declare
  rw [hname, hroot, hlast, hcomponents, List.dropLast_concat, if_neg Bool.false_ne_true,
    if_neg Bool.false_ne_true, onSubaxis_append]

theorem placeAll?_below {vs : List (List String × Shape × Shape)} (hne : vs ≠ [])
    (hvs : ∀ v ∈ vs, v.1 ≠ []) {plan : AxisPlan} {part : String}
    (hvar : plan.hasVariable part = false) :
    placeAll? (vs.map fun v => (part :: v.1, v.2)) plan =
      (placeAll? vs (plan.level part)).map (plan.setSubaxis part) := by
  induction vs generalizing plan with
  | nil => exact absurd rfl hne
  | cons v vs ih =>
    rw [List.map_cons, placeAll?_cons, placeAll?_cons, place?_cons (hvs v List.mem_cons_self),
      hvar, if_neg Bool.false_ne_true]
    cases place? v.2 v.1 (plan.level part) with
    | none => rfl
    | some sub =>
      change placeAll? (vs.map _) (plan.setSubaxis part sub) = (placeAll? vs sub).map _
      by_cases hvs' : vs = []
      · subst hvs'
        rfl
      · have hset : (plan.setSubaxis part sub).setSubaxis part = plan.setSubaxis part :=
          funext fun _ => setSubaxis_setSubaxis ..
        have hvar' : (plan.setSubaxis part sub).hasVariable part = false := hvar
        rw [ih hvs' (fun w hw => hvs w (List.mem_cons_of_mem v hw)) hvar', level_setSubaxis,
          if_pos rfl, hset]

end AxisPlan

/-! ## Declaring the variables of an axis again -/

namespace Axis

def declarations (a : Axis) : List (List String × Shape × Shape) :=
  a.leaves.map fun v => (v.name.components.drop a.path.depth, v.middle, v.base)

theorem Consecutive.eq_of_map {start : Nat} {vs ws : List VariableLayout}
    (hvs : Consecutive start vs) (hws : Consecutive start ws)
    (h : vs.map (fun v => (v.name.components, v.middle, v.base)) =
      ws.map fun v => (v.name.components, v.middle, v.base)) : vs = ws := by
  induction vs generalizing start ws with
  | nil => exact (List.map_eq_nil_iff.1 h.symm).symm
  | cons v vs ih =>
    obtain ⟨w, ws, rfl, hw, hrest⟩ := List.map_eq_cons_iff.1 h.symm
    simp only [Prod.mk.injEq] at hw
    have heq : v = w := by
      obtain ⟨name, middle, base, place⟩ := v
      obtain ⟨name', middle', base', place'⟩ := w
      obtain ⟨hname, rfl, rfl⟩ := hw
      obtain rfl : name' = name := Path.ext hname
      obtain rfl : place = place' := hvs.1.trans hws.1.symm
      rfl
    subst heq
    rw [ih hvs.2 hws.2 hrest.symm]

end Axis

namespace AxisPlan

open Axis

theorem declarations_freeze (plan : AxisPlan) :
    plan.freeze.declarations =
      plan.freeze.leaves.map fun v => (v.name.components, v.middle, v.base) := by
  unfold declarations freeze
  rw [path_freezeAt]
  rfl

/-- The variables of a sub-axis with their names on the axis above. -/
def nestedDeclarations (path : Path) (s : String × AxisPlan) :
    List (List String × Shape × Shape) :=
  (s.2.freezeAt (path.join s.1)).declarations.map fun v => (s.1 :: v.1, v.2)

theorem drop_join (path : Path) {c : String} (h : IsComponent c) :
    (path.join c).components.drop path.depth = [c] := by
  rw [Path.components_join path h, Path.depth, List.drop_left]

private theorem declarations_placeLeaves (path : Path) (start : Nat)
    {leaves : List (String × Shape × Shape)} (hl : ∀ l ∈ leaves, IsComponent l.1) :
    (placeLeaves path start leaves).map
        (fun v => (v.name.components.drop path.depth, v.middle, v.base)) =
      leaves.map fun l => ([l.1], l.2) := by
  induction leaves generalizing start with
  | nil => rfl
  | cons l leaves ih =>
    rw [placeLeaves, List.map_cons, List.map_cons, drop_join path (hl l List.mem_cons_self),
      ih _ fun l' hl' => hl l' (List.mem_cons_of_mem l hl')]

private theorem declarations_placeSubaxes (path : Path) (start : Nat)
    {subaxes : List (String × AxisPlan)} (hs : ∀ s ∈ subaxes, IsComponent s.1)
    (hsubs : ∀ s ∈ subaxes, WellFormed s.2) :
    ((placeSubaxes path start subaxes).flatMap placedLeaves).map
        (fun v => (v.name.components.drop path.depth, v.middle, v.base)) =
      subaxes.flatMap (nestedDeclarations path) := by
  induction subaxes generalizing start with
  | nil => rfl
  | cons s subaxes ih =>
    obtain ⟨name, plan⟩ := s
    have hname := hs _ List.mem_cons_self
    rw [placeSubaxes, List.flatMap_cons, List.map_append,
      ih _ (fun s hs' => hs s (List.mem_cons_of_mem _ hs'))
        fun s hs' => hsubs s (List.mem_cons_of_mem _ hs'), List.flatMap_cons]
    congr 1
    unfold placedLeaves nestedDeclarations declarations
    rw [List.map_map, List.map_map, path_freezeAt]
    refine List.map_congr_left fun v hv => ?_
    obtain ⟨rest, -, hrest⟩ :=
      (hsubs _ List.mem_cons_self).below_join hname (List.mem_map_of_mem hv)
    have hdepth : (path.join name).depth = path.depth + 1 := depth_join path hname
    simp only [Function.comp_apply, VariableLayout.name_shift]
    rw [hrest, hdepth, Path.depth, List.drop_left, ← List.drop_drop, List.drop_left]
    rfl

theorem WellFormed.declarations_freezeAt {leaves : List (String × Shape × Shape)}
    {subaxes : List (String × AxisPlan)} (h : WellFormed ⟨leaves, subaxes⟩) (path : Path) :
    (freezeAt path ⟨leaves, subaxes⟩).declarations =
      (leaves.map fun l => ([l.1], l.2)) ++ subaxes.flatMap (nestedDeclarations path) := by
  cases h with
  | intro hl hs _ _ _ hsubs =>
    rw [← declarations_placeLeaves path 0 hl, ← declarations_placeSubaxes path _ hs hsubs,
      ← List.map_append, declarations, path_freezeAt, freezeAt]
    rfl

theorem WellFormed.declarations_ne_nil {plan : AxisPlan} (h : WellFormed plan) {path : Path}
    {v : List String × Shape × Shape} (hv : v ∈ (plan.freezeAt path).declarations) : v.1 ≠ [] := by
  obtain ⟨w, hw, rfl⟩ := List.mem_map.1 hv
  obtain ⟨rest, hne, hrest⟩ := h.below_of_mem_names (List.mem_map_of_mem hw)
  rwa [hrest, path_freezeAt, Path.depth, List.drop_left]

theorem find?_eq_none_of_lt {β : Type} {k : String} {l : List (String × β)}
    (h : ∀ e ∈ l, e.1 < k) : SortedEntries.find? k l = none := by
  refine SortedEntries.find?_eq_none fun e he heq => ?_
  have hlt := h e he
  rw [heq] at hlt
  exact String.lt_irrefl k hlt

theorem placeAll?_leaves (done : List (String × Shape × Shape))
    {leaves : List (String × Shape × Shape)} (h : (done ++ leaves).Pairwise fun a b => a.1 < b.1) :
    placeAll? (leaves.map fun l => ([l.1], l.2)) ⟨done, []⟩ = some ⟨done ++ leaves, []⟩ := by
  induction leaves generalizing done with
  | nil =>
    rw [List.append_nil]
    rfl
  | cons l leaves ih =>
    have hbefore : ∀ e ∈ done, e.1 < l.1 :=
      fun e he => (List.pairwise_append.1 h).2.2 e he l List.mem_cons_self
    have hfree : isTaken ⟨done, []⟩ l.1 = false := by
      rw [isTaken, hasVariable, find?_eq_none_of_lt hbefore]
      rfl
    have hset : setLeaf ⟨done, []⟩ l.1 l.2 = ⟨done ++ [l], []⟩ := by
      unfold setLeaf
      rw [SortedEntries.insert_eq_append String.lt_asymm hbefore]
    rw [List.append_cons] at h ⊢
    rw [List.map_cons, placeAll?_cons, place?, hfree, if_neg Bool.false_ne_true, hset]
    exact ih _ h

/-- The plan that some variables make, which lays them out in the order they are given in. -/
structure Rebuilds (path : Path) (vs : List (List String × Shape × Shape))
    (rebuilt : AxisPlan) : Prop where
  placed : placeAll? vs empty = some rebuilt
  wellFormed : WellFormed rebuilt
  declarations_eq : (rebuilt.freezeAt path).declarations = vs

theorem filter_nestedDeclarations (path : Path) (keep : List String → Bool)
    (s : String × AxisPlan) :
    (nestedDeclarations path s).filter (fun v => keep v.1) =
      ((s.2.freezeAt (path.join s.1)).declarations.filter fun v => keep (s.1 :: v.1)).map
        fun v => (s.1 :: v.1, v.2) := by
  rw [nestedDeclarations, List.filter_map]
  rfl

/-- A selection of the variables of sub-axes in ascending order, placed behind the sub-axes that
are there. Of a sub-axis without selected variables nothing is placed. -/
theorem exists_placeAll?_subaxes {leaves : List (String × Shape × Shape)} {path : Path}
    {subaxes : List (String × AxisPlan)} (keep : List String → Bool)
    (done : List (String × AxisPlan))
    (hsubs : ∀ s ∈ subaxes, WellFormed s.2) (hso : subaxes.Pairwise fun a b => a.1 < b.1)
    (hdisjoint : ∀ s ∈ subaxes, ∀ l ∈ leaves, l.1 ≠ s.1)
    (hrebuild : ∀ s ∈ subaxes, ∃ sub, Rebuilds (path.join s.1)
      ((s.2.freezeAt (path.join s.1)).declarations.filter fun v => keep (s.1 :: v.1)) sub)
    (hdone : ∀ s ∈ subaxes, ∀ d ∈ done, d.1 < s.1) :
    ∃ rebuilt, placeAll? ((subaxes.flatMap (nestedDeclarations path)).filter fun v => keep v.1)
        ⟨leaves, done⟩ = some ⟨leaves, done ++ rebuilt⟩ ∧
      (rebuilt.map (·.1)).Sublist (subaxes.map (·.1)) ∧ (∀ s ∈ rebuilt, WellFormed s.2) ∧
      rebuilt.flatMap (nestedDeclarations path) =
        (subaxes.flatMap (nestedDeclarations path)).filter fun v => keep v.1 := by
  induction subaxes generalizing done with
  | nil => exact ⟨[], by simp [placeAll?], by simp, by simp, rfl⟩
  | cons s subaxes ih =>
    obtain ⟨name, plan⟩ := s
    obtain ⟨hfirst, hso⟩ := List.pairwise_cons.1 hso
    rw [List.forall_mem_cons] at hsubs hdisjoint hrebuild hdone
    obtain ⟨sub, hsub⟩ := hrebuild.1
    rw [List.flatMap_cons, List.filter_append, placeAll?_append, filter_nestedDeclarations]
    by_cases hempty : ((plan.freezeAt (path.join name)).declarations.filter fun v =>
        keep (name :: v.1)) = []
    · obtain ⟨rebuilt, hplaced, hnames, hwell, hsame⟩ :=
        ih _ hsubs.2 hso hdisjoint.2 hrebuild.2 hdone.2
      rw [hempty, List.map_nil, List.nil_append]
      exact ⟨rebuilt, hplaced, hnames.trans (List.sublist_cons_self ..), hwell, hsame⟩
    · have hvar : hasVariable ⟨leaves, done⟩ name = false := by
        rw [hasVariable, SortedEntries.find?_eq_none hdisjoint.1]
        rfl
      have hlevel : level ⟨leaves, done⟩ name = empty := by
        rw [level, subaxis?, find?_eq_none_of_lt hdone.1]
        rfl
      have hset : setSubaxis ⟨leaves, done⟩ name sub = ⟨leaves, done ++ [(name, sub)]⟩ := by
        rw [setSubaxis, SortedEntries.insert_eq_append String.lt_asymm hdone.1]
      have hplace : placeAll? (((plan.freezeAt (path.join name)).declarations.filter fun v =>
          keep (name :: v.1)).map fun v => (name :: v.1, v.2)) ⟨leaves, done⟩ =
          some ⟨leaves, done ++ [(name, sub)]⟩ := by
        rw [placeAll?_below hempty
          (fun v hv => hsubs.1.declarations_ne_nil (List.mem_of_mem_filter hv)) hvar, hlevel,
          hsub.placed, Option.map_some, hset]
      have hdone' : ∀ s ∈ subaxes, ∀ d ∈ done ++ [(name, sub)], d.1 < s.1 := by
        intro s hs d hd
        rcases List.mem_append.1 hd with hd | hd
        · exact hdone.2 s hs d hd
        · rw [List.mem_singleton.1 hd]
          exact hfirst s hs
      obtain ⟨rebuilt, hplaced, hnames, hwell, hsame⟩ :=
        ih _ hsubs.2 hso hdisjoint.2 hrebuild.2 hdone'
      refine ⟨(name, sub) :: rebuilt, ?_, hnames.cons_cons name, ?_, ?_⟩
      · rw [hplace, Option.bind_some, hplaced, List.append_assoc]
        rfl
      · rw [List.forall_mem_cons]
        exact ⟨hsub.wellFormed, hwell⟩
      · rw [List.flatMap_cons, hsame, nestedDeclarations, hsub.declarations_eq]

/-- Any selection of the variables of a well-formed plan, declared again, makes a plan of the
selected variables in the same order. -/
theorem WellFormed.exists_rebuilds_filter {plan : AxisPlan} (h : WellFormed plan) (path : Path)
    (keep : List String → Bool) :
    ∃ rebuilt, Rebuilds path
      ((plan.freezeAt path).declarations.filter fun v => keep v.1) rebuilt := by
  induction h generalizing path keep with
  | @intro leaves subaxes hl hs hlo hso hdisjoint hsubs ih =>
    have hkept : (leaves.filter fun l => keep [l.1]).Sublist leaves := List.filter_sublist
    have hown := placeAll?_leaves [] (hlo.sublist hkept)
    obtain ⟨rebuilt, hplaced, hnames, hwell, hsame⟩ := exists_placeAll?_subaxes keep [] hsubs
      hso (fun s hmem l hmem' => hdisjoint l (hkept.subset hmem') s hmem)
      (fun s hmem => ih s hmem (path.join s.1) fun parts => keep (s.1 :: parts)) (by simp)
    have hrebuilt : ∀ s ∈ rebuilt, ∃ s' ∈ subaxes, s'.1 = s.1 := fun s hmem =>
      List.mem_map.1 (hnames.subset (List.mem_map_of_mem hmem))
    have hformed : WellFormed ⟨leaves.filter fun l => keep [l.1], rebuilt⟩ := by
      refine .intro (fun l hmem => hl l (hkept.subset hmem)) (fun s hmem => ?_)
        (hlo.sublist hkept) ?_ (fun l hmem s hmem' => ?_) hwell
      · obtain ⟨s', hmem', heq⟩ := hrebuilt s hmem
        rw [← heq]
        exact hs s' hmem'
      · have hsorted : (subaxes.map (·.1)).Pairwise (· < ·) := List.pairwise_map.2 hso
        exact List.pairwise_map.1 (hsorted.sublist hnames)
      · obtain ⟨s', hmem', heq⟩ := hrebuilt s hmem'
        rw [← heq]
        exact hdisjoint l (hkept.subset hmem) s' hmem'
    have hselected : (freezeAt path ⟨leaves, subaxes⟩).declarations.filter (fun v => keep v.1) =
        ((leaves.filter fun l => keep [l.1]).map fun l => ([l.1], l.2)) ++
          (subaxes.flatMap (nestedDeclarations path)).filter fun v => keep v.1 := by
      rw [(WellFormed.intro hl hs hlo hso hdisjoint hsubs).declarations_freezeAt,
        List.filter_append, List.filter_map]
      rfl
    rw [hselected]
    refine ⟨⟨leaves.filter fun l => keep [l.1], rebuilt⟩, ?_, hformed, ?_⟩
    · rw [placeAll?_append]
      change (placeAll? _ ⟨[], []⟩).bind _ = _
      rw [hown, Option.bind_some, List.nil_append]
      exact hplaced
    · rw [hformed.declarations_freezeAt, hsame]

theorem WellFormed.exists_rebuilds {plan : AxisPlan} (h : WellFormed plan) (path : Path) :
    ∃ rebuilt, Rebuilds path (plan.freezeAt path).declarations rebuilt := by
  have hall := h.exists_rebuilds_filter path fun _ => true
  rwa [List.filter_true] at hall

theorem leaves_freeze_eq {plan plan' : AxisPlan}
    (h : plan.freeze.declarations = plan'.freeze.declarations) :
    plan.freeze.leaves = plan'.freeze.leaves := by
  rw [declarations_freeze, declarations_freeze] at h
  exact (consecutive_freezeAt .root plan).eq_of_map (consecutive_freezeAt .root plan') h

theorem components_name (vs : List VariableLayout) :
    (vs.map fun v => (v.name, v.middle, v.base)).map (fun v => (v.1.components, v.2)) =
      vs.map fun v => (v.name.components, v.middle, v.base) := by
  rw [List.map_map]
  rfl

/-- The axis that some declarations make does not depend on their order: in any other order they
fail as well, or succeed with a plan whose axis is the same at every level. Declaring a variable
below a sub-axis is declaring it under the longer name, and the variables of an axis, declared
again, make an equal axis. -/
theorem declareAll_order_independent :
    (∀ (vs ws : List (Path × Shape × Shape)) (plan : AxisPlan), vs.Perm ws →
      (∃ built built', (declareAll vs).outcome plan = (.ok (), built) ∧
        (declareAll ws).outcome plan = (.ok (), built') ∧ built.freeze = built'.freeze ∧
        (built.freeze == built'.freeze) = true) ∨
      ∃ e e' left left', (declareAll vs).outcome plan = (.error e, left) ∧
        (declareAll ws).outcome plan = (.error e', left')) ∧
    (∀ (sub name : Path) (middle base : Shape) (plan built : AxisPlan),
      (onSubaxis (declare name middle base) sub.components).outcome plan = (.ok (), built) ↔
        name.isRoot = false ∧
          (declare (sub ++ name) middle base).outcome plan = (.ok (), built)) ∧
    ∀ plan : AxisPlan, plan.Built → ∃ built,
      (declareAll (plan.freeze.leaves.map fun v => (v.name, v.middle, v.base))).outcome empty =
        (.ok (), built) ∧ (built.freeze == plan.freeze) = true := by
  refine ⟨fun vs ws plan hperm => ?_, fun sub name middle base plan built => ?_,
    fun plan hplan => ?_⟩
  · have hplaces : placeAll? (vs.map fun v => (v.1.components, v.2)) plan =
        placeAll? (ws.map fun v => (v.1.components, v.2)) plan := placeAll?_perm (hperm.map _) plan
    cases hvs : declareAll vs plan with
    | ok _ built =>
      have hws : declareAll ws plan = .ok () built := by
        rw [declareAll_eq_ok, ← hplaces]
        exact declareAll_eq_ok.1 hvs
      exact .inl ⟨built, built, Update.outcome_eq_ok.2 hvs, Update.outcome_eq_ok.2 hws, rfl,
        decide_eq_true rfl⟩
    | error e left =>
      cases hws : declareAll ws plan with
      | ok _ built =>
        have hvs' : declareAll vs plan = .ok () built := by
          rw [declareAll_eq_ok, hplaces]
          exact declareAll_eq_ok.1 hws
        rw [hvs'] at hvs
        cases hvs
      | error e' left' =>
        refine .inr ⟨e, e', left, left', ?_, ?_⟩
        · rw [Update.outcome, hvs]
        · rw [Update.outcome, hws]
  · cases hname : name.isRoot with
    | false =>
      rw [onSubaxis_declare hname]
      simp
    | true =>
      refine ⟨fun h => ?_, fun h => absurd h.1 (by simp)⟩
      obtain ⟨_, _, h'⟩ := exists_of_onSubaxis_eq_ok (Update.outcome_eq_ok.1 h)
      rw [declare, hname, if_pos rfl] at h'
      cases h'
  · obtain ⟨built, hbuilt⟩ := hplan.wellFormed.exists_rebuilds .root
    have hdeclare : declareAll (plan.freeze.leaves.map fun v => (v.name, v.middle, v.base)) empty =
        .ok () built := by
      rw [declareAll_eq_ok, components_name, ← declarations_freeze]
      exact hbuilt.placed
    exact ⟨built, Update.outcome_eq_ok.2 hdeclare,
      decide_eq_true (leaves_freeze_eq hbuilt.declarations_eq)⟩

/-- A variable beside a sub-axis with variables, and one variable below another. -/
theorem declareAll_reversed :
    (∃ built built', (declareAll [("z", [], []), ("m/a", [3], []), ("m/s/x", [], [2])]).outcome
        empty = (.ok (), built) ∧
      (declareAll [("m/s/x", [], [2]), ("m/a", [3], []), ("z", [], [])]).outcome empty =
        (.ok (), built') ∧ built.freeze = built'.freeze) ∧
    (∃ e e' left left', (declareAll [("m", [], []), ("m/a", [3], [])]).outcome empty =
        (.error e, left) ∧
      (declareAll [("m/a", [3], []), ("m", [], [])]).outcome empty = (.error e', left')) ∧
    ∃ built, (declareAll [("z", [], []), ("m/a", [3], []), ("m/s/x", [], [2])]).outcome empty =
      (.ok (), built) ∧ (built.freeze == nestedPlan.freeze) = true := by
  obtain ⟨horder, -, hrebuild⟩ := declareAll_order_independent
  refine ⟨?_, ?_, hrebuild nestedPlan built_nestedPlan⟩
  · rcases horder [("z", [], []), ("m/a", [3], []), ("m/s/x", [], [2])]
      [("m/s/x", [], [2]), ("m/a", [3], []), ("z", [], [])] empty (by decide) with
      ⟨built, built', hvs, hws, hfreeze, -⟩ | ⟨e, e', left, left', hvs, -⟩
    · exact ⟨built, built', hvs, hws, hfreeze⟩
    · cases hvs
  · rcases horder [("m", [], []), ("m/a", [3], [])] [("m/a", [3], []), ("m", [], [])] empty
      (by decide) with ⟨built, built', hvs, -⟩ | herror
    · cases hvs
    · exact herror

end AxisPlan

/-! ## Selections of the variables of an axis -/

namespace Axis

def declared (a : Axis) : List (Path × Shape × Shape) :=
  a.leaves.map fun v => (v.name, v.middle, v.base)

theorem Formed.exists_declared {a : Axis} (h : a.Formed) : ∃ plan : AxisPlan, plan.Built ∧
    a.declared = plan.freeze.declared.filter fun v => v.1.isUnder a.path := by
  have hleaves : ∃ (plan : AxisPlan) (n : Nat), plan.Built ∧
      plan.freeze.leaves.filter (·.name.isUnder a.path) = a.leaves.map (·.shift n) := by
    induction h with
    | @frozen plan hplan =>
      refine ⟨plan, 0, hplan, ?_⟩
      rw [(Formed.frozen hplan).level.filter_isUnder_path]
      simp
    | @subaxis a sub name ha hsub ih =>
      obtain ⟨plan, n, hplan, hroot⟩ := ih
      obtain ⟨ranges, hleads⟩ := exists_leads name.valid (subaxis_eq_ok.1 hsub)
      obtain ⟨-, hpath, hnested⟩ := hleads.nested name.valid ha
      refine ⟨plan, Shape.total (ranges.map (·.1)) + n, hplan, ?_⟩
      calc plan.freeze.leaves.filter (·.name.isUnder sub.path)
          = (plan.freeze.leaves.filter (·.name.isUnder a.path)).filter
              (·.name.isUnder sub.path) :=
            (filter_isUnder_isUnder _ (Path.isUnder_iff.2 ⟨_, hpath⟩)).symm
        _ = (a.leaves.filter (·.name.isUnder sub.path)).map (·.shift n) := by
            rw [hroot, List.filter_map]
            rfl
        _ = sub.leaves.map (·.shift (Shape.total (ranges.map (·.1)) + n)) := by
            rw [hnested, List.map_map]
            refine List.map_congr_left fun v _ => ?_
            rw [Function.comp_apply, VariableLayout.shift_shift, Nat.add_comm]
  obtain ⟨plan, n, hplan, hleaves⟩ := hleaves
  have hmap := congrArg (List.map fun v => (v.name, v.middle, v.base)) hleaves
  refine ⟨plan, hplan, ?_⟩
  rw [declared, declared, List.filter_map]
  exact ((List.map_map ..).symm.trans hmap.symm).trans rfl

theorem declarations_eq_declared (plan : AxisPlan) :
    plan.freeze.declarations = plan.freeze.declared.map fun v => (v.1.components, v.2) := by
  rw [AxisPlan.declarations_freeze, declared, AxisPlan.components_name]

theorem components_injective :
    Function.Injective fun v : Path × Shape × Shape => (v.1.components, v.2) := by
  intro v w h
  obtain ⟨hname, hshapes⟩ := Prod.mk.inj h
  exact Prod.ext (Path.ext hname) hshapes

/-- Any selection of the variables of an axis, declared under their absolute names, makes an axis
of the selected variables in the same order. -/
theorem Formed.exists_declareAll {a : Axis} (h : a.Formed) (keep : List String → Bool) :
    ∃ built : AxisPlan,
      AxisPlan.declareAll (a.declared.filter fun v => keep v.1.components) .empty =
        .ok () built ∧
      built.freeze.declared = a.declared.filter fun v => keep v.1.components := by
  obtain ⟨plan, hplan, hdeclared⟩ := h.exists_declared
  obtain ⟨built, hbuilt⟩ := hplan.wellFormed.exists_rebuilds_filter .root fun parts =>
    keep parts && a.path.components.isPrefixOf parts
  have hselected : (plan.freeze.declarations.filter fun v =>
      keep v.1 && a.path.components.isPrefixOf v.1) =
        (a.declared.filter fun v => keep v.1.components).map fun v => (v.1.components, v.2) := by
    rw [hdeclared, List.filter_filter, declarations_eq_declared, List.filter_map]
    rfl
  refine ⟨built, ?_, components_injective.list_map ?_⟩
  · rw [AxisPlan.declareAll_eq_ok, ← hselected]
    exact hbuilt.placed
  · rw [← hselected, ← declarations_eq_declared]
    exact hbuilt.declarations_eq

theorem Laid.leaves_eq_of_declared {a b : Axis} (ha : a.Laid) (hb : b.Laid)
    (h : a.declared = b.declared) : a.leaves = b.leaves := by
  refine ha.consecutive.eq_of_map hb.consecutive ?_
  have hcomponents := congrArg (List.map fun v => (v.1.components, v.2)) h
  rwa [declared, declared, AxisPlan.components_name, AxisPlan.components_name] at hcomponents

end Axis

end TieredCalculus
