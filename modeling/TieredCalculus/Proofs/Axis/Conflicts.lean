import TieredCalculus.Proofs.Axis.Order

/-! # Conflicts of names

A declaration fails where a variable stands on its way, where the name it ends in is taken or
where it has no name at all. It opens levels on its way down, before it comes to a name that may
be taken. But a level that it has opened itself is empty, and nothing fails below an empty level:
a declaration that fails has opened no level and leaves the plan as it was.
-/

namespace TieredCalculus

theorem SortedEntries.insert_of_find? {κ β : Type} [DecidableEq κ] [LT κ] [DecidableLT κ]
    (irrefl : ∀ a : κ, ¬ a < a) (asymm : ∀ {a b : κ}, a < b → ¬ b < a) {k : κ} {v : β}
    {l : List (κ × β)} (hl : l.Pairwise fun a b => a.1 < b.1) (h : find? k l = some v) :
    insert k v l = l := by
  induction l with
  | nil => cases h
  | cons e l ih =>
    obtain ⟨hfirst, hl⟩ := List.pairwise_cons.1 hl
    rw [find?_cons] at h
    by_cases hk : e.1 = k
    · rw [if_pos hk] at h
      cases h
      rw [← hk]
      simp [insert, irrefl e.1]
    · rw [if_neg hk] at h
      have hlt : e.1 < k := hfirst _ (mem_of_find?_eq_some h)
      simp [insert, hlt, asymm hlt, ih hl h]

namespace AxisPlan

/-! ## Nested levels -/

def nested? : List String → AxisPlan → Option AxisPlan
  | [], plan => some plan
  | part :: rest, plan => (plan.subaxis? part).bind (nested? rest)

@[simp] theorem nested?_nil (plan : AxisPlan) : nested? [] plan = some plan := rfl

theorem nested?_cons (part : String) (rest : List String) (plan : AxisPlan) :
    nested? (part :: rest) plan = (plan.subaxis? part).bind (nested? rest) := rfl

/-- Some prefix of the path leads through sub-axes to a variable, which the error names. -/
def Blocks (plan : AxisPlan) (parts : List String) (e : TensorError) : Prop :=
  ∃ front leaf rest level, parts = front ++ leaf :: rest ∧ nested? front plan = some level ∧
    level.hasVariable leaf = true ∧ e = .duplicate leaf

theorem WellFormed.subaxis?_of_hasVariable {plan : AxisPlan} (h : WellFormed plan) {name : String}
    (hvar : plan.hasVariable name = true) : plan.subaxis? name = none := by
  cases h with
  | @intro leaves subaxes _ _ _ _ hdisjoint _ =>
    obtain ⟨shapes, hleaf⟩ := Option.isSome_iff_exists.1 hvar
    refine SortedEntries.find?_eq_none fun s hs heq => ?_
    exact hdisjoint _ (SortedEntries.mem_of_find?_eq_some hleaf) s hs heq.symm

theorem WellFormed.hasVariable_of_subaxis? {plan sub : AxisPlan} (h : WellFormed plan)
    {name : String} (hsub : plan.subaxis? name = some sub) : plan.hasVariable name = false := by
  rw [← Bool.not_eq_true]
  intro hvar
  rw [h.subaxis?_of_hasVariable hvar] at hsub
  cases hsub

theorem blocks_cons {plan : AxisPlan} {part : String} {rest : List String} {e : TensorError} :
    plan.Blocks (part :: rest) e ↔ plan.hasVariable part = true ∧ e = .duplicate part ∨
      ∃ sub, plan.subaxis? part = some sub ∧ sub.Blocks rest e := by
  constructor
  · rintro ⟨_ | ⟨first, front⟩, leaf, tail, level, hparts, hlevel, hvar, he⟩
    · cases hparts
      cases hlevel
      exact .inl ⟨hvar, he⟩
    · cases hparts
      obtain ⟨sub, hsub, hrest⟩ := Option.bind_eq_some_iff.1 hlevel
      exact .inr ⟨sub, hsub, ⟨front, leaf, tail, level, rfl, hrest, hvar, he⟩⟩
  · rintro (⟨hvar, he⟩ | ⟨sub, hsub, hblocks⟩)
    · exact ⟨[], part, rest, plan, rfl, rfl, hvar, he⟩
    · obtain ⟨front, leaf, tail, level, rfl, hlevel, hvar, he⟩ := hblocks
      refine ⟨part :: front, leaf, tail, level, rfl, ?_, hvar, he⟩
      rw [nested?, hsub, Option.bind_some, hlevel]

theorem not_blocks_nil (plan : AxisPlan) (e : TensorError) : ¬ plan.Blocks [] e := by
  rintro ⟨front, leaf, rest, level, h, -⟩
  simp at h

/-! ## Changes of a nested level -/

theorem WellFormed.setSubaxis_self {plan sub : AxisPlan} {part : String} (h : WellFormed plan)
    (hsub : plan.subaxis? part = some sub) : plan.setSubaxis part sub = plan := by
  cases h with
  | intro _ _ _ hso _ _ =>
    unfold AxisPlan.setSubaxis
    rw [SortedEntries.insert_of_find? String.lt_irrefl String.lt_asymm hso hsub]

theorem WellFormed.nested {plan level : AxisPlan} {parts : List String} (h : WellFormed plan)
    (hlevel : nested? parts plan = some level) : WellFormed level := by
  induction parts generalizing plan with
  | nil =>
    cases hlevel
    exact h
  | cons part rest ih =>
    obtain ⟨sub, hsub, hrest⟩ := Option.bind_eq_some_iff.1 hlevel
    exact ih (h.subaxis hsub) hrest

theorem onSubaxis_cons_eq_error {change : Update TensorError AxisPlan Unit} {part : String}
    {rest : List String} {plan left : AxisPlan} {e : TensorError} :
    onSubaxis change (part :: rest) plan = .error e left ↔
      plan.hasVariable part = true ∧ e = .duplicate part ∧ left = plan ∨
        plan.hasVariable part = false ∧ ∃ sub,
          onSubaxis change rest (plan.level part) = .error e sub ∧
            left = plan.setSubaxis part sub := by
  rw [onSubaxis_cons_apply]
  cases hvar : plan.hasVariable part with
  | true => simp [eq_comm]
  | false => cases onSubaxis change rest (plan.level part) <;> simp [eq_comm]

theorem level_of_some {plan sub : AxisPlan} {part : String} (h : plan.subaxis? part = some sub) :
    plan.level part = sub := by
  unfold level
  rw [h, Option.getD_some]

theorem level_of_none {plan : AxisPlan} {part : String} (h : plan.subaxis? part = none) :
    plan.level part = empty := by
  unfold level
  rw [h, Option.getD_none]

theorem onSubaxis_empty_ne_error {change : Update TensorError AxisPlan Unit}
    (hempty : ∀ e left, change empty ≠ .error e left) (parts : List String) (e : TensorError)
    (left : AxisPlan) : onSubaxis change parts empty ≠ .error e left := by
  induction parts generalizing left with
  | nil => exact hempty e left
  | cons part rest ih =>
    intro hfail
    obtain ⟨hvar, -⟩ | ⟨-, sub, hsub, -⟩ := onSubaxis_cons_eq_error.1 hfail
    · cases hvar
    · exact ih sub hsub

theorem eq_error_iff_of_keeps {change : Update TensorError AxisPlan Unit} {plan left : AxisPlan}
    {e : TensorError} (hkeep : ∀ {left}, change plan = .error e left → left = plan) :
    change plan = .error e left ↔ left = plan ∧ change plan = .error e plan := by
  constructor
  · intro hfail
    obtain rfl := hkeep hfail
    exact ⟨rfl, hfail⟩
  · rintro ⟨rfl, hfail⟩
    exact hfail

theorem WellFormed.onSubaxis_cons_some {change : Update TensorError AxisPlan Unit} {part : String}
    {rest : List String} {plan sub left : AxisPlan} {e : TensorError} {fails : Prop}
    (h : WellFormed plan) (hsub : plan.subaxis? part = some sub)
    (hrest : ∀ {left}, AxisPlan.onSubaxis change rest sub = .error e left ↔ left = sub ∧ fails) :
    AxisPlan.onSubaxis change (part :: rest) plan = .error e left ↔ left = plan ∧ fails := by
  rw [onSubaxis_cons_eq_error, h.hasVariable_of_subaxis? hsub, level_of_some hsub]
  simp only [hrest, Bool.false_eq_true, false_and, false_or, true_and]
  constructor
  · rintro ⟨_, ⟨rfl, hfail⟩, rfl⟩
    exact ⟨h.setSubaxis_self hsub, hfail⟩
  · rintro ⟨rfl, hfail⟩
    exact ⟨sub, ⟨rfl, hfail⟩, (h.setSubaxis_self hsub).symm⟩

/-- A change below a path fails where the path is blocked, or on the level at its end if there is
one. A change that leaves this level as it was leaves the plan as it was. -/
theorem WellFormed.onSubaxis_eq_error {change : Update TensorError AxisPlan Unit}
    (hkeep : ∀ {level e left}, WellFormed level → change level = .error e left → left = level)
    (hempty : ∀ e left, change empty ≠ .error e left) {parts : List String} {plan left : AxisPlan}
    {e : TensorError} (h : WellFormed plan) :
    AxisPlan.onSubaxis change parts plan = .error e left ↔ left = plan ∧ (plan.Blocks parts e ∨
      ∃ level, nested? parts plan = some level ∧ change level = .error e level) := by
  induction parts generalizing plan left with
  | nil =>
    simp only [not_blocks_nil, false_or, nested?_nil, Option.some.injEq, exists_eq_left']
    exact eq_error_iff_of_keeps (hkeep h)
  | cons part rest ih =>
    rw [blocks_cons, nested?_cons]
    cases hsub : plan.subaxis? part with
    | none =>
      have hnew := onSubaxis_empty_ne_error hempty rest e
      rw [onSubaxis_cons_eq_error, level_of_none hsub]
      simp [hnew]
      tauto
    | some sub =>
      rw [h.onSubaxis_cons_some hsub (ih (h.subaxis hsub)), h.hasVariable_of_subaxis? hsub]
      simp

theorem WellFormed.onSubaxis_nested {change : Update TensorError AxisPlan Unit}
    {parts : List String} {plan level left : AxisPlan} {e : TensorError} (h : WellFormed plan)
    (hlevel : nested? parts plan = some level)
    (hkeep : ∀ {left}, change level = .error e left → left = level) :
    AxisPlan.onSubaxis change parts plan = .error e left ↔
      left = plan ∧ change level = .error e level := by
  induction parts generalizing plan left with
  | nil =>
    cases hlevel
    exact eq_error_iff_of_keeps hkeep
  | cons part rest ih =>
    obtain ⟨sub, hsub, hrest⟩ := Option.bind_eq_some_iff.1 hlevel
    exact h.onSubaxis_cons_some hsub (ih (h.subaxis hsub) hrest)

/-! ## Declarations -/

theorem nested?_concat (front : List String) (leaf : String) (plan : AxisPlan) :
    nested? (front ++ [leaf]) plan = (nested? front plan).bind (·.subaxis? leaf) := by
  induction front generalizing plan with
  | nil => exact Option.bind_fun_some _
  | cons part front ih =>
    rw [List.cons_append, nested?_cons, nested?_cons, Option.bind_assoc]
    exact congrArg _ (funext ih)

theorem blocks_concat {plan : AxisPlan} {front : List String} {leaf : String} {e : TensorError} :
    plan.Blocks (front ++ [leaf]) e ↔ plan.Blocks front e ∨
      ∃ level, nested? front plan = some level ∧ level.hasVariable leaf = true ∧
        e = .duplicate leaf := by
  induction front generalizing plan with
  | nil => simp [blocks_cons, not_blocks_nil]
  | cons part front ih =>
    simp only [List.cons_append, blocks_cons, ih, nested?_cons, Option.bind_eq_some_iff]
    grind

theorem declareLocal_eq_error {name : String} {middle base : Shape} {plan left : AxisPlan}
    {e : TensorError} : declareLocal name middle base plan = .error e left ↔
      left = plan ∧ plan.isTaken name = true ∧ e = .duplicate name := by
  unfold declareLocal isTaken
  by_cases h : (plan.hasVariable name || (plan.subaxis? name).isSome) = true
  · simp only [Update.bind_apply, Update.get_apply, if_pos h, Update.throw_apply]
    simp [h, eq_comm, and_comm]
  · simp only [Update.bind_apply, Update.get_apply, Update.modify_apply, if_neg h]
    simp [h]

/-- Why no variable of a name can be declared. -/
def Refuses (plan : AxisPlan) (name : Path) (e : TensorError) : Prop :=
  name.isRoot = true ∧ e = .invalidShape .emptyName ∨ plan.Blocks name.components e ∨
    name.isRoot = false ∧ (nested? name.components plan).isSome = true ∧ e = .duplicate name.last

theorem WellFormed.declare_eq_error {plan left : AxisPlan} {name : Path} {middle base : Shape}
    {e : TensorError} (h : WellFormed plan) :
    AxisPlan.declare name middle base plan = .error e left ↔
      left = plan ∧ plan.Refuses name e := by
  unfold AxisPlan.declare Refuses
  cases hroot : name.isRoot with
  | true =>
    have hnil : name.components = [] := by simpa [Path.isRoot] using hroot
    simp [hnil, not_blocks_nil, eq_comm, and_comm]
  | false =>
    have hkeep : ∀ {level e left}, WellFormed level →
        AxisPlan.declareLocal name.last middle base level = .error e left → left = level :=
      fun _ hfail => (declareLocal_eq_error.1 hfail).1
    have hempty : ∀ e left,
        AxisPlan.declareLocal name.last middle base empty ≠ .error e left := by
      intro e left hfail
      cases (declareLocal_eq_error.1 hfail).2.1
    have hsplit := dropLast_append_last hroot
    rw [if_neg Bool.false_ne_true, h.onSubaxis_eq_error hkeep hempty]
    generalize name.components.dropLast = front at hsplit
    rw [← hsplit, blocks_concat, nested?_concat]
    cases nested? front plan with
    | none => simp
    | some level =>
      simp [declareLocal_eq_error, isTaken]
      tauto

theorem WellFormed.declareSubaxis_eq_error {plan left : AxisPlan} {name : Path} {e : TensorError}
    (h : WellFormed plan) : AxisPlan.declareSubaxis name plan = .error e left ↔
      left = plan ∧ plan.Blocks name.components e := by
  unfold AxisPlan.declareSubaxis
  rw [h.onSubaxis_eq_error (by simp) (by simp)]
  simp

/-- A declaration on any level of a plan that declarations have built fails and leaves the whole
plan as it was, or it succeeds. One of a variable fails exactly where it has no name, where a
variable stands on the way to it or at its name, or where its name is that of a sub-axis. One of
a sub-axis fails exactly where a variable stands on the way to it or at its name. Afterwards the
names on every level are components, and none of them is both a variable and a sub-axis. -/
theorem failed_declaration_untouched {plan level : AxisPlan} {within : Path} (h : plan.Built)
    (hlevel : nested? within.components plan = some level) :
    (∀ (name : Path) (middle base : Shape) (e : TensorError) (left : AxisPlan),
      (onSubaxis (declare name middle base) within.components).outcome plan = (.error e, left) ↔
        left = plan ∧ level.Refuses name e) ∧
    (∀ (name : Path) (e : TensorError) (left : AxisPlan),
      (onSubaxis (declareSubaxis name) within.components).outcome plan = (.error e, left) ↔
        left = plan ∧ level.Blocks name.components e) ∧
    ∀ change : Update TensorError AxisPlan Unit, Declaration change →
      ∀ (parts : List String) (sub : AxisPlan),
        nested? parts (change.outcome plan).2 = some sub →
          (∀ l ∈ sub.leaves, IsComponent l.1) ∧ (∀ s ∈ sub.subaxes, IsComponent s.1) ∧
            ∀ l ∈ sub.leaves, ∀ s ∈ sub.subaxes, l.1 ≠ s.1 := by
  have hwell := h.wellFormed
  have hlevelWell := hwell.nested hlevel
  refine ⟨fun name middle base e left => ?_, fun name e left => ?_,
    fun change hchange parts sub hsub => ?_⟩
  · rw [Update.outcome_eq_error, hwell.onSubaxis_nested hlevel
      fun hfail => (hlevelWell.declare_eq_error.1 hfail).1, hlevelWell.declare_eq_error]
    simp
  · rw [Update.outcome_eq_error, hwell.onSubaxis_nested hlevel
      fun hfail => (hlevelWell.declareSubaxis_eq_error.1 hfail).1,
      hlevelWell.declareSubaxis_eq_error]
    simp
  · cases (hwell.declaration hchange).nested hsub with
    | intro hl hs _ _ hdisjoint _ => exact ⟨hl, hs, hdisjoint⟩

theorem nestedPlan_conflicts : nestedPlan.Built ∧
    (onSubaxis (declare "a/new/x" [] []) ("m" : Path).components).outcome nestedPlan =
      (.error (.duplicate "a"), nestedPlan) ∧
    (onSubaxis (declare "s" [] []) ("m" : Path).components).outcome nestedPlan =
      (.error (.duplicate "s"), nestedPlan) ∧
    (onSubaxis (declareSubaxis "a/new") ("m" : Path).components).outcome nestedPlan =
      (.error (.duplicate "a"), nestedPlan) := by
  have hlevel : nested? ("m" : Path).components nestedPlan =
      some ⟨[("a", [3], [])], [("s", ⟨[("x", [], [2])], []⟩)]⟩ := rfl
  have hblocked : ∀ rest, Blocks ⟨[("a", [3], [])], [("s", ⟨[("x", [], [2])], []⟩)]⟩
      ("a" :: rest) (.duplicate "a") := fun _ => blocks_cons.2 (.inl ⟨rfl, rfl⟩)
  obtain ⟨hvariable, hsubaxis, -⟩ := failed_declaration_untouched built_nestedPlan hlevel
  refine ⟨built_nestedPlan, ?_, ?_, ?_⟩
  · exact (hvariable "a/new/x" [] [] _ _).2 ⟨rfl, .inr (.inl (hblocked ["new", "x"]))⟩
  · exact (hvariable "s" [] [] _ _).2 ⟨rfl, .inr (.inr ⟨rfl, rfl, rfl⟩)⟩
  · exact (hsubaxis "a/new" _ _).2 ⟨rfl, hblocked ["new"]⟩

end AxisPlan

end TieredCalculus
