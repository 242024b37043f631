import TieredCalculus.Proofs.Axis.Layout

/-! # Levels of frozen axes

A level of an axis has variables of its own and sub-axes, both in ascending order of their
names, the variables first. Taken as one variable each, the sub-axes follow the variables
without gaps, and the variables below a sub-axis are those of the sub-axis at its place. Going
down level by level, a nested sub-axis is therefore found in the axis at the sum of the starts
on the way, and no variable lies below another.
-/

namespace TieredCalculus

namespace VariableLayout

@[simp] theorem name_shift (n : Nat) (v : VariableLayout) : (v.shift n).name = v.name := rfl

@[simp] theorem shift_zero (v : VariableLayout) : v.shift 0 = v := rfl

@[simp] theorem shift_shift (m n : Nat) (v : VariableLayout) :
    (v.shift m).shift n = v.shift (n + m) := by
  unfold shift
  rw [Nat.add_assoc, Nat.add_comm m n]

end VariableLayout

theorem nodup_of_sorted {β : Type} {l : List (String × β)} (h : l.Pairwise fun a b => a.1 < b.1) :
    (l.map (·.1)).Nodup := by
  refine List.pairwise_map.2 (h.imp fun {a b} hlt heq => ?_)
  rw [heq] at hlt
  exact String.lt_irrefl _ hlt

namespace Axis

/-! ## The outline of a level -/

/-- The variables of the axis that lie in none of its sub-axes. -/
def locals (a : Axis) : List VariableLayout :=
  a.leaves.filter fun v => v.name.depth = a.path.depth + 1

def placedLeaves (s : String × Nat × Axis) : List VariableLayout :=
  s.2.2.leaves.map (·.shift s.2.1)

/-- A sub-axis taken as one variable, which occupies the range of the sub-axis. -/
def whole (a : Axis) (s : String × Nat × Axis) : VariableLayout :=
  ⟨a.qualify s.1, [], [s.2.2.size], s.2.1⟩

/-- The level of the axis: its own variables, then its sub-axes as one variable each. -/
def outline (a : Axis) : List VariableLayout := a.locals ++ a.subaxes.map a.whole

@[simp] theorem storage_whole (a : Axis) (s : String × Nat × Axis) :
    (a.whole s).storage = s.2.2.size := by
  simp [whole, VariableLayout.storage]

structure Level (a : Axis) : Prop where
  leaves_eq : a.leaves = a.locals ++ a.subaxes.flatMap placedLeaves
  locals_name : ∀ v ∈ a.locals, ∃ c, IsComponent c ∧ v.name = a.qualify c
  subaxes_name : ∀ s ∈ a.subaxes, IsComponent s.1
  subaxes_path : ∀ s ∈ a.subaxes, s.2.2.path = a.qualify s.1
  below : ∀ v ∈ a.leaves, ∃ rest, rest ≠ [] ∧ v.name.components = a.path.components ++ rest
  locals_sorted : a.locals.Pairwise fun v w => v.name.last < w.name.last
  subaxes_sorted : a.subaxes.Pairwise fun s s' => s.1 < s'.1
  disjoint : ∀ v ∈ a.locals, ∀ s ∈ a.subaxes, v.name.last ≠ s.1
  outline_consecutive : Consecutive 0 a.outline

end Axis

namespace AxisPlan

open Axis

/-! ## Levels of frozen plans -/

theorem mem_placeSubaxes {path : Path} {start : Nat} {subaxes : List (String × AxisPlan)}
    {s : String × Nat × Axis} (h : s ∈ placeSubaxes path start subaxes) :
    ∃ plan, (s.1, plan) ∈ subaxes ∧ s.2.2 = plan.freezeAt (path.join s.1) := by
  induction subaxes generalizing start with
  | nil => cases h
  | cons e subaxes ih =>
    obtain ⟨name, plan⟩ := e
    rw [placeSubaxes] at h
    rcases List.mem_cons.1 h with rfl | h
    · exact ⟨plan, List.mem_cons_self, rfl⟩
    · obtain ⟨plan', hmem, hsub⟩ := ih h
      exact ⟨plan', List.mem_cons_of_mem _ hmem, hsub⟩

theorem names_of_placeSubaxes (path : Path) (start : Nat) (subaxes : List (String × AxisPlan)) :
    (placeSubaxes path start subaxes).map (·.1) = subaxes.map (·.1) := by
  induction subaxes generalizing start with
  | nil => rfl
  | cons e subaxes ih => rw [placeSubaxes, List.map_cons, List.map_cons, ih]

theorem consecutive_whole (a : Axis) (path : Path) (start : Nat)
    (subaxes : List (String × AxisPlan)) :
    Consecutive start ((placeSubaxes path start subaxes).map a.whole) := by
  induction subaxes generalizing start with
  | nil => trivial
  | cons e subaxes ih =>
    obtain ⟨name, plan⟩ := e
    rw [placeSubaxes, List.map_cons]
    refine ⟨rfl, ?_⟩
    rw [VariableLayout.stop, storage_whole]
    exact ih _

theorem path_freezeAt (path : Path) (plan : AxisPlan) : (plan.freezeAt path).path = path := by
  cases plan
  rw [freezeAt]

theorem mem_placeLeaves {path : Path} {start : Nat} {leaves : List (String × Shape × Shape)}
    {v : VariableLayout} (h : v ∈ placeLeaves path start leaves) :
    ∃ l ∈ leaves, v.name = path.join l.1 := by
  have hname := List.mem_map_of_mem (f := (·.name)) h
  rw [names_placeLeaves] at hname
  obtain ⟨l, hl, hv⟩ := List.mem_map.1 hname
  exact ⟨l, hl, hv.symm⟩

theorem lasts_placeLeaves (path : Path) (start : Nat) {leaves : List (String × Shape × Shape)}
    (hl : ∀ l ∈ leaves, IsComponent l.1) :
    (placeLeaves path start leaves).map (·.name.last) = leaves.map (·.1) := by
  have hnames := congrArg (List.map Path.last) (names_placeLeaves path start leaves)
  rw [List.map_map, List.map_map] at hnames
  exact hnames.trans (List.map_congr_left fun l hmem => Path.last_join path (hl l hmem))

theorem depth_join (path : Path) {c : String} (h : IsComponent c) :
    (path.join c).depth = path.depth + 1 := by
  rw [Path.depth, Path.components_join path h, List.length_append]
  rfl

/-- The variables of a level are placed first, and no others are local to it. -/
theorem WellFormed.locals_freezeAt {leaves : List (String × Shape × Shape)}
    {subaxes : List (String × AxisPlan)} (h : WellFormed ⟨leaves, subaxes⟩) (path : Path) :
    (freezeAt path ⟨leaves, subaxes⟩).locals = placeLeaves path 0 leaves := by
  cases h with
  | intro hl hs _ _ _ hsubs =>
    have hown : (placeLeaves path 0 leaves).filter
        (fun v => v.name.depth = path.depth + 1) = placeLeaves path 0 leaves := by
      rw [List.filter_eq_self]
      intro v hv
      obtain ⟨l, hmem, hname⟩ := mem_placeLeaves hv
      rw [hname, depth_join path (hl l hmem), decide_eq_true_eq]
    have hnested : ((placeSubaxes path
        (Shape.total ((placeLeaves path 0 leaves).map (·.storage))) subaxes).flatMap
          placedLeaves).filter (fun v => v.name.depth = path.depth + 1) = [] := by
      rw [List.filter_eq_nil_iff]
      intro v hv
      obtain ⟨s, hmem, hv⟩ := List.mem_flatMap.1 hv
      obtain ⟨w, hw, rfl⟩ := List.mem_map.1 hv
      obtain ⟨plan, hplan, hsub⟩ := mem_placeSubaxes hmem
      rw [hsub] at hw
      obtain ⟨rest, hne, hbelow⟩ :=
        (hsubs _ hplan).below_of_mem_names (List.mem_map_of_mem hw)
      have hdepth : w.name.depth = path.depth + 1 + rest.length := by
        rw [Path.depth, hbelow, List.length_append]
        exact congrArg (· + rest.length) (depth_join path (hs _ hplan))
      have hpos := List.length_pos_iff.2 hne
      rw [decide_eq_true_eq, VariableLayout.name_shift, hdepth]
      omega
    unfold locals
    rw [path_freezeAt, freezeAt]
    refine (List.filter_append ..).trans ?_
    rw [hown]
    exact (congrArg _ hnested).trans (List.append_nil _)

theorem WellFormed.level {plan : AxisPlan} (h : WellFormed plan) (path : Path) :
    (plan.freezeAt path).Level := by
  have hbelow : ∀ v ∈ (plan.freezeAt path).leaves, ∃ rest, rest ≠ [] ∧
      v.name.components = (plan.freezeAt path).path.components ++ rest := by
    intro v hv
    rw [path_freezeAt]
    exact h.below_of_mem_names (List.mem_map_of_mem hv)
  obtain ⟨leaves, subaxes⟩ := plan
  have hlocals := h.locals_freezeAt path
  have hleaves : (freezeAt path ⟨leaves, subaxes⟩).leaves =
      placeLeaves path 0 leaves ++ (freezeAt path ⟨leaves, subaxes⟩).subaxes.flatMap
        placedLeaves := by
    rw [freezeAt]
    rfl
  have hsubaxes : (freezeAt path ⟨leaves, subaxes⟩).subaxes = placeSubaxes path
      (Shape.total ((placeLeaves path 0 leaves).map (·.storage))) subaxes := by
    rw [freezeAt]
  cases h with
  | intro hl hs hlo hso hdisjoint hsubs =>
    refine ⟨hlocals ▸ hleaves, ?_, ?_, ?_, hbelow, ?_, ?_, ?_, ?_⟩
    · intro v hv
      rw [hlocals] at hv
      obtain ⟨l, hmem, hname⟩ := mem_placeLeaves hv
      refine ⟨l.1, hl l hmem, ?_⟩
      rw [qualify, path_freezeAt, hname]
    · intro s hmem
      rw [hsubaxes] at hmem
      obtain ⟨plan, hplan, -⟩ := mem_placeSubaxes hmem
      exact hs _ hplan
    · intro s hmem
      rw [hsubaxes] at hmem
      obtain ⟨plan, -, hsub⟩ := mem_placeSubaxes hmem
      rw [hsub, path_freezeAt, qualify, path_freezeAt]
    · have hsorted : (leaves.map (·.1)).Pairwise (· < ·) := List.pairwise_map.2 hlo
      rw [← lasts_placeLeaves path 0 hl] at hsorted
      rw [hlocals]
      exact List.pairwise_map.1 hsorted
    · have hsorted : (subaxes.map (·.1)).Pairwise (· < ·) := List.pairwise_map.2 hso
      rw [← names_of_placeSubaxes path
        (Shape.total ((placeLeaves path 0 leaves).map (·.storage)))] at hsorted
      rw [hsubaxes]
      exact List.pairwise_map.1 hsorted
    · intro v hv s hmem
      rw [hlocals] at hv
      rw [hsubaxes] at hmem
      obtain ⟨l, hl', hname⟩ := mem_placeLeaves hv
      obtain ⟨plan, hplan, -⟩ := mem_placeSubaxes hmem
      rw [hname, Path.last_join path (hl l hl')]
      exact hdisjoint l hl' _ hplan
    · unfold outline
      rw [hlocals, hsubaxes]
      refine consecutive_append (consecutive_placeLeaves path 0 leaves) ?_
      rw [Nat.zero_add]
      exact consecutive_whole _ path _ subaxes

end AxisPlan

namespace Axis

theorem Formed.level {a : Axis} (h : a.Formed) : a.Level := by
  obtain ⟨plan, path, hplan, rfl⟩ := h.exists_plan
  exact hplan.level path

/-! ## Places on a level -/

theorem Level.total_outline {a : Axis} (h : a.Level) :
    Shape.total (a.outline.map (·.storage)) = a.size := by
  have hnested : ∀ subaxes : List (String × Nat × Axis),
      Shape.total ((subaxes.map a.whole).map (·.storage)) =
        Shape.total ((subaxes.flatMap placedLeaves).map (·.storage)) := by
    intro subaxes
    induction subaxes with
    | nil => rfl
    | cons s subaxes ih =>
      rw [List.map_cons, List.map_cons, Shape.total_cons, ih, storage_whole, List.flatMap_cons,
        List.map_append, Shape.total_append, placedLeaves, total_shift, size]
  rw [outline, List.map_append, Shape.total_append, hnested, ← Shape.total_append,
    ← List.map_append, ← h.leaves_eq, size]

/-- Every place of an axis lies in the range of one variable or one sub-axis of the level. -/
theorem Level.existsUnique {a : Axis} (h : a.Level) {i : Nat} (hi : i < a.size) :
    ∃! v, v ∈ a.outline ∧ v.Covers i := by
  refine h.outline_consecutive.existsUnique (Nat.zero_le i) ?_
  rwa [h.total_outline, Nat.zero_add]

theorem Level.stop_le {a : Axis} (h : a.Level) {s : String × Nat × Axis} (hs : s ∈ a.subaxes) :
    s.2.1 + s.2.2.size ≤ a.size := by
  have hmem : a.whole s ∈ a.outline := List.mem_append_right _ (List.mem_map_of_mem hs)
  have hstop := h.outline_consecutive.stop_le hmem
  rwa [h.total_outline, Nat.zero_add, VariableLayout.stop, storage_whole] at hstop

/-! ## Variables below a sub-axis -/

theorem filter_flatMap_of_mem {β γ : Type} {f : β → List γ} {keep : γ → Bool} {l : List β} {x : β}
    (hl : l.Nodup) (hx : x ∈ l) (hself : ∀ y ∈ f x, keep y = true)
    (hothers : ∀ x' ∈ l, x' ≠ x → ∀ y ∈ f x', keep y = false) :
    (l.flatMap f).filter keep = f x := by
  induction l with
  | nil => cases hx
  | cons z l ih =>
    obtain ⟨hz, hl⟩ := List.nodup_cons.1 hl
    have hnone : ∀ {l' : List β}, (∀ x' ∈ l', x' ∈ z :: l ∧ x' ≠ x) →
        (l'.flatMap f).filter keep = [] := by
      intro l' h
      rw [List.filter_eq_nil_iff]
      intro y hy
      obtain ⟨x', hx', hy⟩ := List.mem_flatMap.1 hy
      rw [hothers x' (h x' hx').1 (h x' hx').2 y hy]
      exact Bool.false_ne_true
    rw [List.flatMap_cons, List.filter_append]
    rcases List.mem_cons.1 hx with rfl | hx
    · rw [List.filter_eq_self.2 hself, hnone, List.append_nil]
      exact fun x' hx' => ⟨List.mem_cons_of_mem x hx', fun heq => hz (heq ▸ hx')⟩
    · have hzx : z ≠ x := fun heq => hz (heq ▸ hx)
      have hfirst : (f z).filter keep = [] := by
        rw [List.filter_eq_nil_iff]
        intro y hy
        rw [hothers z List.mem_cons_self hzx y hy]
        exact Bool.false_ne_true
      rw [hfirst, List.nil_append]
      exact ih hl hx fun x' hx' => hothers x' (List.mem_cons_of_mem z hx')

theorem Level.nodup_subaxisNames {a : Axis} (h : a.Level) : a.subaxisNames.Nodup :=
  nodup_of_sorted h.subaxes_sorted

theorem Level.eq_of_name_eq {a : Axis} (h : a.Level) {s s' : String × Nat × Axis}
    (hs : s ∈ a.subaxes) (hs' : s' ∈ a.subaxes) (heq : s.1 = s'.1) : s = s' :=
  List.inj_on_of_nodup_map h.nodup_subaxisNames hs hs' heq

theorem Level.below_of_mem {a : Axis} (h : a.Level) {s : String × Nat × Axis}
    (hs : s ∈ a.subaxes) (hsub : s.2.2.Level) {v : VariableLayout} (hv : v ∈ placedLeaves s) :
    ∃ rest, rest ≠ [] ∧ v.name.components = a.path.components ++ s.1 :: rest := by
  obtain ⟨w, hw, rfl⟩ := List.mem_map.1 hv
  obtain ⟨rest, hne, hrest⟩ := hsub.below w hw
  refine ⟨rest, hne, ?_⟩
  rw [VariableLayout.name_shift, hrest, h.subaxes_path s hs, qualify,
    Path.components_join _ (h.subaxes_name s hs), List.append_assoc]
  rfl

theorem Level.filter_isUnder {a : Axis} (h : a.Level) (hsubs : ∀ s ∈ a.subaxes, s.2.2.Level)
    {s : String × Nat × Axis} (hs : s ∈ a.subaxes) :
    a.leaves.filter (·.name.isUnder s.2.2.path) = placedLeaves s := by
  have hpath : s.2.2.path.components = a.path.components ++ [s.1] := by
    rw [h.subaxes_path s hs, qualify, Path.components_join _ (h.subaxes_name s hs)]
  have hunder : ∀ {v : VariableLayout} {c : String} {rest : List String},
      v.name.components = a.path.components ++ c :: rest →
        (v.name.isUnder s.2.2.path = true ↔ c = s.1) := by
    intro v c rest hv
    rw [Path.isUnder_iff, hv, hpath]
    simp only [List.append_assoc, List.append_cancel_left_eq, List.cons_append, List.nil_append,
      List.cons.injEq, exists_and_left]
    exact and_iff_left ⟨rest, rfl⟩
  have hlocals : a.locals.filter (·.name.isUnder s.2.2.path) = [] := by
    rw [List.filter_eq_nil_iff]
    intro v hv hin
    obtain ⟨c, hc, hname⟩ := h.locals_name v hv
    have hcomp : v.name.components = a.path.components ++ c :: [] := by
      rw [hname, qualify, Path.components_join _ hc]
    refine h.disjoint v hv s hs ?_
    rw [hname, qualify, Path.last_join _ hc]
    exact (hunder hcomp).1 hin
  rw [h.leaves_eq, List.filter_append, hlocals, List.nil_append]
  have hnodup : a.subaxes.Nodup := .of_map _ h.nodup_subaxisNames
  refine filter_flatMap_of_mem hnodup hs (fun v hv => ?_) fun s' hs' hne v hv => ?_
  · obtain ⟨rest, -, hrest⟩ := h.below_of_mem hs (hsubs s hs) hv
    exact (hunder hrest).2 rfl
  · obtain ⟨rest, -, hrest⟩ := h.below_of_mem hs' (hsubs s' hs') hv
    rw [← Bool.not_eq_true, hunder hrest]
    exact fun heq => hne (h.eq_of_name_eq hs' hs heq)

theorem Level.filter_isUnder_path {a : Axis} (h : a.Level) :
    a.leaves.filter (·.name.isUnder a.path) = a.leaves := by
  rw [List.filter_eq_self]
  intro v hv
  obtain ⟨rest, -, hrest⟩ := h.below v hv
  exact Path.isUnder_iff.2 ⟨rest, hrest⟩

/-! ## Nested sub-axes -/

theorem subaxisRange_eq_ok {a : Axis} {name : String} {range : Nat × Nat} :
    a.subaxisRange name = .ok range ↔
      ∃ s, SortedEntries.find? name a.subaxes = some s ∧ range = (s.1, s.1 + s.2.size) := by
  unfold subaxisRange
  cases SortedEntries.find? name a.subaxes with
  | none => simp
  | some s => simp [eq_comm]

theorem subaxis_component_eq_ok {a sub : Axis} {part : String} (hpart : IsComponent part) :
    a.subaxis part = .ok sub ↔
      ∃ start, SortedEntries.find? part a.subaxes = some (start, sub) := by
  rw [subaxis_eq_ok, Path.ofString_component hpart, follow]
  cases SortedEntries.find? part a.subaxes with
  | none => simp
  | some s => simp [follow, Prod.ext_iff]

/-- The ranges on the way from an axis down to a nested sub-axis, each on the axis above. -/
inductive Leads : Axis → List String → List (Nat × Nat) → Axis → Prop
  | here (a : Axis) : Leads a [] [] a
  | down {a next sub : Axis} {part : String} {rest : List String} {range : Nat × Nat}
      {ranges : List (Nat × Nat)} :
      a.subaxisRange part = .ok range → a.subaxis part = .ok next →
      Leads next rest ranges sub → Leads a (part :: rest) (range :: ranges) sub

theorem exists_leads {a sub : Axis} {parts : List String} (hparts : ∀ c ∈ parts, IsComponent c)
    (h : follow parts a = some sub) : ∃ ranges, Leads a parts ranges sub := by
  induction parts generalizing a with
  | nil =>
    cases h
    exact ⟨[], .here _⟩
  | cons part rest ih =>
    rw [follow] at h
    cases hfind : SortedEntries.find? part a.subaxes with
    | none => simp only [hfind] at h; cases h
    | some found =>
      obtain ⟨start, next⟩ := found
      simp only [hfind] at h
      obtain ⟨ranges, hranges⟩ := ih (fun c hc => hparts c (List.mem_cons_of_mem part hc)) h
      have hpart := hparts part List.mem_cons_self
      exact ⟨_, .down (subaxisRange_eq_ok.2 ⟨_, hfind, rfl⟩)
        ((subaxis_component_eq_ok hpart).2 ⟨start, hfind⟩) hranges⟩

theorem Formed.direct {a sub : Axis} {start : Nat} {part : String} (h : a.Formed)
    (hfind : SortedEntries.find? part a.subaxes = some (start, sub)) : sub.Formed := by
  have hmem := SortedEntries.mem_of_find?_eq_some hfind
  have hpart := h.level.subaxes_name _ hmem
  exact h.subaxis ((subaxis_component_eq_ok hpart).2 ⟨start, hfind⟩)

theorem Level.find?_of_mem {a : Axis} (h : a.Level) {s : String × Nat × Axis}
    (hs : s ∈ a.subaxes) : SortedEntries.find? s.1 a.subaxes = some s.2 :=
  SortedEntries.find?_of_mem h.nodup_subaxisNames hs

theorem Level.subaxisRange_of_mem {a : Axis} (h : a.Level) {s : String × Nat × Axis}
    (hs : s ∈ a.subaxes) : a.subaxisRange s.1 = .ok (s.2.1, s.2.1 + s.2.2.size) :=
  subaxisRange_eq_ok.2 ⟨s.2, h.find?_of_mem hs, rfl⟩

theorem Level.subaxis_of_mem {a : Axis} (h : a.Level) {s : String × Nat × Axis}
    (hs : s ∈ a.subaxes) : a.subaxis s.1 = .ok s.2.2 :=
  (subaxis_component_eq_ok (h.subaxes_name s hs)).2 ⟨s.2.1, h.find?_of_mem hs⟩

theorem Formed.of_mem {a : Axis} (h : a.Formed) {s : String × Nat × Axis} (hs : s ∈ a.subaxes) :
    s.2.2.Formed := h.direct (h.level.find?_of_mem hs)

theorem Formed.filter_isUnder {a : Axis} (h : a.Formed) {s : String × Nat × Axis}
    (hs : s ∈ a.subaxes) : a.leaves.filter (·.name.isUnder s.2.2.path) = placedLeaves s :=
  h.level.filter_isUnder (fun _ hmem => (h.of_mem hmem).level) hs

theorem filter_isUnder_isUnder (vs : List VariableLayout) {p q : Path}
    (h : p.isUnder q = true) :
    (vs.filter (·.name.isUnder q)).filter (·.name.isUnder p) = vs.filter (·.name.isUnder p) := by
  have hunder : ∀ v ∈ vs, v.name.isUnder p = (v.name.isUnder p && v.name.isUnder q) := by
    intro v _
    rw [Bool.eq_iff_iff, Bool.and_eq_true, iff_self_and]
    exact fun hv => Path.isUnder_trans hv h
  rw [List.filter_filter, ← List.filter_congr hunder]

/-- The leaves of an axis below a nested sub-axis are those of the sub-axis, further on by the
starts of the ranges on the way. -/
theorem Leads.nested {a sub : Axis} {parts : List String} {ranges : List (Nat × Nat)}
    (h : Leads a parts ranges sub) (hparts : ∀ c ∈ parts, IsComponent c) (ha : a.Formed) :
    sub.Formed ∧ sub.path.components = a.path.components ++ parts ∧
      a.leaves.filter (·.name.isUnder sub.path) =
        sub.leaves.map (·.shift (Shape.total (ranges.map (·.1)))) := by
  induction h with
  | here a =>
    refine ⟨ha, (List.append_nil _).symm, ?_⟩
    rw [ha.level.filter_isUnder_path]
    simp
  | @down a next sub part rest range ranges hrange hnext _ ih =>
    have hpart := hparts part List.mem_cons_self
    obtain ⟨start, hfind⟩ := (subaxis_component_eq_ok hpart).1 hnext
    obtain ⟨_, hfind', rfl⟩ := subaxisRange_eq_ok.1 hrange
    rw [hfind] at hfind'
    cases hfind'
    have hmem := SortedEntries.mem_of_find?_eq_some hfind
    obtain ⟨hformed, hpath, hleaves⟩ :=
      ih (fun c hc => hparts c (List.mem_cons_of_mem part hc)) (ha.direct hfind)
    have hnextPath : next.path.components = a.path.components ++ [part] := by
      rw [ha.level.subaxes_path _ hmem, qualify, Path.components_join _ hpart]
    refine ⟨hformed, ?_, ?_⟩
    · rw [hpath, hnextPath, List.append_assoc]
      rfl
    · calc a.leaves.filter (·.name.isUnder sub.path)
          = (a.leaves.filter (·.name.isUnder next.path)).filter (·.name.isUnder sub.path) :=
            (filter_isUnder_isUnder a.leaves (Path.isUnder_iff.2 ⟨rest, hpath⟩)).symm
        _ = (next.leaves.filter (·.name.isUnder sub.path)).map (·.shift start) := by
            rw [ha.filter_isUnder hmem, placedLeaves, List.filter_map]
            rfl
        _ = sub.leaves.map (·.shift (start + Shape.total (ranges.map (·.1)))) := by
            rw [hleaves, List.map_map]
            exact List.map_congr_left fun v _ => VariableLayout.shift_shift _ _ v

theorem Leads.getLast_range {a sub : Axis} {parts : List String} {ranges : List (Nat × Nat)}
    (h : Leads a parts ranges sub) {range : Nat × Nat} (hlast : ranges.getLast? = some range)
    (hparts : ∀ c ∈ parts, IsComponent c) : range.2 = range.1 + sub.size := by
  induction h with
  | here a => cases hlast
  | @down a next sub part rest range' ranges hrange hnext hrest ih =>
    cases hrest with
    | here =>
      cases hlast
      obtain ⟨start, hfind⟩ := (subaxis_component_eq_ok (hparts part List.mem_cons_self)).1 hnext
      obtain ⟨_, hfind', rfl⟩ := subaxisRange_eq_ok.1 hrange
      rw [hfind] at hfind'
      cases hfind'
      rfl
    | down =>
      rw [List.getLast?_cons_cons] at hlast
      exact ih hlast fun c hc => hparts c (List.mem_cons_of_mem part hc)

/-- The ranges of the leaves follow one another from one place to another. -/
def Tiles : Nat → Nat → List VariableLayout → Prop
  | start, stop, [] => start = stop
  | start, stop, v :: rest => v.start = start ∧ Tiles v.stop stop rest

theorem Consecutive.tiles {start : Nat} {vs : List VariableLayout} (h : Consecutive start vs) :
    Tiles start (start + Shape.total (vs.map (·.storage))) vs := by
  induction vs generalizing start with
  | nil => rfl
  | cons v vs ih =>
    obtain ⟨hv, hrest⟩ := h
    refine ⟨hv, ?_⟩
    rw [List.map_cons, Shape.total_cons, ← Nat.add_assoc, ← hv]
    exact ih hrest

theorem Laid.tiles {a : Axis} (h : a.Laid) : Tiles 0 a.size a.leaves := by
  have htiles := h.consecutive.tiles
  rwa [Nat.zero_add] at htiles

end Axis

namespace AxisPlan

open Axis

theorem WellFormed.eq_of_isUnder {plan : AxisPlan} (h : WellFormed plan) {path p q : Path}
    (hp : p ∈ (plan.freezeAt path).names) (hq : q ∈ (plan.freezeAt path).names)
    (hpq : p.isUnder q = true) : p = q := by
  have hbelow := h.below_of_mem_names hq
  induction h generalizing path p q with
  | @intro leaves subaxes hl hs hlo hso hdisjoint hsubs ih =>
    obtain ⟨tail, htail⟩ := Path.isUnder_iff.1 hpq
    rw [names_freezeAt] at hp hq
    rcases List.mem_append.1 hp with hp | hp
    · -- a variable of this level is one component longer than the path of the level
      obtain ⟨l, hmem, rfl⟩ := List.mem_map.1 hp
      obtain ⟨rest, hne, hrest⟩ := hbelow
      rw [Path.components_join path (hl l hmem), hrest, List.append_assoc,
        List.append_cancel_left_eq] at htail
      obtain ⟨c, rest, rfl⟩ := List.exists_cons_of_ne_nil hne
      obtain ⟨rfl, hnil⟩ := List.cons.inj htail
      rw [(List.append_eq_nil_iff.1 hnil.symm).1] at hrest
      exact Path.ext ((Path.components_join path (hl l hmem)).trans hrest.symm)
    · obtain ⟨s, hmem, hsub⟩ := List.mem_flatMap.1 hp
      obtain ⟨rest, hne, hrest⟩ := (hsubs s hmem).below_join (hs s hmem) hsub
      rcases List.mem_append.1 hq with hq | hq
      · obtain ⟨l, hl', rfl⟩ := List.mem_map.1 hq
        rw [hrest, Path.components_join path (hl l hl'), List.append_assoc,
          List.append_cancel_left_eq] at htail
        exact absurd (List.cons.inj htail).1.symm (hdisjoint l hl' s hmem)
      · obtain ⟨s', hmem', hsub'⟩ := List.mem_flatMap.1 hq
        have hbelow' := (hsubs s' hmem').below_join (hs s' hmem') hsub'
        obtain ⟨rest', -, hrest'⟩ := hbelow'
        rw [hrest, hrest', List.append_assoc, List.append_cancel_left_eq] at htail
        obtain rfl := List.inj_on_of_nodup_map (nodup_of_sorted hso) hmem hmem'
          (List.cons.inj htail).1
        exact ih s hmem hsub hsub' hpq ((hsubs s hmem).below_of_mem_names hsub')

/-- On the axis frozen from a plan that declarations have built no variable has the name of
another or lies below another, and the ranges of the variables fill the axis one after another.
The same holds of every nested sub-axis. It has its variables first, then those of its sub-axes,
both in ascending order of the names, and its variables are those of the axis below its path,
where each lies further on by the sum of the starts of the ranges on the way. -/
theorem freeze_partitions {plan : AxisPlan} (h : plan.Built) :
    (plan.freeze.names.Nodup ∧
      ∀ p ∈ plan.freeze.names, ∀ q ∈ plan.freeze.names, p.isUnder q = true → p = q) ∧
    Tiles 0 plan.freeze.size plan.freeze.leaves ∧
    ∀ (name : Path) (sub : Axis), plan.freeze.subaxis name = .ok sub →
      sub.path = name ∧ Tiles 0 sub.size sub.leaves ∧
      (sub.leaves = sub.locals ++ sub.subaxes.flatMap placedLeaves ∧
        (sub.locals.Pairwise fun v w => v.name.last < w.name.last) ∧
        sub.subaxisNames.Pairwise (· < ·)) ∧
      ∃ ranges, Leads plan.freeze name.components ranges sub ∧
        plan.freeze.leaves.filter (·.name.isUnder sub.path) =
          sub.leaves.map (·.shift (Shape.total (ranges.map (·.1)))) ∧
        ∀ range, ranges.getLast? = some range → range.2 = range.1 + sub.size := by
  have hformed : plan.freeze.Formed := .frozen h
  refine ⟨⟨hformed.laid.nodup_names, fun p hp q hq => h.wellFormed.eq_of_isUnder hp hq⟩,
    hformed.laid.tiles, fun name sub hsub => ?_⟩
  obtain ⟨ranges, hleads⟩ := exists_leads name.valid (subaxis_eq_ok.1 hsub)
  obtain ⟨hsubFormed, hpath, hleaves⟩ := hleads.nested name.valid hformed
  have hlevel := hsubFormed.level
  refine ⟨?_, hsubFormed.laid.tiles, ⟨hlevel.leaves_eq, hlevel.locals_sorted,
    List.pairwise_map.2 hlevel.subaxes_sorted⟩, ranges, hleads, hleaves, fun range hlast =>
      hleads.getLast_range hlast name.valid⟩
  apply Path.ext
  rw [hpath]
  unfold freeze
  rw [path_freezeAt]
  rfl

def nestedPlan : AxisPlan :=
  ((declare "m/s/x" [] [2]).outcome ((declare "m/a" [3] []).outcome
    ((declare "z" [] []).outcome AxisPlan.empty).2).2).2

theorem built_nestedPlan : nestedPlan.Built :=
  ((Built.empty.step (.ofVariable ..)).step (.ofVariable ..)).step (.ofVariable ..)

theorem nestedPlan_partitions :
    nestedPlan.Built ∧
      nestedPlan.freeze.subaxis "m/s" = .ok ⟨"m/s", [⟨"m/s/x", [], [2], 0⟩], []⟩ ∧
      nestedPlan.freeze.leaves.filter (·.name.isUnder "m/s") = [⟨"m/s/x", [], [2], 4⟩] := by
  have hsub : nestedPlan.freeze.subaxis "m/s" = .ok ⟨"m/s", [⟨"m/s/x", [], [2], 0⟩], []⟩ := rfl
  have hparts : ("m/s" : Path).components = ["m", "s"] := rfl
  have hm : nestedPlan.freeze.subaxisRange "m" = .ok (1, 6) := rfl
  have hnext : nestedPlan.freeze.subaxis "m" = .ok ⟨"m", [⟨"m/a", [3], [], 0⟩,
      ⟨"m/s/x", [], [2], 3⟩], [("s", 3, ⟨"m/s", [⟨"m/s/x", [], [2], 0⟩], []⟩)]⟩ := rfl
  obtain ⟨-, -, hlevels⟩ := freeze_partitions built_nestedPlan
  obtain ⟨-, -, -, ranges, hleads, hleaves, -⟩ := hlevels _ _ hsub
  refine ⟨built_nestedPlan, hsub, hleaves.trans ?_⟩
  rw [hparts] at hleads
  cases hleads with
  | down hrange hnext' hrest =>
    rw [hm] at hrange
    rw [hnext] at hnext'
    cases hrange
    cases hnext'
    cases hrest with
    | down hrange _ hend =>
      cases hrange
      cases hend
      rfl

end AxisPlan

end TieredCalculus
